import ScopeIR.Failure

/-! A directory of files, held by their paths. Other directories exist as far as files
are in them. -/
namespace ScopeIR

abbrev Path := List String

namespace Path

def ofString (name : String) : Path := (name.toList.splitOn '/').map String.ofList

/-- A path that starts with a slash starts at the root, an empty part. -/
def root (name : String) : Path := if name.toList.head? = some '/' then [""] else []

/-- Leaves out empty parts and single points; two points take the part before them
back, and stay at the root. -/
def push (path : Path) (part : String) : Path :=
  if part = "" || part = "." then path
  else if part = ".." then
    match path.getLast? with
    | none | some ".." => path ++ [part]
    | some "" => path
    | some _ => path.dropLast
  else path ++ [part]

def clean (name : String) : Path := (ofString name).foldl push (root name)

def toString (path : Path) : String := "/".intercalate path

end Path

structure Directory where
  files : List (String × String) := []
deriving DecidableEq, Repr

namespace Directory

inductive Entry where
  | file (text : String)
  | directory
  | missing
  /-- A file stands where a directory is needed. -/
  | barred
  /-- The path, or a part of it, has more bytes than a name can have. -/
  | tooLong
  /-- The path holds the character that ends names. -/
  | invalid
deriving DecidableEq, Repr

def maxPart : Nat := 255

/-- The bytes of a path, of which one is for its end. -/
def maxPath : Nat := 4096

def file? (d : Directory) (path : Path) : Option String :=
  (d.files.find? fun (name, _) => Path.clean name = path).map (·.2)

def isDirectory (d : Directory) (path : Path) : Bool :=
  path.all (fun part => part = ".." || part = "") || d.files.any fun (name, _) =>
    path.isPrefixOf (Path.clean name) && path != Path.clean name

def follow (d : Directory) (path : Path) : Path → Entry
  | [] => if d.isDirectory path then .directory else
    match d.file? path with
    | some text => .file text
    | none => .missing
  | part :: rest =>
    if d.isDirectory path then
      if maxPart < part.utf8ByteSize then .tooLong else d.follow (path.push part) rest
    else if (d.file? path).isSome then .barred
    else .missing

def entry (d : Directory) (name : String) : Entry :=
  if name.toList.contains '\x00' then .invalid
  else if maxPath ≤ name.utf8ByteSize then .tooLong
  else if name.isEmpty then .missing
  else d.follow (Path.root name) (Path.ofString name)

def Entry.refusal (verb name : String) : Entry → Cause
  | .file _ => .fileExists verb name
  | .directory => .isDirectory verb name
  | .missing => .missingFile name
  | .barred => .notDirectory verb name
  | .tooLong => .nameTooLong verb name
  | .invalid => .invalidName verb name

def read (d : Directory) (name : String) : Outcome String :=
  match d.entry name with
  | .file text => .ok text
  | .directory => Outcome.fail (.isDirectory "read" name)
  | entry => Outcome.fail (entry.refusal "open" name)

def setFile (name text : String) : List (String × String) → List (String × String)
  | [] => [(name, text)]
  | (other, old) :: rest =>
    if Path.clean other = Path.clean name then (other, text) :: rest
    else (other, old) :: setFile name text rest

def write (d : Directory) (name text : String) : Directory :=
  ⟨setFile name text d.files⟩

def create (d : Directory) (name : String) : Outcome Directory :=
  let parent := Path.toString (Path.ofString name).dropLast
  match d.entry name with
  | .file _ => .ok (d.write name "")
  | .missing =>
    if parent.isEmpty || d.entry parent matches .directory then .ok (d.write name "")
    else Outcome.fail (.missingFile name)
  | entry => Outcome.fail (entry.refusal "open" name)

def parent (name : List Char) : List Char :=
  (((name.reverse.dropWhile (· == '/')).dropWhile (· != '/')).drop 1).reverse

/-- In at most the given number of steps. -/
def around : Nat → List Char → List String
  | 0, _ | _, [] => []
  | fuel + 1, name => around fuel (parent name) ++ [String.ofList name]

/-- A directory and those around it, outermost first, as they are spelled. -/
def lineage (name : String) : List String := around name.length name.toList

def fits (name : String) : Bool :=
  name.utf8ByteSize < maxPath && (Path.ofString name).all (·.utf8ByteSize ≤ maxPart)

/-- Whether a directory can be made once those around it are there. It stands where its
path leads without detours. -/
def canMake (d : Directory) (name : String) : Outcome Unit :=
  match d.entry name with
  | .directory => .ok ()
  | .file _ => Outcome.fail (.notDirectory "mkdir" name)
  | .invalid => Outcome.fail (.invalidName "mkdir" name)
  | _ =>
    if !fits name then Outcome.fail (.nameTooLong "mkdir" name)
    else if d.entry (Path.toString (Path.clean name)) matches .file _ then
      Outcome.fail (.fileExists "mkdir" name)
    else .ok ()

/-- Makes a directory and those around it. They are there as soon as a file is in them,
so that only the refusals are left. -/
def makeAll (d : Directory) (name : String) : Outcome Unit := (lineage name).forM d.canMake

end Directory

end ScopeIR
