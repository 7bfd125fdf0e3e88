/-! Why an operation refuses its input. A failure is a cause together with the
contexts around it, outermost first; the wording of every cause stands here. -/
namespace ScopeIR

inductive Cause where
  | malformedTree
  | unsupportedConstruct
  | nestedTooDeep
  | untypedNode
  | expected (wanted found : String)
  | unexpected (found : String)
  | jsonSyntax
  | jsonType
  | jsonNumber
  | tomlText
  | duplicateId
  | invalidId
  | emptyBlock
  | misplacedTerminator
  | unterminatedBlock
  | branchOutside
  | blockIndex (index : Int)
  | malformedDocument
  | incompatibleVersion
  | invalidVersion
  | versionLeadingZero
  | versionSegmentRange (digits : String)
  | outputFormat
  | missingFile (name : String)
  | isDirectory (verb name : String)
  | notDirectory (verb name : String)
  | fileExists (verb name : String)
  | nameTooLong (verb name : String)
  | invalidName (verb name : String)
  | unsupportedType (name : String)
  | usage (text : String)
  /-- The operation has no meaning on this value: an absent scope, an absent
  branch target, a missing parameter list, an unnamed scope kind or settings in which
  something that is no value stands for one. -/
  | undefined
deriving DecidableEq, Repr

/-- The text a cause adds to a message. Faults found by the JSON and TOML readers
are told apart by kind alone and add none. -/
def Cause.text? : Cause → Option String
  | .malformedTree => some "malformed syntax tree"
  | .unsupportedConstruct => some "unsupported construct"
  | .nestedTooDeep => some "syntax tree nested too deep"
  | .untypedNode => some "node without type"
  | .expected wanted found => some ("expected " ++ wanted ++ ", got " ++ found)
  | .unexpected found => some ("unexpected " ++ found)
  | .jsonSyntax | .jsonType | .jsonNumber | .tomlText => none
  | .duplicateId => some "duplicate destination id"
  | .invalidId => some "invalid destination id"
  | .emptyBlock => some "empty block"
  | .misplacedTerminator => some "misplaced terminator"
  | .unterminatedBlock => some "block not terminated"
  | .branchOutside => some "branch out of function"
  | .blockIndex index => some ("index " ++ toString index)
  | .malformedDocument => some "malformed document"
  | .incompatibleVersion => some "incompatible document version"
  | .invalidVersion => some "Invalid Semantic Version"
  | .versionLeadingZero => some "Version segment starts with 0"
  | .versionSegmentRange digits =>
      some ("Error parsing version segment: strconv.ParseUint: parsing \"" ++ digits ++
        "\": value out of range")
  | .outputFormat => some "unsupported output format"
  | .missingFile name => some ("open " ++ name ++ ": no such file or directory")
  | .isDirectory verb name => some (verb ++ " " ++ name ++ ": is a directory")
  | .notDirectory verb name => some (verb ++ " " ++ name ++ ": not a directory")
  | .fileExists verb name => some (verb ++ " " ++ name ++ ": file exists")
  | .nameTooLong verb name => some (verb ++ " " ++ name ++ ": file name too long")
  | .invalidName verb name => some (verb ++ " " ++ name ++ ": invalid argument")
  | .unsupportedType name => some ("unsupported type: " ++ name)
  | .usage text => some text
  | .undefined => none

structure Failure where
  context : List String := []
  cause : Cause
deriving DecidableEq, Repr

namespace Failure

/-- An empty context leaves no trace in the message. -/
def within (context : String) (failure : Failure) : Failure :=
  if context.isEmpty then failure else { failure with context := context :: failure.context }

def message (failure : Failure) : String :=
  ": ".intercalate (failure.context ++ failure.cause.text?.toList)

end Failure

abbrev Outcome := Except Failure

namespace Outcome

def fail {α : Type} (cause : Cause) : Outcome α := .error { cause }

def failAt {α : Type} (context : List String) (cause : Cause) : Outcome α :=
  .error { context, cause }

def within {α : Type} (context : String) (outcome : Outcome α) : Outcome α :=
  outcome.mapError (Failure.within context)

end Outcome

end ScopeIR
