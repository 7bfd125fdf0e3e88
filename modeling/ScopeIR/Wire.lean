import ScopeIR.Code.Value
import ScopeIR.Text.Quoted

/-! A compact binary form of values and sets. A head byte holds a tag in its upper three
bits and a small number below it; larger numbers follow in 1, 2, 4 or 8 bytes. -/
namespace ScopeIR.Wire

abbrev Bytes := List UInt8

def intTag : Nat := 0x00
def negativeTag : Nat := 0x20
def stringTag : Nat := 0x60
def arrayTag : Nat := 0x80
def mapTag : Nat := 0xA0

def bigEndian : Nat → Nat → Bytes
  | 0, _ => []
  | width + 1, n => bigEndian width (n / 256) ++ [UInt8.ofNat (n % 256)]

def head (tag n : Nat) : Bytes :=
  if n < 24 then [UInt8.ofNat (tag + n)]
  else if n < pow2 8 then UInt8.ofNat (tag + 24) :: bigEndian 1 n
  else if n < pow2 16 then UInt8.ofNat (tag + 25) :: bigEndian 2 n
  else if n < pow2 32 then UInt8.ofNat (tag + 26) :: bigEndian 4 n
  else UInt8.ofNat (tag + 27) :: bigEndian 8 n

/-- A negative number is written as one more than its magnitude. -/
def int (n : Int) : Bytes :=
  if 0 ≤ n then head intTag n.toNat else head negativeTag (n.natAbs + 1)

def string (text : String) : Bytes :=
  head stringTag text.utf8ByteSize ++ text.toUTF8.toList

def openArray (items : List Int) : Bytes :=
  UInt8.ofNat (arrayTag + 31) :: items.flatMap int ++ [0xFF]

def hex (bytes : Bytes) : String :=
  String.ofList (bytes.flatMap fun byte => Text.hexDigits 2 byte.toNat)

def value : Value → Bytes
  | .ref id => head mapTag 1 ++ string "ref" ++ int id
  | .const c => head mapTag 2 ++ string "const" ++ int c.id ++ string "kind" ++ string c.type.kind
  | .scope id scope => head mapTag 2 ++ string "ref" ++ int id ++ string "scope" ++ int scope
  | .func id link =>
    let name := match link with
      | some link => link.definition.name
      | none => ""
    head mapTag 2 ++ string "ref" ++ int id ++ string "func" ++ string name

end ScopeIR.Wire
