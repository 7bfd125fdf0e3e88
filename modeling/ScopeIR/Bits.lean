import ScopeIR.Wire

/-! Dense sets of small natural numbers, one bit for each in words of 64 bits. -/
namespace ScopeIR

structure Bits where
  words : List (BitVec 64) := []
deriving DecidableEq, Repr

namespace Bits

/-- Room for the numbers below a size, and for those of two words in any case. -/
def ofSize (size : Int) : Bits := ⟨List.replicate (max 2 ((size + 63) / 64).toNat) 0⟩

def wordOf (s : Bits) (key : Nat) : BitVec 64 := s.words.getD (key / 64) 0

def mem (s : Bits) (key : Nat) : Bool := (s.wordOf key).getLsbD (key % 64)

/-- Negative keys are in no set. -/
def has (s : Bits) (key : Int) : Bool := decide (0 ≤ key) && s.mem key.toNat

def grow (s : Bits) (key : Nat) : Bits :=
  ⟨s.words ++ List.replicate (key / 64 + 1 - s.words.length) 0⟩

def setWord (s : Bits) (key : Nat) (f : BitVec 64 → BitVec 64) : Bits :=
  ⟨s.words.modify (key / 64) f⟩

/-- The set with a key, and whether it was absent before. Negative keys are never added. -/
def add (s : Bits) (key : Int) : Bool × Bits :=
  if key < 0 then (false, s)
  else
    let grown := s.grow key.toNat
    if s.has key then (false, grown)
    else (true, grown.setWord key.toNat (· ||| BitVec.twoPow 64 (key.toNat % 64)))

def clearBit (word : BitVec 64) (bit : Nat) : BitVec 64 := word &&& ~~~(BitVec.twoPow 64 bit)

def remove (s : Bits) (key : Int) : Bits :=
  if key < 0 then s else s.setWord key.toNat (clearBit · (key.toNat % 64))

def size (s : Bits) : Nat := s.words.foldl (fun n word => n + word.cpop.toNat) 0

theorem getLsbD_clearBit (word : BitVec 64) (bit i : Nat) :
    (clearBit word bit).getLsbD i = (word.getLsbD i && decide (i ≠ bit)) := by
  by_cases hi : i < 64
  · by_cases he : bit = i
    · simp [clearBit, he, hi]
    · simp [clearBit, hi, Ne.symm he]
  · simp [BitVec.getLsbD_of_ge _ _ (Nat.le_of_not_lt hi)]

/-- A word gets smaller by its lowest bit. -/
theorem toNat_clearBit_lt {word : BitVec 64} (h : word ≠ 0) :
    (clearBit word word.ctz.toNat).toNat < word.toNat := by
  have hle : (clearBit word word.ctz.toNat).toNat ≤ word.toNat := by
    rw [clearBit, BitVec.toNat_and]
    exact Nat.and_le_left
  refine Nat.lt_of_le_of_ne hle fun he => ?_
  have hbit := getLsbD_clearBit word word.ctz.toNat word.ctz.toNat
  rw [BitVec.eq_of_toNat_eq he, BitVec.getLsbD_true_ctz_of_ne_zero h] at hbit
  simp at hbit

/-- Hands the keys of a word to a visitor until it says to stop, the lowest first; the first
bit of the word stands for `base`. The answer says whether the visitor never stopped. -/
def visitWord {σ : Type} (visit : σ → Nat → σ × Bool) (base : Nat) (state : σ)
    (word : BitVec 64) : σ × Bool :=
  if word = 0 then (state, true)
  else
    let bit := word.ctz.toNat
    let next := visit state (base + bit)
    if next.2 then visitWord visit base next.1 (clearBit word bit) else next
termination_by word.toNat
decreasing_by exact toNat_clearBit_lt ‹_›

def visitWords {σ : Type} (visit : σ → Nat → σ × Bool) (base : Nat) (state : σ) :
    List (BitVec 64) → σ × Bool
  | [] => (state, true)
  | word :: rest =>
    let next := visitWord visit base state word
    if next.2 then visitWords visit (base + 64) next.1 rest else next

def range {σ : Type} (s : Bits) (visit : σ → Nat → σ × Bool) (state : σ) : σ :=
  (visitWords visit 0 state s.words).1

def toList (s : Bits) : List Nat := (s.range (fun keys key => (key :: keys, true)) []).reverse

def wire (s : Bits) : Wire.Bytes := Wire.openArray (s.toList.map Int.ofNat)

end Bits

end ScopeIR
