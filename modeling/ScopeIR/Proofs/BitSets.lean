import Mathlib.Data.Finset.Sort
import ScopeIR.Proofs.Bits

/-! Dense sets are finite sets of natural numbers: whatever is added and removed, they answer as
such a set does. The walk over their words goes through the keys in ascending order. -/
namespace ScopeIR.Bits

/-- Hands keys to a visitor in their order until it says to stop, and tells whether it never
did. -/
def visitList {σ : Type} (visit : σ → Nat → σ × Bool) (state : σ) : List Nat → σ × Bool
  | [] => (state, true)
  | key :: rest =>
    let next := visit state key
    if next.2 then visitList visit next.1 rest else next

variable {σ : Type} (visit : σ → Nat → σ × Bool) (state : σ)

theorem visitList_append (keys more : List Nat) :
    visitList visit state (keys ++ more) =
      if (visitList visit state keys).2 then visitList visit (visitList visit state keys).1 more
      else visitList visit state keys := by
  induction keys generalizing state with
  | nil => rfl
  | cons key rest ih =>
    simp only [List.cons_append, visitList]
    by_cases hnext : (visit state key).2
    · simp [hnext, ih]
    · simp [hnext]

def wordKeys (base : Nat) (word : BitVec 64) : List Nat :=
  ((List.range 64).filter word.getLsbD).map (base + ·)

variable {base key : Nat} {word : BitVec 64}

theorem mem_wordKeys : key ∈ wordKeys base word ↔ base ≤ key ∧ word.getLsbD (key - base) := by
  simp only [wordKeys, List.mem_map, List.mem_filter, List.mem_range]
  constructor
  · rintro ⟨bit, ⟨-, hbit⟩, rfl⟩
    simpa using hbit
  · rintro ⟨hle, hbit⟩
    exact ⟨key - base, ⟨BitVec.lt_of_getLsbD hbit, hbit⟩, Nat.add_sub_cancel' hle⟩

theorem lt_of_mem_wordKeys (h : key ∈ wordKeys base word) : key < base + 64 := by
  have hbit := BitVec.lt_of_getLsbD (mem_wordKeys.mp h).2
  omega

theorem pairwise_wordKeys (base : Nat) (word : BitVec 64) :
    (wordKeys base word).Pairwise (· < ·) :=
  List.pairwise_map.mpr
    ((List.pairwise_lt_range.filter _).imp fun h => Nat.add_lt_add_left h base)

theorem le_of_mem_wordKeys (h : key ∈ wordKeys base word) : base + word.ctz.toNat ≤ key := by
  obtain ⟨hle, hbit⟩ := mem_wordKeys.mp h
  suffices word.ctz.toNat ≤ key - base by omega
  refine Nat.le_of_not_lt fun hlt => ?_
  rw [BitVec.getLsbD_false_of_lt_ctz hlt] at hbit
  cases hbit

theorem wordKeys_of_ne_zero (h : word ≠ 0) :
    wordKeys base word =
      (base + word.ctz.toNat) :: wordKeys base (clearBit word word.ctz.toNat) := by
  have hmem : ∀ key, key ∈ wordKeys base (clearBit word word.ctz.toNat) ↔
      key ∈ wordKeys base word ∧ key ≠ base + word.ctz.toNat := by
    intro key
    simp only [mem_wordKeys, getLsbD_clearBit, Bool.and_eq_true, decide_eq_true_eq, and_assoc]
    refine and_congr_right fun hle => and_congr_right fun _ => not_congr ?_
    omega
  have hlowest : base + word.ctz.toNat ∈ wordKeys base word := by
    rw [mem_wordKeys, Nat.add_sub_cancel_left]
    exact ⟨Nat.le_add_right _ _, BitVec.getLsbD_true_ctz_of_ne_zero h⟩
  -- Two ascending lists with the same members are the same.
  refine (pairwise_wordKeys base word).eq_of_mem_iff
    (List.pairwise_cons.mpr ⟨fun key hkey => ?_, pairwise_wordKeys base _⟩) fun key => ?_
  · obtain ⟨hkey, hne⟩ := (hmem key).mp hkey
    exact Nat.lt_of_le_of_ne (le_of_mem_wordKeys hkey) (Ne.symm hne)
  · rw [List.mem_cons, hmem]
    by_cases he : key = base + word.ctz.toNat
    · simp [he, hlowest]
    · simp [he]

@[simp] theorem wordKeys_zero (base : Nat) : wordKeys base 0#64 = [] :=
  List.eq_nil_iff_forall_not_mem.mpr fun key h => by simpa using (mem_wordKeys.mp h).2

theorem visitWord_eq (base : Nat) (word : BitVec 64) :
    visitWord visit base state word = visitList visit state (wordKeys base word) := by
  induction state, word using visitWord.induct visit base with
  | case1 state => simp [visitWord, visitList]
  | case2 state word h bit next hnext ih =>
    rw [visitWord, if_neg h, wordKeys_of_ne_zero h, visitList]
    simp only [bit, next] at hnext ih
    simp only [hnext, if_true, ih]
  | case3 state word h bit next hnext =>
    rw [visitWord, if_neg h, wordKeys_of_ne_zero h, visitList]
    simp only [bit, next] at hnext
    simp only [hnext, if_false, Bool.false_eq_true]

theorem length_wordKeys (base : Nat) (word : BitVec 64) :
    (wordKeys base word).length = word.cpop.toNat := by
  have hcount : ∀ n, ((List.range n).filter word.getLsbD).length = word.cpopNatRec n 0 := by
    intro n
    induction n with
    | zero => simp
    | succ n ih =>
      rw [BitVec.cpopNatRec_succ, BitVec.cpopNatRec_eq, List.range_succ, List.filter_append,
        List.length_append, ih]
      cases hbit : word.getLsbD n <;> simp [hbit]
  rw [wordKeys, List.length_map, BitVec.toNat_cpop, hcount]

def wordsKeys (base : Nat) : List (BitVec 64) → List Nat
  | [] => []
  | word :: rest => wordKeys base word ++ wordsKeys (base + 64) rest

theorem mem_wordsKeys {words : List (BitVec 64)} : key ∈ wordsKeys base words ↔
    base ≤ key ∧ (words.getD ((key - base) / 64) 0).getLsbD ((key - base) % 64) := by
  induction words generalizing base with
  | nil => simp [wordsKeys]
  | cons word rest ih =>
    rw [wordsKeys, List.mem_append, mem_wordKeys, ih]
    rcases Nat.lt_or_ge (key - base) 64 with h | h
    · rw [Nat.div_eq_of_lt h, Nat.mod_eq_of_lt h, List.getD_cons_zero]
      have hnext : ¬ base + 64 ≤ key := by omega
      simp [hnext]
    · obtain ⟨hdiv, hmod⟩ : (key - base) / 64 = (key - (base + 64)) / 64 + 1 ∧
          (key - base) % 64 = (key - (base + 64)) % 64 := by omega
      have hle : base ≤ key ∧ base + 64 ≤ key := by omega
      rw [hdiv, hmod, List.getD_cons_succ, BitVec.getLsbD_of_ge word _ h]
      simp [hle]

theorem pairwise_wordsKeys (base : Nat) (words : List (BitVec 64)) :
    (wordsKeys base words).Pairwise (· < ·) := by
  induction words generalizing base with
  | nil => exact .nil
  | cons word rest ih =>
    refine List.pairwise_append.mpr ⟨pairwise_wordKeys base word, ih _, fun key hkey other ho => ?_⟩
    exact Nat.lt_of_lt_of_le (lt_of_mem_wordKeys hkey) (mem_wordsKeys.mp ho).1

theorem visitWords_eq (base : Nat) (words : List (BitVec 64)) :
    visitWords visit base state words = visitList visit state (wordsKeys base words) := by
  induction words generalizing base state with
  | nil => rfl
  | cons word rest ih =>
    rw [visitWords, wordsKeys, visitList_append]
    simp only [visitWord_eq, ih]

theorem foldl_cpop (words : List (BitVec 64)) (base n : Nat) :
    words.foldl (fun n word => n + word.cpop.toNat) n = n + (wordsKeys base words).length := by
  induction words generalizing base n with
  | nil => rfl
  | cons word rest ih =>
    rw [List.foldl_cons, ih (base + 64), wordsKeys, List.length_append, length_wordKeys]
    exact Nat.add_assoc _ _ _

/-- The set has exactly these keys. -/
def Represents (s : Bits) (keys : Finset Nat) : Prop := ∀ key, s.mem key = decide (key ∈ keys)

namespace Represents

variable {s : Bits} {keys : Finset Nat}

theorem has (h : s.Represents keys) (k : Int) : s.has k = decide (0 ≤ k ∧ k.toNat ∈ keys) := by
  simp only [Bits.has, h k.toNat, Bool.decide_and]

theorem wordsKeys_eq (h : s.Represents keys) : wordsKeys 0 s.words = keys.sort (· ≤ ·) := by
  refine (pairwise_wordsKeys 0 s.words).eq_of_mem_iff keys.sortedLT_sort.pairwise fun key => ?_
  have hmem : s.mem key ↔ key ∈ keys := by simp [h key]
  rw [mem_wordsKeys, Finset.mem_sort, ← hmem]
  simp [mem, wordOf]

theorem size_eq (h : s.Represents keys) : s.size = keys.card := by
  rw [size, foldl_cpop s.words 0, Nat.zero_add, h.wordsKeys_eq, Finset.length_sort]

theorem range_eq (h : s.Represents keys) :
    s.range visit state = (visitList visit state (keys.sort (· ≤ ·))).1 := by
  rw [range, visitWords_eq, h.wordsKeys_eq]

end Represents

def start : Option Int → Bits
  | none => {}
  | some size => .ofSize size

theorem represents_start (size? : Option Int) : (start size?).Represents ∅ := by
  intro key
  cases size? with
  | none => simp [start, mem, wordOf]
  | some size =>
    have hkey := has_ofSize size key
    rw [has_natCast] at hkey
    simp [start, hkey]

inductive Request where
  | add (key : Int)
  | remove (key : Int)
  | has (key : Int)
deriving DecidableEq, Repr

def serve (s : Bits) : Request → Option Bool × Bits
  | .add key => (some (s.add key).1, (s.add key).2)
  | .remove key => (none, s.remove key)
  | .has key => (some (s.has key), s)

def serveAll (s : Bits) : List Request → List (Option Bool) × Bits
  | [] => ([], s)
  | request :: rest =>
    let served := (s.serve request).2.serveAll rest
    ((s.serve request).1 :: served.1, served.2)

namespace Request

/-- The answer that a finite set gives: a key is added if it is natural and absent. -/
def answer (keys : Finset Nat) : Request → Option Bool
  | .add key => some (decide (0 ≤ key ∧ key.toNat ∉ keys))
  | .remove _ => none
  | .has key => some (decide (0 ≤ key ∧ key.toNat ∈ keys))

def apply (keys : Finset Nat) : Request → Finset Nat
  | .add key => if 0 ≤ key then insert key.toNat keys else keys
  | .remove key => if 0 ≤ key then keys.erase key.toNat else keys
  | .has _ => keys

def answers (keys : Finset Nat) : List Request → List (Option Bool)
  | [] => []
  | request :: rest => request.answer keys :: answers (request.apply keys) rest

end Request

section requests

variable {s : Bits} {keys : Finset Nat}

theorem Represents.answer (h : s.Represents keys) (request : Request) :
    (s.serve request).1 = request.answer keys := by
  cases request with
  | add k =>
    simp only [serve, Request.answer, add_fst, h.has]
    by_cases hk : 0 ≤ k <;> simp [hk]
  | remove k => rfl
  | has k => simp only [serve, Request.answer, h.has]

theorem Represents.apply (h : s.Represents keys) (request : Request) :
    (s.serve request).2.Represents (request.apply keys) := by
  intro key
  rw [← has_natCast]
  cases request with
  | add k =>
    rw [serve, has_add, h.has, Request.apply]
    rcases Int.lt_or_le k 0 with hk | hk
    · simp [Int.not_le.mpr hk]
    · obtain ⟨k, rfl⟩ := Int.eq_ofNat_of_zero_le hk
      simp only [Int.natCast_nonneg, Int.toNat_natCast, true_and, Int.ofNat_inj, Bool.or_comm,
        if_true, Finset.mem_insert, Bool.decide_or]
  | remove k =>
    rw [serve, has_remove, h.has, Request.apply]
    rcases Int.lt_or_le k 0 with hk | hk
    · have hne : (key : Int) ≠ k := by omega
      simp [Int.not_le.mpr hk, hne]
    · obtain ⟨k, rfl⟩ := Int.eq_ofNat_of_zero_le hk
      simp only [Int.natCast_nonneg, Int.toNat_natCast, true_and, ne_eq, Int.ofNat_inj, decide_not,
        Bool.and_comm, if_true, Finset.mem_erase, Bool.decide_and]
  | has k => rw [serve, h.has, Request.apply]; simp

theorem Represents.serveAll (h : s.Represents keys) (requests : List Request) :
    (s.serveAll requests).1 = Request.answers keys requests ∧
      (s.serveAll requests).2.Represents (requests.foldl Request.apply keys) := by
  induction requests generalizing s keys with
  | nil => exact ⟨rfl, h⟩
  | cons request rest ih =>
    obtain ⟨hanswers, hafter⟩ := ih (h.apply request)
    exact ⟨congrArg₂ List.cons (h.answer request) hanswers, hafter⟩

end requests

/-- Whatever it starts with and is asked, a set gives the answers of a finite set that starts
empty. Then its size is the number of keys, and a visitor is handed the keys in ascending order
up to the first one at which it says to stop. -/
theorem serveAll_eq_finset (size? : Option Int) (requests : List Request) :
    let served := (start size?).serveAll requests
    let keys := requests.foldl Request.apply ∅
    served.1 = Request.answers ∅ requests ∧
      (∀ key, served.2.has key = decide (0 ≤ key ∧ key.toNat ∈ keys)) ∧
      served.2.size = keys.card ∧
      ∀ (σ : Type) (visit : σ → Nat → σ × Bool) (state : σ),
        served.2.range visit state = (visitList visit state (keys.sort (· ≤ ·))).1 := by
  obtain ⟨hanswers, hkeys⟩ := (represents_start size?).serveAll requests
  exact ⟨hanswers, hkeys.has, hkeys.size_eq, fun _ visit state => hkeys.range_eq visit state⟩

end ScopeIR.Bits
