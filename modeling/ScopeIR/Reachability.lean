import ScopeIR.Code.Function
import ScopeIR.Proofs.Bits

/-! Blocks that control can reach. Positions wait in a heap until their branches are followed;
a dense set holds those that were ever put there, so that each is put there once. -/
namespace ScopeIR

/-- A heap gives back what was pushed, each item as often as it was, in an order of its own. -/
structure Heap (α : Type) where
  State : Type
  held : State → List α
  empty : State
  push : α → State → State
  pop? : State → Option (α × State)
  held_empty : held empty = []
  held_push (item : α) (queue : State) : (held (push item queue)).Perm (item :: held queue)
  held_of_pop? {queue rest : State} {item : α} (h : pop? queue = some (item, rest)) :
    (held queue).Perm (item :: held rest)
  held_of_pop?_none {queue : State} (h : pop? queue = none) : held queue = []

namespace Heap

variable {α : Type}

def insert (less : α → α → Bool) (item : α) : List α → List α
  | [] => [item]
  | other :: rest =>
    if less other item then other :: insert less item rest else item :: other :: rest

theorem insert_perm (less : α → α → Bool) (item : α) (items : List α) :
    (insert less item items).Perm (item :: items) := by
  induction items with
  | nil => exact .refl _
  | cons other rest ih =>
    rw [insert]
    split
    · exact (ih.cons other).trans (.swap item other rest)
    · exact .refl _

def least (less : α → α → Bool) : Heap α where
  State := List α
  held := id
  empty := []
  push := insert less
  pop?
    | [] => none
    | item :: rest => some (item, rest)
  held_empty := rfl
  held_push := insert_perm less
  held_of_pop? {queue rest item} h := by
    cases queue with
    | nil => cases h
    | cons => cases h; exact .refl _
  held_of_pop?_none {queue} h := by
    cases queue with
    | nil => rfl
    | cons => cases h

end Heap

def Instruction.label? : Instruction → Option Int
  | .branch _ (some target) => some target.index
  | _ => none

def Block.label? (block : Block) : Option Int := block.terminator?.bind Instruction.label?

structure Search {n : Nat} (heap : Heap (Fin n)) where
  seen : Bits
  queue : heap.State

namespace Search

variable {n : Nat} {heap : Heap (Fin n)} (label? : Fin n → Option Int)

theorem inside {seen : Bits} {label : Int} (h : label < n) (added : (seen.add label).1) :
    label.toNat < n := by
  rw [Bits.add_fst, Bool.and_eq_true, decide_eq_true_eq] at added
  omega

/-- Follows the label of a position that was taken from the queue, with the rest of the queue.
Labels past the positions lead nowhere, and negative ones are never added. -/
def follow (s : Search heap) (position : Fin n) (rest : heap.State) : Search heap :=
  match label? position with
  | none => ⟨s.seen, rest⟩
  | some label =>
    if h : label < n then
      if added : (s.seen.add label).1 then
        ⟨(s.seen.add label).2, heap.push ⟨label.toNat, inside h added⟩ rest⟩
      else ⟨(s.seen.add label).2, rest⟩
    else ⟨s.seen, rest⟩

def step? (s : Search heap) : Option (Search heap) :=
  (heap.pop? s.queue).map fun popped => s.follow label? popped.1 popped.2

def unseen (s : Search heap) : List Nat := (List.range n).filter fun i => !s.seen.mem i

/-- What is left to do: every step sees a position, or takes one from the queue for good. -/
def work (s : Search heap) : Nat := s.unseen.length + (heap.held s.queue).length

variable {label?} {s s' : Search heap}

theorem exists_of_step? (h : s.step? label? = some s') :
    ∃ position rest, (heap.held s.queue).Perm (position :: heap.held rest) ∧
      s' = s.follow label? position rest := by
  obtain ⟨⟨position, rest⟩, hpop, rfl⟩ := Option.map_eq_some_iff.mp h
  exact ⟨position, rest, heap.held_of_pop? hpop, rfl⟩

/-- A position is left out only if the label leads nowhere or to one that was seen. -/
theorem follow_cases (label? : Fin n → Option Int) (s : Search heap) (position : Fin n)
    (rest : heap.State) :
    (∃ next : Fin n, label? position = some (next : Int) ∧ s.seen.mem next = false ∧
      (∀ i : Nat, (s.follow label? position rest).seen.mem i =
        (s.seen.mem i || decide (i = next))) ∧
      (s.follow label? position rest).queue = heap.push next rest) ∨
    (∀ next : Fin n, label? position = some (next : Int) → s.seen.mem next) ∧
      (∀ i : Nat, (s.follow label? position rest).seen.mem i = s.seen.mem i) ∧
      (s.follow label? position rest).queue = rest := by
  have hadd : ∀ (label : Int) (i : Nat), (s.seen.add label).2.mem i =
      (s.seen.mem i || decide (0 ≤ label ∧ (i : Int) = label)) := by
    intro label i
    rw [← Bits.has_natCast, Bits.has_add, Bits.has_natCast]
  unfold follow
  split
  · rename_i hl
    exact .inr ⟨fun next h => by simp [hl] at h, fun _ => rfl, rfl⟩
  · rename_i label hl
    split
    · rename_i hlt
      split
      · rename_i added
        have hin := inside hlt added
        rw [Bits.add_fst, Bool.and_eq_true, decide_eq_true_eq] at added
        obtain ⟨next, rfl⟩ := Int.eq_ofNat_of_zero_le added.1
        refine .inl ⟨⟨next, hin⟩, hl, by simpa using added.2, fun i => ?_, rfl⟩
        rw [hadd]
        simp only [Int.natCast_nonneg, Int.ofNat_inj, true_and]
      · rename_i added
        have hseen : ∀ next : Fin n, label = next → s.seen.mem next := by
          rintro next rfl
          simpa [Bits.add_fst] using added
        refine .inr ⟨fun next h => hseen next (Option.some.inj (hl.symm.trans h)), fun i => ?_, rfl⟩
        rw [hadd, Bool.or_eq_left_iff_imp, decide_eq_true_eq]
        rintro ⟨-, rfl⟩
        exact hseen ⟨i, Int.ofNat_lt.mp hlt⟩ rfl
    · rename_i hlt
      refine .inr ⟨fun next h => ?_, fun _ => rfl, rfl⟩
      rw [hl, Option.some.injEq] at h
      exact absurd (Int.ofNat_lt.mpr next.isLt) (h ▸ hlt)

theorem work_lt (h : s.step? label? = some s') : s'.work < s.work := by
  obtain ⟨position, rest, hheld, rfl⟩ := exists_of_step? h
  have hlength := hheld.length_eq
  rw [List.length_cons] at hlength
  unfold work unseen
  rcases s.follow_cases label? position rest with
    ⟨next, -, hnew, hmem, hqueue⟩ | ⟨-, hmem, hqueue⟩
  · have hpush := (heap.held_push next rest).length_eq
    rw [List.length_cons] at hpush
    have hunseen : ((List.range n).filter fun i => !(s.follow label? position rest).seen.mem i) =
        ((List.range n).filter fun i => !s.seen.mem i).filter (· != next.val) := by
      rw [List.filter_filter]
      exact List.filter_congr fun i _ => by rw [hmem, Bool.not_or, Bool.and_comm]; rfl
    have hless : (((List.range n).filter fun i => !s.seen.mem i).filter (· != next.val)).length <
        ((List.range n).filter fun i => !s.seen.mem i).length :=
      List.length_filter_lt_length_iff_exists.mpr ⟨next, by simp [hnew], by simp⟩
    rw [hunseen, hqueue]
    omega
  · simp only [hmem, hqueue]
    omega

def run (label? : Fin n → Option Int) (s : Search heap) : Bits :=
  match _h : s.step? label? with
  | some s' => s'.run label?
  | none => s.seen
termination_by s.work
decreasing_by exact work_lt ‹_›

end Search

/-- Positions that no path from the first one leads to, ascending. Each position leads to the
one that it is labelled with. -/
def unvisited {n : Nat} (heap : Heap (Fin n)) (label? : Fin n → Option Int) : List Nat :=
  if h : 0 < n then
    let start : Search heap := ⟨((Bits.ofSize n).add 0).2, heap.push ⟨0, h⟩ heap.empty⟩
    let seen := start.run label?
    (List.range n).filter fun i => !seen.has i
  else []

namespace Function

def unreachableBy (f : Function) (heap : Heap (Fin f.blocks.length)) : List Nat :=
  unvisited heap fun position => (f.blocks.get position).label?

def unreachable (f : Function) : List Nat := f.unreachableBy (.least fun i j => i < j)

end Function

end ScopeIR
