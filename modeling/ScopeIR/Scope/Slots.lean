/-! Items by id, kept in a list with gaps where ids have no item. -/
namespace ScopeIR

/-- Each item stands at the place of its own id. -/
@[ext] structure Slots {α : Type} (idOf : α → Int) where
  items : List (Option α)
  placed : ∀ (i : Nat) (a : α), items[i]? = some (some a) → idOf a = i
deriving Repr

namespace Slots

variable {α : Type} {idOf : α → Int}

def empty : Slots idOf where
  items := []
  placed := by
    intro i a h
    rw [List.getElem?_nil] at h
    cases h

theorem getElem?_rightpad_join (items : List (Option α)) (n i : Nat) :
    (items.rightpad n none)[i]?.join = items[i]?.join := by
  rw [List.rightpad, List.getElem?_append]
  split
  · rfl
  · rename_i h
    rw [List.getElem?_replicate, List.getElem?_eq_none (Nat.le_of_not_lt h)]
    split <;> rfl

/-- Puts an item at the place of its id, behind as many gaps as that takes. There are no places
for ids below zero. -/
def put (slots : Slots idOf) (a : α) : Slots idOf :=
  if h : idOf a < 0 then slots
  else {
    items := (slots.items.rightpad ((idOf a).toNat + 1) none).set (idOf a).toNat (some a)
    placed := by
      intro i b hb
      rw [List.getElem?_set] at hb
      split at hb
      · split at hb
        · cases hb
          omega
        · cases hb
      · apply slots.placed i b
        have hjoin := getElem?_rightpad_join slots.items ((idOf a).toNat + 1) i
        rw [hb] at hjoin
        exact Option.join_eq_some_iff.mp hjoin.symm }

def get? (slots : Slots idOf) (id : Int) : Option α :=
  if id < 0 then none else slots.items[id.toNat]?.join

def modify (slots : Slots idOf) (id : Int) (f : α → α) : Slots idOf :=
  match slots.get? id with
  | some a => slots.put (f a)
  | none => slots

def toList (slots : Slots idOf) : List α := slots.items.filterMap id

variable (slots : Slots idOf)

theorem get?_empty (x : Int) : (empty : Slots idOf).get? x = none := by
  unfold get?
  split <;> rfl

theorem idOf_of_get? {x : Int} {a : α} (h : slots.get? x = some a) : idOf a = x := by
  unfold get? at h
  split at h
  · cases h
  · have hplaced := slots.placed x.toNat a (Option.join_eq_some_iff.mp h)
    omega

theorem nonneg_of_get? {x : Int} {a : α} (h : slots.get? x = some a) : 0 ≤ x := by
  unfold get? at h
  split at h
  · cases h
  · omega

theorem get?_put {a : α} (ha : 0 ≤ idOf a) (x : Int) :
    (slots.put a).get? x = if x = idOf a then some a else slots.get? x := by
  have hput : (slots.put a).items =
      (slots.items.rightpad ((idOf a).toNat + 1) none).set (idOf a).toNat (some a) := by
    rw [put, dif_neg (Int.not_lt.mpr ha)]
  have hlength : (idOf a).toNat < (slots.items.rightpad ((idOf a).toNat + 1) none).length := by
    rw [List.rightpad, List.length_append, List.length_replicate]
    omega
  unfold get?
  rw [hput, List.getElem?_set]
  by_cases hx : x = idOf a
  · subst hx
    simp only [if_pos hlength, if_neg (Int.not_lt.mpr ha), if_true, Option.join_some]
  · rw [if_neg hx]
    split
    · rfl
    · rw [if_neg (by omega), getElem?_rightpad_join]

theorem items_put_of_length_le {a : α} (h : (slots.items.length : Int) ≤ idOf a) :
    (slots.put a).items = slots.items ++
      (List.replicate ((idOf a).toNat - slots.items.length) none ++ [some a]) := by
  have hsplit : (idOf a).toNat + 1 - slots.items.length =
      (idOf a).toNat - slots.items.length + 1 := by omega
  rw [put, dif_neg (by omega)]
  dsimp only
  rw [List.rightpad, hsplit, List.replicate_succ', List.set_append_right _ _ (by omega),
    List.set_append_right _ _ (Nat.le_of_eq List.length_replicate), List.length_replicate,
    Nat.sub_self]
  rfl

theorem get?_modify {f : α → α} (hf : ∀ a, idOf (f a) = idOf a) (i x : Int) :
    (slots.modify i f).get? x = (slots.get? x).map fun a => if idOf a = i then f a else a := by
  unfold modify
  cases hi : slots.get? i with
  | none =>
    cases hx : slots.get? x with
    | none => rfl
    | some a =>
      have hne : idOf a ≠ i := by
        intro heq
        rw [← heq, slots.idOf_of_get? hx, hx] at hi
        cases hi
      simp [hne]
  | some a =>
    have hid := slots.idOf_of_get? hi
    have hnonneg : 0 ≤ idOf (f a) := by
      rw [hf, hid]
      exact slots.nonneg_of_get? hi
    dsimp only
    rw [slots.get?_put hnonneg, hf, hid]
    by_cases hx : x = i
    · subst hx
      rw [if_pos rfl, hi, Option.map_some, if_pos hid]
    · rw [if_neg hx]
      cases hb : slots.get? x with
      | none => rfl
      | some b =>
        rw [Option.map_some, if_neg]
        rw [slots.idOf_of_get? hb]
        exact hx

end Slots

end ScopeIR
