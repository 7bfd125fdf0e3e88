import ScopeIR.Document.Writer
import ScopeIR.Json.Record
import ScopeIR.Proofs.JsonText
import ScopeIR.Proofs.Outcomes

/-! Records in JSON text. A record is written field by field, where some fields may be left
out, and each field is read from what was written for it. -/
namespace ScopeIR

/-- The fields that are not left out. -/
def present {α : Type} (slots : List (String × Option α)) : List (String × α) :=
  slots.flatMap fun slot => (slot.2.map (slot.1, ·)).toList

/-- Names that are told apart and that the reader does not fold. -/
def IsSchema (names : List String) : Prop :=
  names.Nodup ∧ ∀ name ∈ names, Json.foldName name = name

instance (names : List String) : Decidable (IsSchema names) :=
  inferInstanceAs (Decidable (_ ∧ _))

namespace Json

def folded (members : List (String × Json)) : List (String × Json) :=
  members.map fun (name, value) => (foldName name, value)

theorem readMembers_obj (members : List (String × Json)) :
    readMembers [.obj members] = .ok (folded members) := rfl

variable {room : Nat} {slots : List (String × Option Json)}

theorem historyOf_present (slots : List (String × Option Json)) (name : String) :
    historyOf (folded (present slots)) name =
      slots.flatMap fun slot => if foldName slot.1 = name then slot.2.toList else [] := by
  induction slots with
  | nil => rfl
  | cons slot slots ih =>
    have hsplit : historyOf (folded (present (slot :: slots))) name =
        historyOf (folded (slot.2.map (slot.1, ·)).toList) name ++
          historyOf (folded (present slots)) name := by
      simp [present, folded, historyOf]
    rw [hsplit, ih, List.flatMap_cons]
    congr 1
    cases slot.2 with
    | none => simp [folded, historyOf]
    | some j =>
      by_cases h : foldName slot.1 = name
      · simp [folded, historyOf, h]
      · simp [folded, historyOf, h]

/-- What was written for a field, and nothing else, is said about it. -/
theorem historyOf_mem (hs : IsSchema (slots.map (·.1))) {slot : String × Option Json}
    (h : slot ∈ slots) : historyOf (folded (present slots)) slot.1 = slot.2.toList := by
  rw [historyOf_present]
  obtain ⟨hnodup, hfold⟩ := hs
  induction slots with
  | nil => cases h
  | cons first slots ih =>
    rw [List.map_cons, List.nodup_cons] at hnodup
    rw [List.map_cons, List.forall_mem_cons] at hfold
    rw [List.flatMap_cons, hfold.1]
    rcases List.mem_cons.mp h with rfl | h
    · have hrest : (slots.flatMap fun other =>
          if foldName other.1 = slot.1 then other.2.toList else []) = [] := by
        refine List.flatMap_eq_nil_iff.mpr fun other hother => if_neg fun he => hnodup.1 ?_
        rw [← he, hfold.2 _ (List.mem_map_of_mem hother)]
        exact List.mem_map_of_mem hother
      rw [if_pos rfl, hrest, List.append_nil]
    · have hne : first.1 ≠ slot.1 := fun he => hnodup.1 (he ▸ List.mem_map_of_mem h)
      rw [if_neg hne, List.nil_append]
      exact ih h hnodup.2 hfold.2

end Json

namespace JsonText

open Json

variable {α : Type} {room : Nat} {t : JsonText} {read : History → Outcome α} {a : α}

/-- What is written for a field, if anything, is read as the value. -/
def Carries (room : Nat) (t : Option JsonText) (read : History → Outcome α) (a : α) : Prop :=
  ∃ j : Option Json, Option.Rel (Spells room) t j ∧ read j.toList = .ok a

def Writes (room : Nat) (t : JsonText) (read : History → Outcome α) (a : α) : Prop :=
  ∃ j, Spells room t j ∧ isNull j = false ∧ read [j] = .ok a

theorem Writes.carries (h : Writes room t read a) : Carries room (some t) read a := by
  obtain ⟨j, hj, -, hread⟩ := h
  exact ⟨some j, .some hj, hread⟩

theorem writes_string (room : Nat) (text : String) : Writes room (.string text) readString text :=
  ⟨.str text, spells_scalar (scans_quoted text) room, rfl, rfl⟩

theorem writes_int (room : Nat) {value : Int} (h : isInt64 value) :
    Writes room (.int value) readInt value := by
  refine ⟨.num (.ofInt value), spells_scalar (scans_int value) room, rfl, ?_⟩
  simp [readInt, readScalar, Numeral.int?_ofInt h]

theorem carries_optionalString (room : Nat) (text : String) :
    Carries room (if text.isEmpty then none else some (.string text)) readString text := by
  split
  · rename_i h
    rw [String.isEmpty_iff.mp h]
    exact ⟨none, .none, rfl⟩
  · exact (writes_string room text).carries

theorem carries_option {blank : α} (hb : read [] = .ok blank) {t : Option JsonText} {o : Option α}
    (h : Option.Rel (fun t a => Writes room t read a) t o) :
    Carries room t (readOption read) o := by
  cases h with
  | none =>
    refine ⟨none, .none, ?_⟩
    simp [readOption, hb]
  | some h =>
    obtain ⟨j, hj, hnull, hread⟩ := h
    have hruns : [j].splitOnP isNull = [[j]] := List.splitOnP_eq_singleton (by simpa using hnull)
    refine ⟨some j, .some hj, ?_⟩
    simp [readOption, hruns, hread]

theorem carries_optionalInt (room : Nat) {o : Option Int} (h : ∀ value ∈ o, isInt64 value) :
    Carries room (o.map .int) (readOption readInt) o := by
  refine carries_option (rfl : readInt [] = .ok 0) ?_
  cases o with
  | none => exact .none
  | some value => exact .some (writes_int room (h value rfl))

theorem addItems_nil (js : List Json) : addItems [] js = js.map ([·]) := by
  induction js with
  | nil => rfl
  | cons j js ih => rw [addItems, ih, List.map_cons]

theorem readList_arr {js : List Json} {as : List α}
    (h : List.Forall₂ (fun j a => read [j] = .ok a) js as) : readList read [.arr js] = .ok as := by
  have hitems : (js.map ([·])).mapM read = .ok as :=
    Outcome.mapM_eq_ok.mpr (List.forall₂_map_left_iff.mpr h)
  cases js with
  | nil =>
    cases h
    rfl
  | cons j js =>
    have hruns : [Json.arr (j :: js)].splitOnP (fun json => isNull json || isEmptyList json) =
        [[.arr (j :: js)]] := List.splitOnP_eq_singleton (by simp [isNull, isEmptyList])
    have hplaces : readPlaces read [.arr (j :: js)] = .ok as := by
      change ((addItems [] (j :: js)).mapM read >>= fun items =>
        pure (items.take (j :: js).length)) = .ok as
      rw [addItems_nil, hitems]
      exact congrArg Except.ok (List.take_of_length_le h.length_eq.ge)
    simp [readList, hruns, hplaces]

variable {ts : List JsonText} {as : List α}

theorem carries_list (h : List.Forall₂ (fun t a => Writes room t read a) ts as) :
    Carries (room + 1) (some (.list ts)) (readList read) as := by
  obtain ⟨js, hspells, hread⟩ : ∃ js, List.Forall₂ (Spells room) ts js ∧
      List.Forall₂ (fun j a => read [j] = .ok a) js as := by
    induction h with
    | nil => exact ⟨[], .nil, .nil⟩
    | cons h _ ih =>
      obtain ⟨j, hj, -, hread⟩ := h
      obtain ⟨js, hspells, hreads⟩ := ih
      exact ⟨j :: js, .cons hj hspells, .cons hread hreads⟩
  exact ⟨some (.arr js), .some (spells_list hspells), readList_arr hread⟩

theorem carries_listOrNull (h : List.Forall₂ (fun t a => Writes room t read a) ts as) :
    Carries (room + 1) (some (Document.listOrNull ts)) (readList read) as := by
  cases h with
  | nil => exact ⟨some .null, .some (spells_scalar scans_null _), rfl⟩
  | cons h hs => exact carries_list (.cons h hs)

theorem carries_optionalList (h : List.Forall₂ (fun t a => Writes room t read a) ts as) :
    Carries (room + 1) (if ts.isEmpty then none else some (.list ts)) (readList read) as := by
  cases h with
  | nil => exact ⟨none, .none, rfl⟩
  | cons h hs => exact carries_list (.cons h hs)

abbrev Reading := String × (History → Prop)

def reads (name : String) (read : History → Outcome α) (a : α) : Reading :=
  (name, fun history => read history = .ok a)

variable {texts : List (String × Option JsonText)} {readings : List Reading}

theorem exists_members
    (h : List.Forall₂ (fun text reading => text.1 = reading.1 ∧
      ∃ j, Option.Rel (Spells room) text.2 j ∧ reading.2 j.toList) texts readings)
    (hs : IsSchema (readings.map (·.1))) :
    ∃ members, Spells (room + 1) (.record (present texts)) (.obj members) ∧
      ∀ reading ∈ readings, reading.2 (historyOf (folded members) reading.1) := by
  obtain ⟨slots, hspells, hslots⟩ : ∃ slots : List (String × Option Json),
      SpellsFields room (present texts) (present slots) ∧
      List.Forall₂ (fun slot reading => slot.1 = reading.1 ∧ reading.2 slot.2.toList)
        slots readings := by
    clear hs
    induction h with
    | nil => exact ⟨[], .nil, .nil⟩
    | @cons text reading texts readings h _ ih =>
      obtain ⟨slots, hspells, hslots⟩ := ih
      obtain ⟨hname, j, hj, hread⟩ := h
      refine ⟨(text.1, j) :: slots, ?_, .cons ⟨hname, hread⟩ hslots⟩
      obtain ⟨name, text⟩ := text
      cases hj with
      | none => exact hspells
      | some hj => exact .cons ⟨rfl, hj⟩ hspells
  have hnames : slots.map (·.1) = readings.map (·.1) := by
    rw [← List.forall₂_eq_eq_eq, List.forall₂_map_left_iff, List.forall₂_map_right_iff]
    exact hslots.imp fun _ _ h => h.1
  refine ⟨present slots, spells_record hspells, fun reading hreading => ?_⟩
  obtain ⟨slot, hslot, hname, hread⟩ := exists_of_forall₂_of_mem hslots hreading
  rw [← hname, historyOf_mem (hnames ▸ hs) hslot]
  exact hread

end JsonText

end ScopeIR
