import ScopeIR.Proofs.Numerals
import ScopeIR.Proofs.Run
import ScopeIR.Text.Quoted

/-! Texts of literals. Literals of one kind have different texts, and a text of a constant stays
on one line. -/
namespace ScopeIR

namespace Binary64

theorem plainText_of_isFinite {x : Binary64} (hx : x.isFinite) :
    x.plainText = plainLayout.finite x := by
  have hlt : x.magnitudeBits < infinityBits := of_decide_eq_true hx
  have hnan : x.isNaN = false := decide_eq_false (Nat.not_lt.mpr (Nat.le_of_lt hlt))
  have hinf : x.isInfinite = false := beq_false_of_ne (Nat.ne_of_lt hlt)
  rw [plainText, hnan, hinf]
  rfl

theorem isInfinite_of_not {x : Binary64} (hx : x.isFinite = false) (hn : ¬ x.isNaN) :
    x.isInfinite := by
  have hle : infinityBits ≤ x.magnitudeBits := Nat.not_lt.mp (of_decide_eq_false hx)
  exact beq_of_eq (Nat.le_antisymm (Nat.not_lt.mp fun h => hn (decide_eq_true h)) hle)

theorem plainText_of_not_isFinite {x : Binary64} (hx : x.isFinite = false) :
    x.plainText = if x.isNaN then "NaN" else if x.negative then "-Inf" else "+Inf" := by
  unfold plainText
  split
  · rfl
  · rename_i hn
    rw [if_pos (isInfinite_of_not hx hn)]

theorem isSome_number_plainText (x : Binary64) :
    (Json.number x.plainText.toList).isSome = x.isFinite := by
  cases hx : x.isFinite with
  | true =>
    obtain ⟨n, -, hread⟩ := Json.number_finite plainLayout hx
    have hread := hread [] (by simp [Json.Ends])
    rw [List.append_nil] at hread
    rw [plainText_of_isFinite hx, hread]
    rfl
  | false =>
    rw [plainText_of_not_isFinite hx]
    split
    · decide
    · split <;> decide

theorem plainText_inj_of_isFinite {x y : Binary64} (hx : x.isFinite) (hy : y.isFinite)
    (h : x.plainText = y.plainText) : x = y := by
  obtain ⟨n, hn, hread⟩ := Json.number_finite plainLayout hx
  obtain ⟨m, hm, hread'⟩ := Json.number_finite plainLayout hy
  have hends : Json.Ends [] := by simp [Json.Ends]
  have hread := hread [] hends
  rw [← plainText_of_isFinite hx, h, plainText_of_isFinite hy, hread' [] hends] at hread
  cases hread
  exact Option.some.inj (hn.symm.trans hm)

theorem plainText_inj_of_not_isFinite {x y : Binary64} (hx : x.isFinite = false)
    (hy : y.isFinite = false) (h : x.plainText = y.plainText) :
    x = y ∨ x.isNaN ∧ y.isNaN := by
  rw [plainText_of_not_isFinite hx, plainText_of_not_isFinite hy] at h
  by_cases hnx : x.isNaN <;> by_cases hny : y.isNaN
  · exact .inr ⟨hnx, hny⟩
  · cases hs : y.negative <;> simp [hnx, hny, hs] at h
  · cases hs : x.negative <;> simp [hnx, hny, hs] at h
  · have hsign : x.negative = y.negative := by
      cases hs : x.negative <;> cases hs' : y.negative <;> simp [hnx, hny, hs, hs'] at h ⊢
    have hbits : x.magnitudeBits = y.magnitudeBits :=
      (eq_of_beq (isInfinite_of_not hx hnx)).trans (eq_of_beq (isInfinite_of_not hy hny)).symm
    rw [← ofMagnitude_magnitudeBits x, ← ofMagnitude_magnitudeBits y, hsign, hbits]
    exact .inl rfl

/-- Numbers have different texts, but for those that are no number. -/
theorem plainText_eq_iff (x y : Binary64) :
    x.plainText = y.plainText ↔ x = y ∨ x.isNaN ∧ y.isNaN := by
  refine ⟨fun h => ?_, ?_⟩
  · have hfinite : x.isFinite = y.isFinite := by
      rw [← isSome_number_plainText, ← isSome_number_plainText, h]
    cases hx : x.isFinite with
    | true => exact .inl (plainText_inj_of_isFinite hx (hfinite ▸ hx) h)
    | false => exact plainText_inj_of_not_isFinite hx (hfinite ▸ hx) h
  · rintro (rfl | ⟨hx, hy⟩)
    · rfl
    · rw [plainText, plainText, if_pos hx, if_pos hy]

end Binary64

theorem toString_int_inj {m n : Int} (h : toString m = toString n) : m = n :=
  Option.some.inj ((signedInt?_toString m).symm.trans (h ▸ signedInt?_toString n))

namespace Literal

/-- The same literal. There is one that is no number, in many forms; the two zeros are not the
same. -/
def Same : Literal → Literal → Prop
  | .num x, .num y => x = y ∨ x.isNaN ∧ y.isNaN
  | literal, other => literal = other

theorem carrier_of_admits {kind : TypeKind} {literal : Literal} (h : kind.Admits literal) :
    literal.carrier = if kind = TypeKind.number then "float64"
      else if kind = TypeKind.boolean then "bool"
      else if kind = TypeKind.bigint then "*big.Int" else "string" := by
  cases h <;> rfl

/-- Among the constants of a kind the text tells literals apart. -/
theorem canonicalText_eq_iff {kind : TypeKind} {literal other : Literal}
    (h : kind.Admits literal) (h' : kind.Admits other) :
    literal.canonicalText = other.canonicalText ↔ literal.Same other := by
  have hcarrier := (carrier_of_admits h).trans (carrier_of_admits h').symm
  cases h with
  | number x =>
    cases other with
    | num y => exact Binary64.plainText_eq_iff x y
    | _ => simp [carrier] at hcarrier
  | string text | regExp text =>
    cases other with
    | str other => exact ⟨congrArg str, str.inj⟩
    | _ => simp [carrier] at hcarrier
  | boolean value =>
    cases other with
    | bool other =>
      cases value <;> cases other <;> simp [Same, canonicalText, plainText, boolText]
    | _ => simp [carrier] at hcarrier
  | bigint value =>
    cases other with
    | big other => exact ⟨fun h => congrArg big (toString_int_inj h), congrArg canonicalText⟩
    | _ => simp [carrier] at hcarrier

end Literal

def breaks (text : String) : Nat := text.toList.count '\n'

theorem breaks_intercalate {separator : String} (h : breaks separator = 0) (texts : List String) :
    breaks (separator.intercalate texts) = (texts.map breaks).sum := by
  unfold breaks at h ⊢
  rw [String.toList_intercalate]
  induction texts with
  | nil => rfl
  | cons text rest ih =>
    cases rest with
    | nil => simp
    | cons next rest =>
      rw [List.map_cons] at ih
      rw [List.map_cons, List.map_cons, List.intercalate_cons_cons, List.count_append,
        List.count_append, h, ih, Nat.add_zero]
      rfl

theorem ne_newline_of_isDigit {c : Char} (h : c.isDigit) : c ≠ '\n' := by
  rintro rfl
  cases h

@[simp] theorem count_newline_repr (n : Int) : n.repr.toList.count '\n' = 0 := by
  have hdigits : '\n' ∉ Nat.toDigits 10 n.natAbs := fun h =>
    ne_newline_of_isDigit ((isDigits_toDigits _).isDigit _ h) rfl
  rw [← Int.toString_eq_repr, List.count_eq_zero, Json.toList_toString_int]
  split
  · simpa using hdigits
  · exact hdigits

namespace NumberLayout

theorem newline_not_mem_trimZeros {digits : List Char} (h : '\n' ∉ digits) :
    '\n' ∉ trimZeros digits := by
  unfold trimZeros
  split
  · decide
  · intro hmem
    exact h (List.mem_reverse.mp ((List.dropWhile_sublist _).subset (List.mem_reverse.mp hmem)))

theorem newline_not_mem_positional {digits : List Char} (h : '\n' ∉ digits) (first : Int) :
    '\n' ∉ positional digits first := by
  unfold positional
  split
  · simp [h]
  · have hpadded : ∀ n, '\n' ∉ digits.take n ++ List.replicate (n - digits.length) '0' :=
      fun n hmem => (List.mem_append.mp hmem).elim (fun hmem => h (List.mem_of_mem_take hmem))
        fun hmem => by cases List.eq_of_mem_replicate hmem
    dsimp only
    split
    · exact hpadded _
    · intro hmem
      rcases List.mem_append.mp hmem with hmem | hmem
      · exact hpadded _ hmem
      · rcases List.mem_cons.mp hmem with hpoint | hmem
        · cases hpoint
        · exact h (List.mem_of_mem_drop hmem)

theorem newline_not_mem_withExponent {digits : List Char} (h : '\n' ∉ digits) (width : Nat)
    (first : Int) : '\n' ∉ withExponent width digits first := by
  have hplaces : '\n' ∉ Nat.toDigits 10 first.natAbs := fun hmem =>
    ne_newline_of_isDigit ((isDigits_toDigits _).isDigit _ hmem) rfl
  have hsign : '\n' ≠ if first < 0 then '-' else '+' := by split <;> decide
  unfold withExponent
  dsimp only
  split <;> simp_all

theorem count_newline_finite (layout : NumberLayout) (x : Binary64) :
    (layout.finite x).toList.count '\n' = 0 := by
  have hdigits : '\n' ∉ trimZeros (Nat.toDigits 10 x.shortest.digits) :=
    newline_not_mem_trimZeros fun h => ne_newline_of_isDigit ((isDigits_toDigits _).isDigit _ h) rfl
  have hmagnitude : '\n' ∉ layout.magnitude x.shortest := by
    unfold magnitude
    dsimp only
    split
    · exact newline_not_mem_positional hdigits _
    · exact newline_not_mem_withExponent hdigits _ _
  rw [List.count_eq_zero, finite, String.toList_ofList]
  split <;> split <;> simp [hmagnitude]

end NumberLayout

@[simp] theorem Binary64.count_newline_plainText (x : Binary64) :
    x.plainText.toList.count '\n' = 0 := by
  unfold plainText
  split
  · decide
  · split
    · split <;> decide
    · exact plainLayout.count_newline_finite x

namespace Text

theorem newline_not_mem_hexDigits (width n : Nat) : '\n' ∉ hexDigits width n := by
  have hdigit : ∀ n, n < 16 → hexDigit n ≠ '\n' := by decide
  induction width generalizing n with
  | zero => exact List.not_mem_nil
  | succ width ih =>
    intro hmem
    rcases List.mem_append.mp hmem with hmem | hmem
    · exact ih _ hmem
    · exact hdigit (n % 16) (Nat.mod_lt _ (by decide)) (List.mem_singleton.mp hmem).symm

theorem newline_not_mem_escapeQuoted (c : Char) : '\n' ∉ escapeQuoted c := by
  by_cases hc : c = '\n'
  · subst hc
    decide
  · have hne : '\n' ≠ c := Ne.symm hc
    unfold escapeQuoted
    -- one goal for each way to spell a character
    repeat' refine iteInduction (motive := fun spelled => '\n' ∉ spelled) (fun _ => ?_) fun _ => ?_
    all_goals simp [hne, newline_not_mem_hexDigits]

@[simp] theorem count_newline_quote (text : String) : (quote text).toList.count '\n' = 0 := by
  have hbody : '\n' ∉ text.toList.flatMap escapeQuoted := by
    intro hmem
    obtain ⟨c, -, hc⟩ := List.mem_flatMap.mp hmem
    exact newline_not_mem_escapeQuoted c hc
  rw [List.count_eq_zero, quote, String.toList_ofList]
  simpa using hbody

end Text

end ScopeIR
