import ScopeIR.Json.Reader
import ScopeIR.Number.Layout
import ScopeIR.Proofs.Nearest

/-! Numbers in JSON text. What the writer spells, positional or with an exponent, the reader
takes as a numeral of the same magnitude, up to the character that ends it. -/
namespace ScopeIR

structure IsDigits (ds : List Char) : Prop where
  ne_nil : ds ≠ []
  isDigit : ∀ c ∈ ds, c.isDigit

def IsWhole (ds : List Char) : Prop := ds = ['0'] ∨ IsDigits ds ∧ ds.head? ≠ some '0'

theorem IsDigits.append {ds es : List Char} (h : IsDigits ds) (h' : ∀ c ∈ es, c.isDigit) :
    IsDigits (ds ++ es) where
  ne_nil := List.append_ne_nil_of_left_ne_nil h.ne_nil es
  isDigit _ hc := (List.mem_append.mp hc).elim (h.isDigit _) (h' _)

theorem isDigit_of_mem_zeros {k : Nat} {c : Char} (h : c ∈ List.replicate k '0') : c.isDigit := by
  rw [List.eq_of_mem_replicate h]
  rfl

theorem isDigits_toDigits (n : Nat) : IsDigits (Nat.toDigits 10 n) where
  ne_nil := Nat.toDigits_ne_nil
  isDigit _ h := Nat.isDigit_of_mem_toDigits (by decide) (by decide) h

theorem head?_toDigits {n : Nat} (h : 0 < n) : (Nat.toDigits 10 n).head? ≠ some '0' := by
  induction n using Nat.strongRecOn with
  | ind n ih =>
    rcases Nat.lt_or_ge n 10 with hlt | hge
    · simpa [Nat.toDigits_of_lt_base hlt] using h.ne'
    · rw [Nat.toDigits_of_base_le (by decide) hge,
        List.head?_append_of_ne_nil _ Nat.toDigits_ne_nil]
      exact ih (n / 10) (by omega) (by omega)

theorem isWhole_toDigits (n : Nat) : IsWhole (Nat.toDigits 10 n) := by
  rcases n.eq_zero_or_pos with rfl | h
  · exact .inl rfl
  · exact .inr ⟨isDigits_toDigits n, head?_toDigits h⟩

theorem naturalOf_eq (ds : List Char) : naturalOf ds = Nat.ofDigitChars 10 ds 0 := rfl

theorem naturalOf_toDigits (n : Nat) : naturalOf (Nat.toDigits 10 n) = n :=
  Nat.ofDigitChars_ten_toDigits

theorem naturalOf_append (ds es : List Char) :
    naturalOf (ds ++ es) = naturalOf ds * 10 ^ es.length + naturalOf es := by
  rw [naturalOf_eq, Nat.ofDigitChars_append, Nat.ofDigitChars_eq_ofDigitChars_zero, Nat.mul_comm]
  rfl

theorem naturalOf_zeros (k : Nat) : naturalOf (List.replicate k '0') = 0 :=
  Nat.ofDigitChars_replicate_zero

theorem naturalOf_append_zeros (ds : List Char) (k : Nat) :
    naturalOf (ds ++ List.replicate k '0') = naturalOf ds * 10 ^ k := by
  rw [naturalOf_append, naturalOf_zeros, List.length_replicate, Nat.add_zero]

theorem naturalOf_zeros_append (k : Nat) (ds : List Char) :
    naturalOf (List.replicate k '0' ++ ds) = naturalOf ds := by
  rw [naturalOf_append, naturalOf_zeros, Nat.zero_mul, Nat.zero_add]

namespace Json

variable {ds rest : List Char}

def NoDigit (rest : List Char) : Prop := ∀ c ∈ rest.head?, c.isDigit = false

/-- What may stand after a number. -/
def Ends (rest : List Char) : Prop :=
  ∀ c ∈ rest.head?, c.isDigit = false ∧ c ≠ '.' ∧ c ≠ 'e' ∧ c ≠ 'E'

theorem Ends.noDigit (h : Ends rest) : NoDigit rest := fun c hc => (h c hc).1

theorem noDigit_cons {c : Char} (h : c.isDigit = false) (rest : List Char) :
    NoDigit (c :: rest) := by
  rintro _ ⟨⟩
  exact h

theorem digits1_append (h : IsDigits ds) (hr : NoDigit rest) :
    digits1 (ds ++ rest) = some (ds, rest) := by
  have htake : rest.takeWhile Char.isDigit = [] := by
    cases rest with
    | nil => rfl
    | cons c rest => simp [hr c rfl]
  have hdrop : rest.dropWhile Char.isDigit = rest := by
    cases rest with
    | nil => rfl
    | cons c rest => simp [hr c rfl]
  unfold digits1
  rw [List.takeWhile_append_of_pos h.isDigit, List.dropWhile_append_of_pos h.isDigit, htake, hdrop,
    List.append_nil]
  split
  · exact absurd rfl h.ne_nil
  · rfl

theorem wholePart_append (h : IsWhole ds) (hr : NoDigit rest) :
    wholePart (ds ++ rest) = some (ds, rest) := by
  rcases h with rfl | ⟨h, hne⟩
  · rfl
  · unfold wholePart
    split
    · rename_i tail heq
      cases ds with
      | nil => exact absurd rfl h.ne_nil
      | cons c ds =>
        rw [List.cons_append, List.cons.injEq] at heq
        exact absurd (congrArg some heq.1) hne
    · exact digits1_append h hr

theorem fractionPart_point (h : IsDigits ds) (hr : NoDigit rest) :
    fractionPart ('.' :: (ds ++ rest)) = some (some ds, rest) := by
  rw [fractionPart, digits1_append h hr]
  rfl

theorem fractionPart_none (h : ∀ c ∈ rest.head?, c ≠ '.') :
    fractionPart rest = some (none, rest) := by
  unfold fractionPart
  split
  · exact absurd rfl (h '.' rfl)
  · rfl

theorem exponentPart_none (h : ∀ c ∈ rest.head?, c ≠ 'e' ∧ c ≠ 'E') :
    exponentPart rest = some (none, rest) := by
  unfold exponentPart
  split
  · exact absurd rfl (h 'e' rfl).1
  · exact absurd rfl (h 'E' rfl).2
  · rfl

theorem exponentPart_signed (h : IsDigits ds) (hr : NoDigit rest) (negative : Bool) :
    exponentPart ('e' :: (if negative then '-' else '+') :: (ds ++ rest)) =
      some (some (if negative then -(naturalOf ds : Int) else naturalOf ds), rest) := by
  cases negative <;> simp [exponentPart, signedExponent, digits1_append h hr]

theorem unsigned_eq (negative : Bool) {text rest₁ rest₂ whole : List Char}
    {fraction : Option (List Char)} {exponent : Option Int}
    (hw : wholePart text = some (whole, rest₁)) (hf : fractionPart rest₁ = some (fraction, rest₂))
    (he : exponentPart rest₂ = some (exponent, rest)) :
    unsigned negative text = some (⟨negative,
      ⟨naturalOf (whole ++ fraction.getD []), exponent.getD 0 - (fraction.getD []).length⟩,
      fraction.isNone && exponent.isNone⟩, rest) := by
  simp [unsigned, hw, hf, he]

theorem unsigned_whole (h : IsWhole ds) (negative : Bool) (hr : Ends rest) :
    unsigned negative (ds ++ rest) = some (⟨negative, ⟨naturalOf ds, 0⟩, true⟩, rest) := by
  have hread := unsigned_eq negative (wholePart_append h hr.noDigit)
    (fractionPart_none fun c hc => (hr c hc).2.1) (exponentPart_none fun c hc => (hr c hc).2.2)
  simpa using hread

/-- The text is read as a numeral of the magnitude. -/
def ReadsAs (text : List Char) (v : ℚ) : Prop :=
  ∃ (magnitude : Decimal) (integral : Bool), magnitude.value = v ∧
    ∀ negative rest, Ends rest →
      unsigned negative (text ++ rest) = some (⟨negative, magnitude, integral⟩, rest)

theorem readsAs_whole {v : ℚ} (h : IsWhole ds) (hv : (naturalOf ds : ℚ) = v) : ReadsAs ds v := by
  refine ⟨_, _, ?_, fun negative rest hr => unsigned_whole h negative hr⟩
  simpa [Decimal.value] using hv

theorem readsAs_point {whole fraction : List Char} {v : ℚ} (hw : IsWhole whole)
    (hf : IsDigits fraction)
    (hv : (naturalOf (whole ++ fraction) : ℚ) * 10 ^ (-(fraction.length : Int)) = v) :
    ReadsAs (whole ++ '.' :: fraction) v := by
  refine ⟨⟨naturalOf (whole ++ fraction), 0 - fraction.length⟩, false, ?_,
    fun negative rest hr => ?_⟩
  · rw [Decimal.value, Int.zero_sub]
    exact hv
  · rw [List.append_assoc, List.cons_append]
    exact unsigned_eq negative
      (wholePart_append hw (noDigit_cons rfl (fraction ++ rest) : NoDigit ('.' :: _)))
      (fractionPart_point hf hr.noDigit) (exponentPart_none fun c hc => (hr c hc).2.2)

theorem readsAs_exponent {whole fraction places : List Char} {v : ℚ} {e : Int} (hw : IsWhole whole)
    (hf : ∀ c ∈ fraction, c.isDigit) (hp : IsDigits places) (he : naturalOf places = e.natAbs)
    (hv : (naturalOf (whole ++ fraction) : ℚ) * 10 ^ (e - fraction.length) = v) :
    ReadsAs (whole ++ (if fraction.isEmpty then [] else '.' :: fraction) ++
      'e' :: (if e < 0 then '-' else '+') :: places) v := by
  refine ⟨⟨naturalOf (whole ++ fraction), e - fraction.length⟩, false, hv,
    fun negative rest hr => ?_⟩
  have hsigned := exponentPart_signed hp hr.noDigit (decide (e < 0))
  have hexponent :
      (if decide (e < 0) then -(naturalOf places : Int) else naturalOf places) = e := by
    rw [he]
    simp only [decide_eq_true_eq]
    split <;> omega
  rw [hexponent] at hsigned
  simp only [decide_eq_true_eq] at hsigned
  cases fraction with
  | nil =>
    have hread := unsigned_eq negative (wholePart_append hw (noDigit_cons rfl _))
      (fractionPart_none fun c hc => by cases hc; decide) hsigned
    simp only [List.isEmpty_nil, if_true, List.append_assoc, List.cons_append, List.nil_append]
    exact hread
  | cons c fraction =>
    have hread := unsigned_eq negative (wholePart_append hw (noDigit_cons rfl _))
      (fractionPart_point ⟨List.cons_ne_nil c fraction, hf⟩ (noDigit_cons rfl _)) hsigned
    simp only [List.isEmpty_cons, Bool.false_eq_true, if_false, List.append_assoc,
      List.cons_append] at hread ⊢
    exact hread

end Json

namespace NumberLayout

open Json

variable {ds : List Char}

theorem trimZeros_spec {n : Nat} (h : 0 < n) :
    ∃ k, Nat.toDigits 10 n = trimZeros (Nat.toDigits 10 n) ++ List.replicate k '0' ∧
      IsDigits (trimZeros (Nat.toDigits 10 n)) ∧
      (trimZeros (Nat.toDigits 10 n)).head? ≠ some '0' := by
  have hds := isDigits_toDigits n
  have hhead := head?_toDigits h
  generalize Nat.toDigits 10 n = ds at hds hhead
  have hsplit : ds = (ds.reverse.dropWhile (· == '0')).reverse ++
      (ds.reverse.takeWhile (· == '0')).reverse := by
    rw [← List.reverse_append, List.takeWhile_append_dropWhile, List.reverse_reverse]
  have hzeros : (ds.reverse.takeWhile (· == '0')).reverse =
      List.replicate (ds.reverse.takeWhile (· == '0')).length '0' := by
    refine List.eq_replicate_iff.mpr ⟨List.length_reverse, fun c hc => ?_⟩
    simpa using List.all_eq_true.mp List.all_takeWhile c (List.mem_reverse.mp hc)
  rw [hzeros] at hsplit
  unfold trimZeros
  split
  · rename_i hnil
    -- a text of zeros only would start with one
    rw [hnil, List.nil_append] at hsplit
    rw [hsplit] at hhead hds
    cases hk : (ds.reverse.takeWhile (· == '0')).length with
    | zero => exact absurd (by rw [hk]; rfl) hds.ne_nil
    | succ k => exact absurd (by rw [hk]; rfl) hhead
  · rename_i kept hne
    refine ⟨_, hsplit, ⟨hne, fun c hc => hds.isDigit c ?_⟩, ?_⟩
    · rw [hsplit]
      exact List.mem_append_left _ hc
    · rwa [hsplit, List.head?_append_of_ne_nil _ hne] at hhead

theorem readsAs_positional (h : IsDigits ds) (hne : ds.head? ≠ some '0') (first : Int) :
    ReadsAs (positional ds first) (naturalOf ds * 10 ^ (first + 1 - ds.length)) := by
  unfold positional
  split
  · -- all digits stand after the point, behind zeros that count for nothing
    rename_i hneg
    have hf : IsDigits (List.replicate (-first - 1).toNat '0' ++ ds) :=
      ⟨List.append_ne_nil_of_right_ne_nil _ h.ne_nil,
        fun c hc => (List.mem_append.mp hc).elim isDigit_of_mem_zeros (h.isDigit c)⟩
    refine readsAs_point (.inl rfl) hf ?_
    have hzeros : naturalOf (['0'] ++ (List.replicate (-first - 1).toNat '0' ++ ds)) =
        naturalOf ds := by
      rw [← List.append_assoc, ← List.replicate_one, List.replicate_append_replicate,
        naturalOf_zeros_append]
    have hscale : -((List.replicate (-first - 1).toNat '0' ++ ds).length : Int) =
        first + 1 - ds.length := by
      rw [List.length_append, List.length_replicate]
      omega
    rw [← hzeros, ← hscale]
    rfl
  · rename_i hpos
    obtain ⟨m, rfl⟩ := Int.eq_ofNat_of_zero_le (Int.not_lt.mp hpos)
    dsimp only
    rw [Int.toNat_natCast]
    split
    · -- no digit is left for a fraction, and zeros fill the places up to the point
      rename_i hdrop
      have hle : ds.length ≤ m + 1 := List.drop_eq_nil_iff.mp hdrop
      rw [List.take_of_length_le hle]
      refine readsAs_whole (.inr ⟨h.append fun c => isDigit_of_mem_zeros, ?_⟩) ?_
      · rwa [List.head?_append_of_ne_nil _ h.ne_nil]
      · have hscale : (m : Int) + 1 - ds.length = (m + 1 - ds.length : Nat) := by omega
        rw [naturalOf_append_zeros, hscale, zpow_natCast]
        push_cast
        rfl
    · -- the point stands between two digits
      rename_i fraction hdrop
      have hlt : m + 1 < ds.length := by
        have := mt List.drop_eq_nil_iff.mpr hdrop
        omega
      have htake : ds.take (m + 1) ≠ [] := by
        simp [h.ne_nil]
      rw [Nat.sub_eq_zero_of_le hlt.le, List.replicate_zero, List.append_nil]
      refine readsAs_point (.inr ⟨⟨htake, fun c hc => h.isDigit c (List.mem_of_mem_take hc)⟩, ?_⟩)
        ⟨hdrop, fun c hc => h.isDigit c (List.mem_of_mem_drop hc)⟩ ?_
      · rwa [List.head?_take, if_neg (Nat.succ_ne_zero m)]
      · have hscale : -((ds.drop (m + 1)).length : Int) = m + 1 - ds.length := by
          rw [List.length_drop]
          omega
        rw [List.take_append_drop, hscale]

theorem readsAs_withExponent (h : IsDigits ds) (hne : ds.head? ≠ some '0') (width : Nat)
    (first : Int) :
    ReadsAs (withExponent width ds first) (naturalOf ds * 10 ^ (first + 1 - ds.length)) := by
  have hp : IsDigits (List.replicate (width - (Nat.toDigits 10 first.natAbs).length) '0' ++
      Nat.toDigits 10 first.natAbs) :=
    ⟨List.append_ne_nil_of_right_ne_nil _ Nat.toDigits_ne_nil,
      fun c hc =>
        (List.mem_append.mp hc).elim isDigit_of_mem_zeros ((isDigits_toDigits _).isDigit c)⟩
  have he : naturalOf (List.replicate (width - (Nat.toDigits 10 first.natAbs).length) '0' ++
      Nat.toDigits 10 first.natAbs) = first.natAbs := by
    rw [naturalOf_zeros_append, naturalOf_toDigits]
  cases ds with
  | nil => exact absurd rfl h.ne_nil
  | cons lead fraction =>
    have hlead : IsWhole [lead] := .inr
      ⟨⟨List.cons_ne_nil lead [],
        fun c hc => h.isDigit c (List.mem_singleton.mp hc ▸ List.mem_cons_self)⟩, hne⟩
    have hf : ∀ c ∈ fraction, c.isDigit := fun c hc => h.isDigit c (List.mem_cons_of_mem _ hc)
    have hscale : first + 1 - ((lead :: fraction).length : Int) = first - fraction.length := by
      rw [List.length_cons]
      omega
    rw [hscale]
    have hread := readsAs_exponent hlead hf hp he rfl
    cases fraction <;> simpa [withExponent] using hread

theorem readsAs_magnitude (layout : NumberLayout) {d : Decimal} (h : 0 < d.digits) :
    ReadsAs (layout.magnitude d) d.value := by
  obtain ⟨k, hsplit, hdigits, hhead⟩ := trimZeros_spec h
  have hvalue : d.value = naturalOf (trimZeros (Nat.toDigits 10 d.digits)) *
      10 ^ ((Nat.toDigits 10 d.digits).length - 1 + d.scale + 1 -
        (trimZeros (Nat.toDigits 10 d.digits)).length : Int) := by
    have hnat : d.digits = naturalOf (trimZeros (Nat.toDigits 10 d.digits)) * 10 ^ k := by
      rw [← naturalOf_append_zeros, ← hsplit, naturalOf_toDigits]
    have hlength := congrArg List.length hsplit
    rw [List.length_append, List.length_replicate] at hlength
    have hscale : ((Nat.toDigits 10 d.digits).length - 1 + d.scale + 1 -
        (trimZeros (Nat.toDigits 10 d.digits)).length : Int) = k + d.scale := by
      omega
    rw [hscale, zpow_add₀ (by norm_num), ← mul_assoc, zpow_natCast, Decimal.value]
    congr 1
    exact_mod_cast hnat
  rw [hvalue]
  unfold magnitude
  dsimp only
  split
  · exact readsAs_positional hdigits hhead _
  · exact readsAs_withExponent hdigits hhead _ _

end NumberLayout

def Numeral.ofInt (value : Int) : Numeral := ⟨decide (value < 0), ⟨value.natAbs, 0⟩, true⟩

theorem Numeral.int?_ofInt {value : Int} (h : isInt64 value) : (ofInt value).int? = some value := by
  have hvalue : (if (ofInt value).negative then -((ofInt value).magnitude.digits : Int)
      else (ofInt value).magnitude.digits) = value := by
    simp only [ofInt, decide_eq_true_eq]
    split <;> omega
  unfold int?
  dsimp only
  rw [hvalue, h]
  rfl

namespace Json

theorem number_of_unsigned {text : List Char} {r : Numeral × List Char}
    (h : unsigned false text = some r) : number text = some r := by
  unfold number
  split
  · cases h
  · exact h

/-- A finite number reads back from its text. -/
theorem number_finite (layout : NumberLayout) {x : Binary64} (hx : x.isFinite) :
    ∃ n : Numeral, n.binary64? = some x ∧ ∀ rest, Ends rest →
      number ((layout.finite x).toList ++ rest) = some (n, rest) := by
  have hreads : ReadsAs (if x.isZero then ['0'] else layout.magnitude x.shortest)
      x.shortest.value := by
    split
    · rename_i hz
      refine readsAs_whole (.inl rfl) ?_
      simp [Binary64.shortest, hz, Decimal.value, naturalOf_eq, Nat.ofDigitChars]
    · rename_i hz
      exact layout.readsAs_magnitude
        (Binary64.shortest_digits_pos hx (Bool.eq_false_of_not_eq_true hz))
  obtain ⟨magnitude, integral, hvalue, hread⟩ := hreads
  refine ⟨⟨x.negative, magnitude, integral⟩, Binary64.ofDecimal?_of_shortest_value hx hvalue,
    fun rest hr => ?_⟩
  have hread := hread x.negative rest hr
  unfold NumberLayout.finite
  rw [String.toList_ofList]
  cases hs : x.negative with
  | false =>
    rw [hs] at hread
    exact number_of_unsigned hread
  | true =>
    rw [hs] at hread
    exact hread

theorem toList_toString_int (value : Int) : (toString value).toList =
    if value < 0 then '-' :: Nat.toDigits 10 value.natAbs else Nat.toDigits 10 value.natAbs := by
  rw [Int.toString_eq_repr, Int.repr_eq_if]
  split
  · rename_i hpos
    have habs : value.toNat = value.natAbs := by omega
    rw [if_neg (Int.not_lt.mpr hpos), Nat.toList_repr, habs]
  · rename_i hneg
    have habs : (-value).toNat = value.natAbs := by omega
    rw [if_pos (Int.not_le.mp hneg), String.toList_append, Nat.toList_repr, habs]
    rfl

theorem number_int (value : Int) {rest : List Char} (hr : Ends rest) :
    number ((toString value).toList ++ rest) = some (.ofInt value, rest) := by
  have hwhole := unsigned_whole (isWhole_toDigits value.natAbs) (decide (value < 0)) hr
  rw [naturalOf_toDigits] at hwhole
  rw [toList_toString_int]
  split
  · rename_i hneg
    rw [decide_eq_true hneg] at hwhole
    rw [Numeral.ofInt, decide_eq_true hneg]
    exact hwhole
  · rename_i hpos
    rw [decide_eq_false hpos] at hwhole
    rw [Numeral.ofInt, decide_eq_false hpos]
    exact number_of_unsigned hwhole

theorem value_of_number {text rest : List Char} {n : Numeral} (h : number text = some (n, rest))
    (fuel room : Nat) : value (fuel + 1) room text = some (.num n, rest) := by
  unfold value
  split
  · cases h
  · cases h
  · cases h
  · cases h
  · cases h
  · cases h
  · rw [h]
    rfl

end Json

theorem signedInt?_toString (value : Int) : signedInt? (toString value) = some value := by
  have hdigits := isDigits_toDigits value.natAbs
  have hnatural : natural? (Nat.toDigits 10 value.natAbs) = some value.natAbs := by
    have hall : (Nat.toDigits 10 value.natAbs).all Char.isDigit = true :=
      List.all_eq_true.mpr hdigits.isDigit
    have hne : (Nat.toDigits 10 value.natAbs).isEmpty = false :=
      List.isEmpty_eq_false_iff.mpr hdigits.ne_nil
    rw [natural?, hne, hall, naturalOf_toDigits]
    rfl
  rw [signedInt?, Json.toList_toString_int]
  by_cases hneg : value < 0
  · rw [if_pos hneg]
    have hvalue : -(value.natAbs : Int) = value := by omega
    simp only [hnatural]
    exact congrArg some hvalue
  · rw [if_neg hneg]
    split
    · rename_i digits heq
      exact absurd (hdigits.isDigit '-' (heq ▸ List.mem_cons_self)) (by decide)
    · rename_i digits heq
      exact absurd (hdigits.isDigit '+' (heq ▸ List.mem_cons_self)) (by decide)
    · rw [hnatural]
      exact congrArg some (Int.natAbs_of_nonneg (Int.not_lt.mp hneg))

end ScopeIR
