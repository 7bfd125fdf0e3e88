import ScopeIR.Json.Writer
import ScopeIR.Proofs.Numerals

/-! JSON text reads back: what the writer lays out over lines, the reader takes as the value
that the scalars and names spell. -/
namespace ScopeIR

namespace Json

def IsPieceOf (p : Piece) (c : Char) : Prop := p = .char c ∨ p = .unit c.toNat

theorem hexValue?_hexDigit : ∀ d < 16, hexValue? (Text.hexDigit d) = some d := by decide

theorem unit?_hexDigits {n : Nat} (h : n < 0x10000) :
    ∃ a b c d, Text.hexDigits 4 n = [a, b, c, d] ∧ unit? a b c d = some n := by
  refine ⟨_, _, _, _, rfl, ?_⟩
  have hdigit (m : Nat) := hexValue?_hexDigit (m % 16) (Nat.mod_lt m (by decide))
  simp only [unit?, hdigit, Option.bind_eq_bind, Option.bind_some, Option.pure_def,
    Option.some.injEq]
  omega

theorem pieces_simple {e c : Char} (h : simpleEscape? e = some c) (hu : e ≠ 'u')
    (rest : List Char) :
    pieces ('\\' :: e :: rest) = (pieces rest).map fun r => (.char c :: r.1, r.2) := by
  rw [pieces, h]
  · cases pieces rest <;> rfl
  · exact fun a b c d rest he => absurd he hu

theorem pieces_unit {n : Nat} (h : n < 0x10000) (rest : List Char) :
    pieces ('\\' :: 'u' :: Text.hexDigits 4 n ++ rest) =
      (pieces rest).map fun r => (.unit n :: r.1, r.2) := by
  obtain ⟨a, b, c, d, hdigits, hunit⟩ := unit?_hexDigits h
  rw [hdigits]
  simp only [List.cons_append, List.nil_append, pieces, hunit]
  cases pieces rest <;> rfl

theorem pieces_plain {c : Char} (hq : c ≠ '"') (hb : c ≠ '\\') (hn : 0x20 ≤ c.toNat)
    (rest : List Char) :
    pieces (c :: rest) = (pieces rest).map fun r => (.char c :: r.1, r.2) := by
  have hplain : (decide (c.toNat < 0x20) || c == '\\') = false := by
    simpa [hb] using hn
  rw [pieces]
  · rw [hplain]
    cases pieces rest <;> rfl
  · exact hq
  · exact fun _ _ _ _ _ he => absurd he hb
  · exact fun _ _ he => absurd he hb

theorem pieces_escape (c : Char) (rest : List Char) :
    ∃ p, IsPieceOf p c ∧
      pieces (JsonText.escape c ++ rest) = (pieces rest).map fun r => (p :: r.1, r.2) := by
  have hofNat {n : Nat} (h : c.toNat = n) : Char.ofNat n = c := h ▸ c.ofNat_toNat
  unfold JsonText.escape
  dsimp only
  split
  · rename_i h
    refine ⟨.char c, .inl rfl, ?_⟩
    rcases (by simpa using h) with rfl | rfl <;> exact pieces_simple rfl (by decide) rest
  split
  · rename_i h
    cases eq_of_beq h
    exact ⟨_, .inl rfl, pieces_simple rfl (by decide) rest⟩
  split
  · rename_i h
    cases eq_of_beq h
    exact ⟨_, .inl rfl, pieces_simple rfl (by decide) rest⟩
  split
  · rename_i h
    cases eq_of_beq h
    exact ⟨_, .inl rfl, pieces_simple rfl (by decide) rest⟩
  split
  · rename_i h
    exact ⟨_, .inl (congrArg _ (hofNat (eq_of_beq h))), pieces_simple rfl (by decide) rest⟩
  split
  · rename_i h
    exact ⟨_, .inl (congrArg _ (hofNat (eq_of_beq h))), pieces_simple rfl (by decide) rest⟩
  split
  · rename_i h
    refine ⟨_, .inr rfl, pieces_unit ?_ rest⟩
    simp only [Bool.or_eq_true, decide_eq_true_eq, beq_iff_eq] at h
    rcases h with ((((h | rfl) | rfl) | rfl) | h) | h
    · exact Nat.lt_trans h (by decide)
    · decide
    · decide
    · decide
    · rw [h]; decide
    · rw [h]; decide
  · rename_i hquote _ _ _ _ _ hnumber
    simp only [Bool.or_eq_true, decide_eq_true_eq, beq_iff_eq, not_or] at hquote hnumber
    exact ⟨_, .inl rfl, pieces_plain hquote.1 hquote.2 (Nat.not_lt.mp hnumber.1.1.1.1.1) rest⟩

theorem charOfUnit_toNat (c : Char) : isHighSurrogate c.toNat = false ∧ charOfUnit c.toNat = c := by
  have hvalid : c.toNat < 0xD800 ∨ 0xDFFF < c.toNat ∧ c.toNat < 0x110000 := c.valid
  have hhigh : isHighSurrogate c.toNat = false := by
    simp [isHighSurrogate]
    omega
  have hlow : isLowSurrogate c.toNat = false := by
    simp [isLowSurrogate]
    omega
  simp [charOfUnit, hhigh, hlow]

theorem joinPieces_eq {ps : List Piece} {cs : List Char} (h : List.Forall₂ IsPieceOf ps cs) :
    joinPieces none ps = cs ∧ ∀ c : Char, joinPieces (some c.toNat) ps = c :: cs := by
  induction h with
  | nil => exact ⟨rfl, fun c => congrArg (· :: []) (charOfUnit_toNat c).2⟩
  | @cons p d ps cs hp _ ih =>
    rcases hp with rfl | rfl
    · refine ⟨congrArg (d :: ·) ih.1, fun c => ?_⟩
      rw [joinPieces, (charOfUnit_toNat c).2, ih.1]
    · refine ⟨ih.2 d, fun c => ?_⟩
      rw [joinPieces, (charOfUnit_toNat c).1, (charOfUnit_toNat c).2, ih.2 d]
      rfl

theorem pieces_escaped (cs rest : List Char) :
    ∃ ps, List.Forall₂ IsPieceOf ps cs ∧
      pieces (cs.flatMap JsonText.escape ++ '"' :: rest) = some (ps, rest) := by
  induction cs with
  | nil => exact ⟨[], .nil, rfl⟩
  | cons c cs ih =>
    obtain ⟨ps, hps, hread⟩ := ih
    obtain ⟨p, hp, hescape⟩ := pieces_escape c (cs.flatMap JsonText.escape ++ '"' :: rest)
    refine ⟨p :: ps, .cons hp hps, ?_⟩
    rw [List.flatMap_cons, List.append_assoc, hescape, hread]
    rfl

theorem stringBody_escaped (cs rest : List Char) :
    stringBody (cs.flatMap JsonText.escape ++ '"' :: rest) = some (cs, rest) := by
  obtain ⟨ps, hps, hread⟩ := pieces_escaped cs rest
  rw [stringBody, hread, ← (joinPieces_eq hps).1]
  rfl

theorem toList_quoted (text : String) :
    (JsonText.quoted text).toList = '"' :: (text.toList.flatMap JsonText.escape ++ ['"']) := by
  simp [JsonText.quoted]

/-- The lexeme is read as the value, whatever ends it. -/
def Scans (lexeme : String) (j : Json) : Prop :=
  ∀ fuel room rest, Ends rest → value (fuel + 1) room (lexeme.toList ++ rest) = some (j, rest)

theorem scans_null : Scans "null" .null := fun _ _ _ _ => rfl

theorem scans_bool (value : Bool) : Scans (if value then "true" else "false") (.bool value) := by
  intro fuel room rest _
  cases value <;> rfl

theorem scans_quoted (text : String) : Scans (JsonText.quoted text) (.str text) := by
  intro fuel room rest _
  rw [toList_quoted, List.cons_append, List.append_assoc, List.singleton_append, value,
    stringBody_escaped]
  simp only [Option.map_some, String.ofList_toList]

theorem scans_int (value : Int) : Scans (toString value) (.num (.ofInt value)) :=
  fun fuel room _ hr => value_of_number (number_int value hr) fuel room

theorem scans_finite (layout : NumberLayout) {x : Binary64} (hx : x.isFinite) :
    ∃ n : Numeral, n.binary64? = some x ∧ Scans (layout.finite x) (.num n) := by
  obtain ⟨n, hn, hread⟩ := number_finite layout hx
  exact ⟨n, hn, fun fuel room rest hr => value_of_number (hread rest hr) fuel room⟩

theorem skipBlank_of_value {fuel room : Nat} {text : List Char} {r : Json × List Char}
    (h : value fuel room text = some r) : skipBlank text = text ∧ text.head? ≠ some ']' := by
  cases fuel with
  | zero => simp [value] at h
  | succ fuel =>
    cases text with
    | nil => exact ⟨rfl, by simp⟩
    | cons c text =>
      refine ⟨List.dropWhile_cons_of_neg fun hc => ?_, fun hc => ?_⟩
      · simp only [isBlank, Bool.or_eq_true, beq_iff_eq] at hc
        rcases hc with ((rfl | rfl) | rfl) | rfl <;> cases h
      · cases Option.some.inj hc
        cases h

variable {fuel room : Nat} {text after more rest : List Char} {j : Json} {js : List Json}

theorem elements_last (h : value fuel room text = some (j, after))
    (ha : skipBlank after = ']' :: rest) : elements (fuel + 1) room text = some ([j], rest) := by
  simp [elements, h, ha]

theorem elements_more (h : value fuel room text = some (j, after))
    (ha : skipBlank after = ',' :: more)
    (hm : elements fuel room (skipBlank more) = some (js, rest)) :
    elements (fuel + 1) room text = some (j :: js, rest) := by
  simp [elements, h, ha, hm]

theorem value_list (ht : skipBlank after = text) (h : elements fuel room text = some (js, rest)) :
    value (fuel + 1) (room + 1) ('[' :: after) = some (.arr js, rest) := by
  have hhead : text.head? ≠ some ']' := by
    cases fuel with
    | zero => simp [elements] at h
    | succ fuel =>
      intro hhead
      cases hv : value fuel room text with
      | none => simp [elements, hv] at h
      | some r => exact (skipBlank_of_value hv).2 hhead
  simp only [value, ht]
  split
  · exact absurd rfl hhead
  · rw [h]
    rfl

variable {name : String} {members' : List (String × Json)}

theorem members_last (h : value fuel room (skipBlank text) = some (j, after))
    (ha : skipBlank after = '\x7d' :: rest) :
    members (fuel + 1) room ((JsonText.quoted name).toList ++ ':' :: text) =
      some ([(name, j)], rest) := by
  have hcolon : skipBlank (':' :: text) = ':' :: text := rfl
  simp [toList_quoted, members, stringBody_escaped, hcolon, h, ha]

theorem members_more
    (h : value fuel room (skipBlank text) = some (j, after)) (ha : skipBlank after = ',' :: more)
    (hm : members fuel room (skipBlank more) = some (members', rest)) :
    members (fuel + 1) room ((JsonText.quoted name).toList ++ ':' :: text) =
      some ((name, j) :: members', rest) := by
  have hcolon : skipBlank (':' :: text) = ':' :: text := rfl
  simp [toList_quoted, members, stringBody_escaped, hcolon, h, ha, hm]

theorem value_record (ht : skipBlank after = '"' :: text)
    (h : members fuel room ('"' :: text) = some (members', rest)) :
    value (fuel + 1) (room + 1) ('\x7b' :: after) = some (.obj members', rest) := by
  simp [value, ht, h]

end Json

namespace JsonText

open Json

/-- The text is read as the value, at any depth and before anything that ends a value, where
so many containers may be opened inside each other. The characters of the text are enough to
bound the calls of the reader. -/
def Spells (room : Nat) (t : JsonText) (j : Json) : Prop :=
  ∀ depth fuel rest, (chars depth t).length < fuel → Ends rest →
    value fuel room (chars depth t ++ rest) = some (j, rest)

def SpellsFields (room : Nat) : List (String × JsonText) → List (String × Json) → Prop :=
  List.Forall₂ fun field member => field.1 = member.1 ∧ Spells room field.2 member.2

variable {room : Nat} {items : List JsonText} {js : List Json}

theorem skipBlank_indent (depth : Nat) (text : List Char) :
    skipBlank (indent depth ++ text) = skipBlank text := by
  refine List.dropWhile_append_of_pos fun c hc => ?_
  rcases List.mem_cons.mp hc with rfl | hc
  · rfl
  · rw [List.eq_of_mem_replicate hc]
    rfl

theorem ends_cons {c : Char} (h : c = ',' ∨ c = '\n') (rest : List Char) : Ends (c :: rest) := by
  rintro _ ⟨⟩
  rcases h with rfl | rfl <;> decide

theorem ends_itemChars (depth close : Nat) (items : List JsonText) (rest : List Char) :
    Ends (itemChars depth items ++ (indent close ++ rest)) := by
  cases items with
  | nil => exact ends_cons (.inr rfl) _
  | cons item items => exact ends_cons (.inl rfl) _

theorem ends_fieldChars (depth close : Nat) (fields : List (String × JsonText))
    (rest : List Char) : Ends (fieldChars depth fields ++ (indent close ++ rest)) := by
  cases fields with
  | nil => exact ends_cons (.inr rfl) _
  | cons field fields => exact ends_cons (.inl rfl) _

theorem spells_scalar {lexeme : String} {j : Json} (h : Scans lexeme j) (room : Nat) :
    Spells room (.scalar lexeme) j := by
  intro depth fuel rest hf hr
  obtain ⟨fuel, rfl⟩ := Nat.exists_eq_add_of_le' (Nat.zero_lt_of_lt hf)
  exact h fuel room rest hr

theorem Spells.skipBlank {t : JsonText} {j : Json} (h : Spells room t j) (depth : Nat)
    {rest : List Char} (hr : Ends rest) :
    Json.skipBlank (chars depth t ++ rest) = chars depth t ++ rest :=
  (skipBlank_of_value (h depth _ rest (Nat.lt_succ_self _) hr)).1

theorem elements_chars (hs : List.Forall₂ (Spells room) items js) {item : JsonText} {j : Json}
    (h : Spells room item j) (depth close fuel : Nat) (rest : List Char)
    (hf : (chars depth item).length + (itemChars depth items).length + 1 < fuel) :
    elements fuel room (chars depth item ++ (itemChars depth items ++
      (indent close ++ ']' :: rest))) = some (j :: js, rest) := by
  induction hs generalizing item j fuel with
  | nil =>
    obtain ⟨fuel, rfl⟩ := Nat.exists_eq_add_of_le' (Nat.zero_lt_of_lt hf)
    have hends := ends_itemChars depth close [] (']' :: rest)
    refine elements_last (h depth fuel _ (by omega) hends) ?_
    rw [itemChars, List.nil_append, skipBlank_indent]
    rfl
  | @cons item' j' items js h' hs ih =>
    obtain ⟨fuel, rfl⟩ := Nat.exists_eq_add_of_le' (Nat.zero_lt_of_lt hf)
    have hends := ends_itemChars depth close (item' :: items) (']' :: rest)
    have hvalue := h depth fuel _ (by omega) hends
    simp only [itemChars, List.cons_append, List.append_assoc, List.length_cons,
      List.length_append] at hf hvalue ⊢
    refine elements_more hvalue rfl ?_
    rw [skipBlank_indent, h'.skipBlank depth (ends_itemChars depth close items _)]
    exact ih h' fuel (by omega)

theorem spells_list (h : List.Forall₂ (Spells room) items js) :
    Spells (room + 1) (.list items) (.arr js) := by
  intro depth fuel rest hf hr
  obtain ⟨fuel, rfl⟩ := Nat.exists_eq_add_of_le' (Nat.zero_lt_of_lt hf)
  cases h with
  | nil => rfl
  | @cons item j items js h hs =>
    simp only [chars, List.cons_append, List.append_assoc, List.nil_append, List.length_cons,
      List.length_append] at hf ⊢
    refine value_list ?_ (elements_chars hs h (depth + 1) depth fuel rest (by omega))
    rw [skipBlank_indent, h.skipBlank (depth + 1) (ends_itemChars _ depth items _)]

variable {fields : List (String × JsonText)} {values : List (String × Json)}

theorem members_chars (hs : SpellsFields room fields values) (name : String) {item : JsonText}
    {j : Json} (h : Spells room item j) (depth close fuel : Nat) (rest : List Char)
    (hf : (chars depth item).length + (fieldChars depth fields).length + 1 < fuel) :
    members fuel room ((quoted name).toList ++ ':' :: ' ' :: (chars depth item ++
      (fieldChars depth fields ++ (indent close ++ '\x7d' :: rest)))) =
      some ((name, j) :: values, rest) := by
  have hblank (text : List Char) : Json.skipBlank (' ' :: text) = Json.skipBlank text := rfl
  induction hs generalizing name item j fuel with
  | nil =>
    obtain ⟨fuel, rfl⟩ := Nat.exists_eq_add_of_le' (Nat.zero_lt_of_lt hf)
    have hends := ends_fieldChars depth close [] ('\x7d' :: rest)
    have hvalue := h depth fuel _ (by omega) hends
    rw [← h.skipBlank depth hends, ← hblank] at hvalue
    refine members_last hvalue ?_
    rw [fieldChars, List.nil_append, skipBlank_indent]
    rfl
  | @cons field member fields values h' hs ih =>
    obtain ⟨fuel, rfl⟩ := Nat.exists_eq_add_of_le' (Nat.zero_lt_of_lt hf)
    obtain ⟨name', item'⟩ := field
    obtain ⟨_, j'⟩ := member
    obtain ⟨rfl, h'⟩ : name' = _ ∧ Spells room item' j' := h'
    have hends := ends_fieldChars depth close ((name', item') :: fields) ('\x7d' :: rest)
    have hvalue := h depth fuel _ (by omega) hends
    rw [← h.skipBlank depth hends, ← hblank] at hvalue
    simp only [fieldChars, List.cons_append, List.append_assoc, List.nil_append, List.length_cons,
      List.length_append] at hf hvalue ⊢
    refine members_more hvalue rfl ?_
    rw [skipBlank_indent, toList_quoted]
    have hmore := ih name' h' fuel (by omega)
    rw [toList_quoted] at hmore
    exact hmore

theorem spells_record (h : SpellsFields room fields values) :
    Spells (room + 1) (.record fields) (.obj values) := by
  intro depth fuel rest hf hr
  obtain ⟨fuel, rfl⟩ := Nat.exists_eq_add_of_le' (Nat.zero_lt_of_lt hf)
  cases h with
  | nil => rfl
  | @cons field member fields values h hs =>
    obtain ⟨name, item⟩ := field
    obtain ⟨_, j⟩ := member
    obtain ⟨rfl, h⟩ : name = _ ∧ Spells room item j := h
    simp only [chars, List.cons_append, List.append_assoc, List.nil_append, List.length_cons,
      List.length_append] at hf ⊢
    have hread := members_chars hs name h (depth + 1) depth fuel rest (by omega)
    rw [toList_quoted] at hread
    refine value_record ?_ hread
    rw [skipBlank_indent, toList_quoted]
    rfl

/-- A text that spells a value parses as it. -/
theorem parse?_render {t : JsonText} {j : Json} (h : Spells maxNesting t j) :
    parse? t.render.toList = some j := by
  have hends : Ends ['\n'] := ends_cons (.inr rfl) []
  rw [render, String.toList_ofList, parse?, h.skipBlank 0 hends,
    h 0 _ ['\n'] (by rw [List.length_append]; omega) hends]
  rfl

end JsonText

end ScopeIR
