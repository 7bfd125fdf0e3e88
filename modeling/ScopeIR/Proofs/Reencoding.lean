import ScopeIR.Document.Reader
import ScopeIR.Proofs.Recoding

/-! Documents that are read, written and read again. The second reading says what the first
one did, except that a big integer without digits is written as one that has none. -/
namespace ScopeIR

namespace Document

variable {records : List FunctionRecord} {count : Nat} {file : String}

/-- Calls have a receiver and operands, returns have a value; nothing else is looked at. -/
def InstructionRecord.values (r : InstructionRecord) : List ValueRecord :=
  if r.kind = callKind then r.receiver.toList ++ r.operands
  else if r.kind = returnKind then r.value.toList
  else []

def FunctionRecord.values (r : FunctionRecord) : List ValueRecord :=
  (r.blocks.flatMap (·.instructions)).flatMap InstructionRecord.values

def values (d : Document) : List ValueRecord := d.functions.flatMap FunctionRecord.values

theorem InstructionRecord.Describes.values {r : InstructionRecord} {x : Instruction}
    (h : r.Describes records count x) :
    List.Forall₂ (fun v value => valueOf records v = .ok value) r.values x.values := by
  cases h with
  | @call dest receiver operands kind said received taken =>
    have hvalues : (Instruction.call (locationOf r.loc) dest receiver r.callee
        (operands.map some)).values = receiver.toList ++ operands := by
      cases receiver <;> simp [Instruction.values, List.filterMap_map]
    rw [hvalues, InstructionRecord.values, if_pos kind]
    refine List.rel_append ?_ taken
    generalize r.receiver = said at received
    cases received with
    | none => exact .nil
    | some h => exact .cons h .nil
  | ret kind said returned =>
    have hvalues : r.values = r.value.toList := by
      simp [InstructionRecord.values, kind, callKind, returnKind]
    rw [hvalues, said]
    exact .cons returned .nil
  | branch kind =>
    have hvalues : r.values = [] := by
      simp [InstructionRecord.values, kind, callKind, returnKind, branchKind]
    rw [hvalues]
    exact .nil
  | scope kind =>
    have hvalues : r.values = [] := by
      simp [InstructionRecord.values, kind, callKind, returnKind, scopeStepKind]
    rw [hvalues]
    exact .nil

theorem FunctionRecord.Describes.values {r : FunctionRecord} {f : Function}
    (h : r.Describes file records f) :
    List.Forall₂ (fun v value => valueOf records v = .ok value) r.values
      (f.code.flatMap Instruction.values) :=
  List.rel_flatMap (List.rel_flatMap h.blocks fun _ _ hb => hb.instructions)
    fun _ _ hx => hx.values

theorem FunctionRecord.Describes.whole {r : FunctionRecord} {f : Function}
    (h : r.Describes file records f) : f.Whole where
  indexes i block hb := by
    have hmap : f.blocks.map (·.index) = r.blocks.map (·.index) :=
      map_eq_of_forall₂ (h.blocks.imp fun _ _ hb => hb.index)
    have hi := congrArg (·[i]?) hmap
    simp only [List.getElem?_map, hb, Option.map_some] at hi
    obtain ⟨record, hrecord, hindex⟩ := Option.map_eq_some_iff.mp hi.symm
    exact hindex ▸ h.indexes i record hrecord
  code x hx := by
    have hcode : List.Forall₂ (InstructionRecord.Describes records r.blocks.length)
        (r.blocks.flatMap (·.instructions)) f.code :=
      List.rel_flatMap h.blocks fun _ _ hb => hb.instructions
    obtain ⟨record, -, hd⟩ := exists_of_forall₂_of_mem hcode hx
    rw [← h.blocks.length_eq]
    cases hd with
    | call => simp [Instruction.Whole]
    | ret => exact rfl
    | branch kind said inside => exact ⟨_, _, rfl, rfl, inside⟩
    | scope => trivial

theorem constantLiteral_of_ne {kind : TypeKind} (hk : kind ≠ TypeKind.bigint) {literal : Literal}
    (hl : literal ≠ .null) : constantLiteral kind literal = .ok literal := by
  cases literal with
  | null => exact absurd rfl hl
  | _ => exact if_neg hk

theorem constantLiteral_bigint {literal result : Literal} (hl : literal ≠ .null) :
    constantLiteral TypeKind.bigint literal = .ok result ↔
      ∃ text value, literal = .str text ∧ signedInt? text = some value ∧ result = .big value := by
  cases literal with
  | null => exact absurd rfl hl
  | str text =>
    cases hvalue : signedInt? text with
    | none => simp [constantLiteral, hvalue]
    | some value => simp [constantLiteral, hvalue, eq_comm]
  | _ => simp [constantLiteral]

theorem literalOf_ne_null {literal : Literal} (h : literal ≠ .null) :
    literalOf literal ≠ .null := by
  cases literal <;> simp_all [literalOf]

theorem zeroLiteral_ne_null (kind : TypeKind) : zeroLiteral kind ≠ .null := by
  unfold zeroLiteral
  split
  · simp
  · split <;> simp

theorem literalOf_zeroLiteral (kind : TypeKind) :
    literalOf (zeroLiteral kind) = zeroLiteral kind := by
  unfold zeroLiteral
  split
  · rfl
  · split <;> rfl

theorem constantLiteral_zeroLiteral_bigint (result : Literal) :
    constantLiteral TypeKind.bigint (literalOf (zeroLiteral TypeKind.bigint)) ≠ .ok result := by
  have hblank : signedInt? "" = none := by decide
  intro h
  obtain ⟨text, value, ⟨⟩, hvalue, -⟩ := (constantLiteral_bigint
    (literalOf_ne_null (zeroLiteral_ne_null _))).mp h
  cases hblank.symm.trans hvalue

/-- Any other literal is written and read again as it was read, unless it is a big integer that
passes for something else. -/
theorem constantLiteral_again {kind : TypeKind} {literal result : Literal}
    (h : constantLiteral kind literal = .ok result)
    (hn : ¬(kind = TypeKind.bigint ∧ literal = .null)) :
    ∃ again, constantLiteral kind (literalOf result) = .ok again ∧
      ((∀ i, literal ≠ .big i) → again = result) := by
  by_cases hk : kind = TypeKind.bigint
  · subst hk
    have hl : literal ≠ .null := fun hl => hn ⟨rfl, hl⟩
    obtain ⟨text, value, -, -, rfl⟩ := (constantLiteral_bigint hl).mp h
    refine ⟨.big value, (constantLiteral_bigint (by simp [literalOf])).mpr ?_, fun _ => rfl⟩
    exact ⟨_, value, rfl, signedInt?_toString value, rfl⟩
  · by_cases hl : literal = .null
    · subst hl
      cases h
      rw [literalOf_zeroLiteral]
      exact ⟨_, constantLiteral_of_ne hk (zeroLiteral_ne_null kind), fun _ => rfl⟩
    · cases (constantLiteral_of_ne hk hl).symm.trans h
      refine ⟨_, constantLiteral_of_ne hk (literalOf_ne_null hl), fun hbig => ?_⟩
      cases literal with
      | big value => exact absurd rfl (hbig value)
      | _ => rfl

/-- A big integer whose digits the document leaves out. -/
structure ValueRecord.LacksDigits (v : ValueRecord) : Prop where
  constant : v.kind = constantKind
  bigint : v.type = TypeKind.bigint
  absent : v.literal = .null

theorem ValueRecord.LacksDigits.not_recodes {v : ValueRecord} (h : v.LacksDigits) {value : Value}
    (hv : valueOf records v = .ok value) {definitions : List FunctionDefinition} (value' : Value) :
    ¬value.Recodes definitions value' := by
  obtain ⟨literal, hliteral, rfl⟩ := (valueOf_constant h.constant).mp hv
  rw [h.bigint, h.absent] at hliteral
  cases hliteral
  intro hr
  cases hr with
  | null null =>
    rw [h.bigint] at null
    cases null
  | const typed spelled =>
    rw [h.bigint] at spelled
    exact constantLiteral_zeroLiteral_bigint _ spelled

theorem recodes_linkOf? {id : Id} {signature : String} {link : FunctionLink}
    (h : linkOf? records signature = some link) :
    (Value.func id (some link)).Recodes (records.map (·.definition)) (.func id (some link)) := by
  rw [linkOf?_eq_lastLink] at h
  obtain ⟨-, -, -, rfl, -⟩ := lastLink_eq_some.mp h
  exact .func h

/-- All other values are read again, and look as before. -/
theorem exists_recodes {v : ValueRecord} {value : Value} (hv : valueOf records v = .ok value)
    (hn : ¬v.LacksDigits) : ∃ value', value.Recodes (records.map (·.definition)) value' ∧
      ((∀ i, v.literal ≠ .big i) → value.LooksLike value') := by
  cases valueOf_eq_ok.mp hv with
  | reference => exact ⟨_, .ref, fun _ => ⟨rfl, rfl⟩⟩
  | scope => exact ⟨_, .scope, fun _ => ⟨rfl, rfl⟩⟩
  | function kind found => exact ⟨_, recodes_linkOf? found, fun _ => ⟨rfl, rfl⟩⟩
  | null => exact ⟨_, .null rfl, fun _ => ⟨rfl, rfl⟩⟩
  | @constant literal kind spelled =>
    cases hnull : (Value.const ⟨v.id, literal, .ofKind v.type⟩).isNull with
    | true =>
      refine ⟨_, .null hnull, fun _ => ⟨?_, ?_⟩⟩
      · rw [Value.text, if_pos hnull]
        rfl
      · rw [Stats.isConstant, hnull]
        rfl
    | false =>
      obtain ⟨again, hagain, hsame⟩ := constantLiteral_again spelled fun h => hn ⟨kind, h.1, h.2⟩
      refine ⟨_, .const hnull hagain, fun hbig => ?_⟩
      rw [hsame hbig]
      exact ⟨rfl, rfl⟩

section again

variable {d : Document} {functions : List Function}

theorem whole_of_decode (h : d.decode = .ok functions) : ∀ f ∈ functions, f.Whole := by
  intro f hf
  obtain ⟨r, -, hr⟩ := exists_of_forall₂_of_mem (decode_eq_ok.mp h) hf
  exact hr.whole

theorem definitions_of_decode (h : d.decode = .ok functions) :
    functions.map (·.definition) = d.functions.map (·.definition) :=
  map_eq_of_forall₂ ((decode_eq_ok.mp h).imp fun _ _ hf => hf.definition)

theorem values_of_decode (h : d.decode = .ok functions) :
    List.Forall₂ (fun v value => valueOf d.functions v = .ok value) d.values
      (functions.flatMap fun f => f.code.flatMap Instruction.values) :=
  List.rel_flatMap (decode_eq_ok.mp h) fun _ _ hf => hf.values

theorem exists_mirrors_of_decode (h : d.decode = .ok functions)
    (hn : ∀ v ∈ d.values, ¬v.LacksDigits) : ∃ functions',
      List.Forall₂ (Function.Mirrors (fun value value' =>
        value.Recodes (functions.map (·.definition)) value' ∧
          ((∀ v ∈ d.values, ∀ i, v.literal ≠ .big i) → value.LooksLike value')) d.file)
        functions functions' := by
  rw [definitions_of_decode h]
  refine exists_forall₂ fun f hf => ?_
  refine (whole_of_decode h f hf).exists_mirrors d.file (fun value hvalue => ?_)
    fun closure hc => ?_
  · obtain ⟨v, hv, hread⟩ := exists_of_forall₂_of_mem (values_of_decode h)
      (List.mem_flatMap.mpr ⟨f, hf, hvalue⟩)
    obtain ⟨value', hr, hl⟩ := exists_recodes hread (hn v hv)
    exact ⟨value', hr, fun hbig => hl (hbig v hv)⟩
  · obtain ⟨r, -, hr⟩ := exists_of_forall₂_of_mem (decode_eq_ok.mp h) hf
    obtain ⟨v, -, hread⟩ := exists_of_forall₂_of_mem hr.closures hc
    refine ⟨closure, ?_, fun _ => ⟨rfl, rfl⟩⟩
    obtain ⟨id, link⟩ := closure
    cases valueOf_eq_ok.mp hread with
    | function kind found => exact recodes_linkOf? found

theorem not_lacksDigits_of_mirrors (h : d.decode = .ok functions) {functions' : List Function}
    (hm : List.Forall₂ (Function.Mirrors (Value.Recodes (functions.map (·.definition))) d.file)
      functions functions') : ∀ v ∈ d.values, ¬v.LacksDigits := by
  intro v hv hlacks
  obtain ⟨value, hvalue, hread⟩ := exists_of_forall₂_of_mem (values_of_decode h).flip hv
  obtain ⟨f, hf, hvalue⟩ := List.mem_flatMap.mp hvalue
  obtain ⟨f', -, hmirrors⟩ := exists_of_forall₂_of_mem hm.flip hf
  obtain ⟨value', hr⟩ := hmirrors.exists_of_mem (List.mem_append_left _ hvalue)
  exact hlacks.not_recodes hread value' hr

end again

open Json

theorem exists_read_of_readList {α : Type} {read : History → Outcome α} {history : History}
    {as : List α} (h : readList read history = .ok as) :
    ∀ a ∈ as, ∃ place, read place = .ok a := by
  intro a ha
  obtain ⟨lists, hlists, ⟨⟩⟩ := Outcome.bind_eq_ok.mp h
  cases hlast : lists.getLast? with
  | none =>
    rw [hlast] at ha
    cases ha
  | some last =>
    rw [hlast] at ha
    obtain ⟨run, -, hrun⟩ :=
      exists_of_forall₂_of_mem (Outcome.mapM_eq_ok.mp hlists) (List.mem_of_getLast? hlast)
    simp only [readPlaces, Outcome.bind_eq_ok, Outcome.mapM_eq_ok] at hrun
    obtain ⟨items, -, values, hvalues, ⟨⟩⟩ := hrun
    obtain ⟨place, -, hplace⟩ := exists_of_forall₂_of_mem hvalues (List.mem_of_mem_take ha)
    exact ⟨place, hplace⟩

theorem exists_read_of_readOption {α : Type} {read : History → Outcome α} {history : History}
    {o : Option α} (h : readOption read history = .ok o) :
    ∀ a ∈ o, ∃ place, read place = .ok a := by
  intro a ha
  obtain ⟨values, hvalues, ⟨⟩⟩ := Outcome.bind_eq_ok.mp h
  split at ha
  · cases ha
  · obtain ⟨place, -, hplace⟩ :=
      exists_of_forall₂_of_mem (Outcome.mapM_eq_ok.mp hvalues) (List.mem_of_getLast? ha)
    exact ⟨place, hplace⟩

theorem readLiteral_ne_big {history : History} {literal : Literal}
    (h : readLiteral history = .ok literal) : ∀ i, literal ≠ .big i := by
  refine Outcome.foldlM_ok (P := fun literal => ∀ i, literal ≠ .big i) (by simp)
    (fun current json result _ hstep i => ?_) h
  split at hstep
  · rename_i found hfound
    cases hstep
    rintro rfl
    cases json <;> simp [Literal.ofJson?] at hfound
  · cases hstep

theorem literal_ne_big_of_readValue {history : History} {v : ValueRecord}
    (h : readValue history = .ok v) : ∀ i, v.literal ≠ .big i := by
  simp only [readValue, Outcome.bind_eq_ok] at h
  obtain ⟨members, -, kind, -, id, -, literal, hliteral, type, -, scope, -, function, -, ⟨⟩⟩ := h
  exact readLiteral_ne_big hliteral

theorem literal_ne_big_of_readInstruction {history : History} {r : InstructionRecord}
    (h : readInstruction history = .ok r) : ∀ v ∈ r.values, ∀ i, v.literal ≠ .big i := by
  simp only [readInstruction, Outcome.bind_eq_ok] at h
  obtain ⟨members, -, kind, -, dest, -, receiver, hreceiver, name, -, signature, -, operands,
    hoperands, value, hvalue, target, -, scope, -, loc, -, ⟨⟩⟩ := h
  intro v hv
  have hread : ∃ place, readValue place = .ok v := by
    simp only [InstructionRecord.values] at hv
    split at hv
    · rcases List.mem_append.mp hv with hv | hv
      · exact exists_read_of_readOption hreceiver v (Option.mem_toList.mp hv)
      · exact exists_read_of_readList hoperands v hv
    split at hv
    · exact exists_read_of_readOption hvalue v (Option.mem_toList.mp hv)
    · cases hv
  obtain ⟨place, hplace⟩ := hread
  exact literal_ne_big_of_readValue hplace

theorem literal_ne_big_of_load {text : String} {d : Document} (h : load text = .ok d) :
    ∀ v ∈ d.values, ∀ i, v.literal ≠ .big i := by
  intro v hv
  obtain ⟨r, hr, hvalues⟩ := List.mem_flatMap.mp hv
  obtain ⟨x, hcode, hx⟩ := List.mem_flatMap.mp hvalues
  obtain ⟨block, hb, hblock⟩ := List.mem_flatMap.mp hcode
  simp only [load, Outcome.bind_eq_ok, Outcome.within_eq_ok] at h
  obtain ⟨d', hread, ⟨⟩, -, ⟨⟩⟩ := h
  have hfunctions : ∃ history, readList readFunction history = .ok d.functions := by
    split at hread
    · simp only [read, Outcome.bind_eq_ok] at hread
      obtain ⟨members, -, version, -, file, -, functions, hfunctions, ⟨⟩⟩ := hread
      exact ⟨_, hfunctions⟩
    · cases hread
  obtain ⟨history, hfunctions⟩ := hfunctions
  obtain ⟨place, hplace⟩ := exists_read_of_readList hfunctions r hr
  simp only [readFunction, Outcome.bind_eq_ok] at hplace
  obtain ⟨members, -, name, -, signature, -, parameters, -, blocks, hblocks, closures, -, ⟨⟩⟩ :=
    hplace
  obtain ⟨place, hplace⟩ := exists_read_of_readList hblocks block hb
  simp only [readBlock, Outcome.bind_eq_ok] at hplace
  obtain ⟨members, -, index, -, scope, -, instructions, hinstructions, ⟨⟩⟩ := hplace
  obtain ⟨place, hplace⟩ := exists_read_of_readList hinstructions x hblock
  exact literal_ne_big_of_readInstruction hplace v hx

end Document

open Document

/-- What a document says can be written as a document again. That one is read if and only if no
big integer of the first one lacks its digits, and then text and sizes are as before. This takes
a document that was loaded, or one made by hand without big integers in place of digits. -/
theorem decode_reencoded {d : Document} {functions : List Function}
    (h : d.decode = .ok functions) :
    ∃ d', ofFunctions d.file functions = .ok d' ∧
      ((∃ functions', d'.decode = .ok functions') ↔ ∀ v ∈ d.values, ¬v.LacksDigits) ∧
      ∀ functions', d'.decode = .ok functions' →
        (∃ text, load text = .ok d) ∨ (∀ v ∈ d.values, ∀ i, v.literal ≠ .big i) →
        (∃ text, Function.dumpAll functions' = .ok text ∧ Function.dumpAll functions = .ok text) ∧
          functions'.map Stats.ofFunction = functions.map Stats.ofFunction := by
  obtain ⟨d', hd'⟩ := exists_ofFunctions d.file (whole_of_decode h)
  have hread : ∀ functions', d'.decode = .ok functions' → ∀ v ∈ d.values, ¬v.LacksDigits :=
    fun functions' h' => not_lacksDigits_of_mirrors h ((decode_ofFunctions hd').mp h')
  refine ⟨d', hd', ⟨?_, fun hn => ?_⟩, fun functions' h' hloaded => ?_⟩
  · rintro ⟨functions', h'⟩
    exact hread functions' h'
  · obtain ⟨functions', hm⟩ := exists_mirrors_of_decode h hn
    exact ⟨functions', (decode_ofFunctions hd').mpr
      (hm.imp fun f f' hf => hf.imp fun v _ v' hv => hv.1)⟩
  · have hbig : ∀ v ∈ d.values, ∀ i, v.literal ≠ .big i := by
      rcases hloaded with ⟨text, hload⟩ | hbig
      · exact literal_ne_big_of_load hload
      · exact hbig
    obtain ⟨again, hm⟩ := exists_mirrors_of_decode h (hread functions' h')
    have hsame : d'.decode = .ok again := (decode_ofFunctions hd').mpr
      (hm.imp fun f f' hf => hf.imp fun v _ v' hv => hv.1)
    cases h'.symm.trans hsame
    have hlook := hm.imp fun f f' hf =>
      hf.imp (S := Value.LooksLike) fun v _ v' hv => hv.2 hbig
    exact ⟨Function.dumpAll_of_mirrors hlook (whole_of_decode h),
      map_eq_of_forall₂ (hlook.imp fun f f' hf => hf.stats)⟩

def blankBigint : Document where
  version := currentVersion
  file := "a.js"
  functions := [{
    definition := .user "main" "a.js"
    blocks := [{
      instructions := [{
        kind := returnKind
        value := some { kind := constantKind, id := 1, type := TypeKind.bigint } }] }] }]

theorem decode_reencoded_blankBigint : ∃ functions d', blankBigint.decode = .ok functions ∧
    ofFunctions blankBigint.file functions = .ok d' ∧
      ¬∃ functions', d'.decode = .ok functions' := by
  have h : ∃ functions, blankBigint.decode = .ok functions := ⟨_, rfl⟩
  obtain ⟨functions, h⟩ := h
  obtain ⟨d', hd', hread, -⟩ := decode_reencoded h
  refine ⟨functions, d', h, hd', fun hagain => ?_⟩
  exact hread.mp hagain _ (List.mem_singleton_self _) ⟨rfl, rfl, rfl⟩

end ScopeIR
