import ScopeIR.Document.OfFunctions
import ScopeIR.Proofs.Correspondence
import ScopeIR.Proofs.Decoding
import ScopeIR.Proofs.Numerals

/-! Functions that are made into a document and read back. What comes back mirrors the
functions: values are read from what their records say, and a reference to a function finds
the last one with its signature. -/
namespace ScopeIR

open Document

def lastLink (definitions : List FunctionDefinition) (signature : String) : Option FunctionLink :=
  (definitions.zipIdx.reverse.find? (·.1.signature == signature)).map fun found =>
    ⟨found.1, some found.2⟩

section lastLink

variable {definitions : List FunctionDefinition} {signature : String} {link : FunctionLink}

theorem linkOf?_eq_lastLink (records : List FunctionRecord) (signature : String) :
    linkOf? records signature = lastLink (records.map (·.definition)) signature := by
  have hlookup : linkOf? records signature =
      (records.zipIdx.reverse.find? (·.1.definition.signature == signature)).map
        fun found => ⟨found.1.definition, some found.2⟩ := rfl
  rw [hlookup, lastLink, List.zipIdx_map, ← List.map_reverse, List.find?_map, Option.map_map]
  rfl

theorem lastLink_concat (definition : FunctionDefinition) :
    lastLink (definitions ++ [definition]) signature =
      if definition.signature = signature then some ⟨definition, some definitions.length⟩
      else lastLink definitions signature := by
  rw [lastLink, List.zipIdx_append, List.reverse_append]
  split
  · rename_i h
    simp [h]
  · rename_i h
    simp [h, lastLink]

theorem getElem?_concat_eq_some {α : Type} {as : List α} {a b : α} {i : Nat} :
    (as ++ [a])[i]? = some b ↔ as[i]? = some b ∨ i = as.length ∧ b = a := by
  rw [List.getElem?_append]
  split
  · rename_i hlt
    simp [Nat.ne_of_lt hlt]
  · rename_i hge
    rw [List.getElem?_singleton, List.getElem?_eq_none (Nat.le_of_not_lt hge)]
    have hzero : i - as.length = 0 ↔ i = as.length := by omega
    simp [hzero, eq_comm]

theorem lastLink_eq_some : lastLink definitions signature = some link ↔
    ∃ position, link.position = some position ∧ definitions[position]? = some link.definition ∧
      link.definition.signature = signature ∧ ∀ (later : Nat) (other : FunctionDefinition),
        position < later → definitions[later]? = some other → other.signature ≠ signature := by
  induction definitions using List.reverseRecOn with
  | nil => simp [lastLink]
  | append_singleton definitions definition ih =>
    rw [lastLink_concat]
    simp only [getElem?_concat_eq_some]
    split
    · rename_i hs
      constructor
      · rintro ⟨⟩
        refine ⟨definitions.length, rfl, .inr ⟨rfl, rfl⟩, hs, ?_⟩
        rintro later other hlater (hother | ⟨rfl, -⟩)
        · rw [List.getElem?_eq_none (Nat.le_of_lt hlater)] at hother
          cases hother
        · exact absurd hlater (Nat.lt_irrefl _)
      · rintro ⟨position, hp, hd | ⟨rfl, hd⟩, hsig, hlast⟩
        · have hlt := (List.getElem?_eq_some_iff.mp hd).1
          exact absurd hs (hlast _ _ hlt (.inr ⟨rfl, rfl⟩))
        · obtain ⟨definition', position'⟩ := link
          cases hp
          cases hd
          rfl
    · rename_i hs
      rw [ih]
      constructor
      · rintro ⟨position, hp, hd, hsig, hlast⟩
        refine ⟨position, hp, .inl hd, hsig, ?_⟩
        rintro later other hlater (hother | ⟨-, rfl⟩)
        · exact hlast later other hlater hother
        · exact hs
      · rintro ⟨position, hp, hd | ⟨-, hd⟩, hsig, hlast⟩
        · exact ⟨position, hp, hd, hsig, fun later other hlater hother =>
            hlast later other hlater (.inl hother)⟩
        · exact absurd (hd ▸ hsig) hs

theorem exists_lastLink (h : signature ∈ definitions.map (·.signature)) :
    ∃ link, lastLink definitions signature = some link := by
  induction definitions using List.reverseRecOn with
  | nil => cases h
  | append_singleton definitions definition ih =>
    rw [lastLink_concat]
    split
    · exact ⟨_, rfl⟩
    · rename_i hs
      rw [List.map_append, List.mem_append] at h
      rcases h with h | h
      · exact ih h
      · exact absurd (List.mem_singleton.mp h).symm hs

end lastLink

/-- What a value is read back as, among functions with these definitions. -/
inductive Value.Recodes (definitions : List FunctionDefinition) : Value → Value → Prop
  | ref {id : Id} : Recodes definitions (.ref id) (.ref id)
  | scope {id x : Id} : Recodes definitions (.scope id x) (.scope id x)
  | func {id : Id} {link : Option FunctionLink} {found : FunctionLink}
      (meant : lastLink definitions ((link.map (·.definition.signature)).getD "") = some found) :
      Recodes definitions (.func id link) (.func id (some found))
  | null {c : Constant} (null : (Value.const c).isNull = true) :
      Recodes definitions (.const c) .null
  | const {c : Constant} {literal : Literal} (typed : (Value.const c).isNull = false)
      (spelled : constantLiteral c.type.kind (literalOf c.literal) = .ok literal) :
      Recodes definitions (.const c) (.const ⟨c.id, literal, .ofKind c.type.kind⟩)

namespace Document

variable {records : List FunctionRecord} {count : Nat}

theorem function_valueRecord (id : Id) (link : Option FunctionLink) :
    (valueRecord (.func id link)).function = (link.map (·.definition.signature)).getD "" := by
  cases link <;> rfl

theorem valueOf_valueRecord {v v' : Value} :
    valueOf records (valueRecord v) = .ok v' ↔ v.Recodes (records.map (·.definition)) v' := by
  cases v with
  | ref id =>
    constructor
    · rintro ⟨⟩
      exact .ref
    · rintro ⟨⟩
      rfl
  | scope id x =>
    constructor
    · rintro ⟨⟩
      exact .scope
    · rintro ⟨⟩
      rfl
  | func id link =>
    rw [valueOf_function rfl, function_valueRecord]
    simp only [linkOf?_eq_lastLink]
    constructor
    · rintro ⟨found, meant, rfl⟩
      exact .func meant
    · intro h
      cases h with
      | func meant => exact ⟨_, meant, rfl⟩
  | const c =>
    rw [valueRecord]
    split
    · rename_i hnull
      constructor
      · rintro ⟨⟩
        exact .null hnull
      · intro h
        cases h with
        | null => rfl
        | const typed => exact absurd (hnull.symm.trans typed) (by decide)
    · rename_i hnull
      rw [valueOf_constant rfl]
      constructor
      · rintro ⟨literal, spelled, rfl⟩
        exact .const (Bool.eq_false_iff.mpr hnull) spelled
      · intro h
        cases h with
        | null null => exact absurd null hnull
        | const typed spelled => exact ⟨_, spelled, rfl⟩

theorem valueOf_operandRecord {operand : Option Value} {v' : Value} :
    valueOf records (operandRecord operand) = .ok v' ↔
      ∃ v, operand = some v ∧ v.Recodes (records.map (·.definition)) v' := by
  cases operand with
  | none =>
    have hkind : valueOf records (operandRecord none) =
        malformed ("value kind " ++ Text.quote "<nil>") := rfl
    rw [hkind]
    simp
  | some v => simp [operandRecord, valueOf_valueRecord]

theorem option_rel_map_left {α β γ : Type} {R : β → γ → Prop} {f : α → β} {a : Option α}
    {c : Option γ} : Option.Rel R (a.map f) c ↔ Option.Rel (fun a c => R (f a) c) a c := by
  cases a <;> cases c <;> simp

theorem locationOf_spanRecord (loc : Location) : locationOf (spanRecord loc) = loc := by
  unfold spanRecord
  split
  · rename_i h
    exact h.symm
  · rfl

theorem describes_of_instructionRecord {x x' : Instruction} {r : InstructionRecord}
    (h : instructionRecord x = .ok r) : r.Describes records count x' ↔
      x.Mirrors (Value.Recodes (records.map (·.definition))) count x' := by
  cases x with
  | call loc dest receiver callee operands =>
    cases h
    rw [describes_call rfl]
    simp only [locationOf_spanRecord, List.forall₂_map_left_iff, valueOf_operandRecord,
      option_rel_map_left, valueOf_valueRecord]
    constructor
    · rintro ⟨dest', receiver', values, ⟨⟩, received, taken, rfl⟩
      exact .call received taken
    · intro hm
      cases hm with
      | call received taken => exact ⟨_, _, _, rfl, received, taken, rfl⟩
  | ret loc value =>
    cases h
    rw [describes_ret rfl, locationOf_spanRecord]
    constructor
    · rintro ⟨v, value', ⟨⟩, returned, rfl⟩
      obtain ⟨v, rfl, hv⟩ := valueOf_operandRecord.mp returned
      exact .ret hv
    · intro hm
      cases hm with
      | ret returned => exact ⟨_, _, rfl, valueOf_operandRecord.mpr ⟨_, rfl, returned⟩, rfl⟩
  | branch loc target =>
    cases target with
    | none => cases h
    | some target =>
      cases h
      rw [describes_branch rfl, locationOf_spanRecord]
      constructor
      · rintro ⟨j, labelled, inside, rfl⟩
        exact .branch (Option.some.inj labelled) inside
      · intro hm
        cases hm with
        | branch labelled inside => exact ⟨_, congrArg some labelled, inside, rfl⟩
  | scope loc id =>
    cases h
    rw [describes_scope rfl, locationOf_spanRecord]
    constructor
    · rintro ⟨id', ⟨⟩, rfl⟩
      exact .scope
    · intro hm
      cases hm with
      | scope => exact ⟨_, rfl, rfl⟩

theorem blockRecord_eq_ok {block : Block} {r : BlockRecord} : blockRecord block = .ok r ↔
    r.index = block.index ∧ r.scope = block.scope ∧ List.Forall₂ (fun x record =>
      instructionRecord x = .ok record) block.instructions r.instructions := by
  simp only [blockRecord, Outcome.bind_eq_ok, Outcome.mapM_eq_ok]
  constructor
  · rintro ⟨code, hcode, ⟨⟩⟩
    exact ⟨rfl, rfl, hcode⟩
  · obtain ⟨index, scope, code⟩ := r
    rintro ⟨rfl, rfl, hcode⟩
    exact ⟨code, hcode, rfl⟩

theorem functionRecord_eq_ok {f : Function} {r : FunctionRecord} : functionRecord f = .ok r ↔
    r.definition = f.definition ∧ r.parameters = f.parameters.map (fun p => ⟨p.id, p.name⟩) ∧
      List.Forall₂ (fun block record => blockRecord block = .ok record) f.blocks r.blocks ∧
      r.closures = f.closures.map fun closure => valueRecord (.func closure.1 closure.2) := by
  simp only [functionRecord, Outcome.bind_eq_ok, Outcome.mapM_eq_ok]
  constructor
  · rintro ⟨blocks, hblocks, ⟨⟩⟩
    exact ⟨rfl, rfl, hblocks, rfl⟩
  · obtain ⟨definition, parameters, blocks, closures⟩ := r
    rintro ⟨rfl, rfl, hblocks, rfl⟩
    exact ⟨blocks, hblocks, rfl⟩

theorem ofFunctions_eq_ok {file : String} {functions : List Function} {d : Document} :
    ofFunctions file functions = .ok d ↔ d.version = currentVersion ∧ d.file = file ∧
      List.Forall₂ (fun f record => functionRecord f = .ok record) functions d.functions := by
  simp only [ofFunctions, Outcome.bind_eq_ok, Outcome.mapM_eq_ok]
  constructor
  · rintro ⟨records, hrecords, ⟨⟩⟩
    exact ⟨rfl, rfl, hrecords⟩
  · obtain ⟨version, file', records⟩ := d
    rintro ⟨rfl, rfl, hrecords⟩
    exact ⟨records, hrecords, rfl⟩

theorem describes_of_blockRecord {block block' : Block} {r : BlockRecord}
    (h : blockRecord block = .ok r) : r.Describes records count block' ↔
      block.Mirrors (Value.Recodes (records.map (·.definition))) count block' := by
  obtain ⟨hindex, hscope, hcode⟩ := blockRecord_eq_ok.mp h
  have hmirrors : List.Forall₂ (InstructionRecord.Describes records count) r.instructions
        block'.instructions ↔ List.Forall₂
      (Instruction.Mirrors (Value.Recodes (records.map (·.definition))) count) block.instructions
        block'.instructions := by
    refine forall₂_congr_of_forall₂ hcode fun x record hx x' => ?_
    exact describes_of_instructionRecord hx
  constructor
  · rintro ⟨index, scope, location, instructions⟩
    exact ⟨index.trans hindex, scope.trans hscope, location, hmirrors.mp instructions⟩
  · rintro ⟨index, scope, location, instructions⟩
    exact ⟨index.trans hindex.symm, scope.trans hscope.symm, location, hmirrors.mpr instructions⟩

theorem describes_of_functionRecord {file : String} {f f' : Function} {r : FunctionRecord}
    (h : functionRecord f = .ok r) : r.Describes file records f' ↔
      f.Mirrors (Value.Recodes (records.map (·.definition))) file f' := by
  obtain ⟨hdefinition, hparameters, hblocks, hclosures⟩ := functionRecord_eq_ok.mp h
  have hlength := hblocks.length_eq
  have hmirrors : List.Forall₂ (BlockRecord.Describes records f.blocks.length) r.blocks f'.blocks ↔
      List.Forall₂ (Block.Mirrors (Value.Recodes (records.map (·.definition))) f.blocks.length)
        f.blocks f'.blocks := by
    refine forall₂_congr_of_forall₂ hblocks fun block record hb block' => ?_
    exact describes_of_blockRecord hb
  have hfound : ∀ closures', List.Forall₂ (fun v closure =>
        valueOf records v = .ok (.func closure.1 closure.2)) r.closures closures' ↔
      List.Forall₂ (fun closure closure' : Id × Option FunctionLink =>
        Value.Recodes (records.map (·.definition)) (.func closure.1 closure.2)
          (.func closure'.1 closure'.2)) f.closures closures' := by
    intro closures'
    rw [hclosures, List.forall₂_map_left_iff]
    simp only [valueOf_valueRecord]
  have hindexes : (∀ (i : Nat) (block : BlockRecord), r.blocks[i]? = some block →
        block.index = i) ↔
      ∀ (i : Nat) (block : Block), f.blocks[i]? = some block → block.index = i := by
    have hmap : r.blocks.map (·.index) = f.blocks.map (·.index) :=
      map_eq_of_forall₂ (hblocks.imp fun block record hb => (blockRecord_eq_ok.mp hb).1)
    have hrecords := congrArg (fun indexes => ∀ (i : Nat) (index : Int),
      indexes[i]? = some index → index = i) hmap
    simpa using hrecords
  constructor
  · rintro ⟨indexes, file, definition, parameters, blocks, closures⟩
    rw [← hlength] at blocks
    refine ⟨hindexes.mp indexes, file, definition.trans hdefinition, ?_, hmirrors.mp blocks,
      (hfound _).mp closures⟩
    rw [parameters, hparameters, List.map_map]
    rfl
  · rintro ⟨indexes, file, definition, parameters, blocks, closures⟩
    refine ⟨hindexes.mpr indexes, file, definition.trans hdefinition.symm, ?_, ?_,
      (hfound _).mpr closures⟩
    · rw [parameters, hparameters, List.map_map]
      rfl
    · rw [← hlength]
      exact hmirrors.mpr blocks

/-- The document of some functions is read as their mirrors. -/
theorem decode_ofFunctions {file : String} {functions functions' : List Function} {d : Document}
    (h : ofFunctions file functions = .ok d) : d.decode = .ok functions' ↔
      List.Forall₂ (Function.Mirrors (Value.Recodes (functions.map (·.definition))) file)
        functions functions' := by
  obtain ⟨-, rfl, hrecords⟩ := ofFunctions_eq_ok.mp h
  have hdefinitions : d.functions.map (·.definition) = functions.map (·.definition) :=
    map_eq_of_forall₂ (hrecords.imp fun f record hf => (functionRecord_eq_ok.mp hf).1)
  rw [decode_eq_ok, ← hdefinitions]
  refine forall₂_congr_of_forall₂ hrecords fun f record hf f' => ?_
  exact describes_of_functionRecord hf

theorem exists_ofFunctions (file : String) {functions : List Function}
    (h : ∀ f ∈ functions, f.Whole) : ∃ d, ofFunctions file functions = .ok d := by
  have hrecords : ∃ records,
      List.Forall₂ (fun f record => functionRecord f = .ok record) functions records := by
    refine exists_forall₂ fun f hf => ?_
    have hblocks : ∃ blocks,
        List.Forall₂ (fun block record => blockRecord block = .ok record) f.blocks blocks := by
      refine exists_forall₂ fun block hb => ?_
      have hcode : ∃ code,
          List.Forall₂ (fun x record => instructionRecord x = .ok record)
            block.instructions code := by
        refine exists_forall₂ fun x hx => ?_
        have hx := (h f hf).code x (List.mem_flatMap.mpr ⟨block, hb, hx⟩)
        cases x with
        | branch loc target =>
          obtain ⟨link, j, rfl, -, -⟩ := hx
          exact ⟨_, rfl⟩
        | _ => exact ⟨_, rfl⟩
      obtain ⟨code, hcode⟩ := hcode
      exact ⟨⟨block.index, block.scope, code⟩, blockRecord_eq_ok.mpr ⟨rfl, rfl, hcode⟩⟩
    obtain ⟨blocks, hblocks⟩ := hblocks
    exact ⟨⟨f.definition, _, blocks, _⟩, functionRecord_eq_ok.mpr ⟨rfl, rfl, hblocks, rfl⟩⟩
  obtain ⟨records, hrecords⟩ := hrecords
  exact ⟨⟨currentVersion, file, records⟩, ofFunctions_eq_ok.mpr ⟨rfl, rfl, hrecords⟩⟩

end Document

end ScopeIR
