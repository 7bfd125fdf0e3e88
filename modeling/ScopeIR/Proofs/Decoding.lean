import ScopeIR.Document.ToFunctions
import ScopeIR.Proofs.Outcomes

/-! What documents decode to. Each reader succeeds exactly if the readers of the parts do, and
then gives the whole that is made of their results. -/
namespace ScopeIR

namespace Document

variable {records : List FunctionRecord} {count : Nat}

@[simp] theorem malformed_ne_ok {α : Type} {context : String} {a : α} :
    (malformed context : Outcome α) = .ok a ↔ False := by
  simp [malformed, Outcome.failAt]

inductive ValueRecord.Describes (records : List FunctionRecord) (v : ValueRecord) : Value → Prop
  | reference (kind : v.kind = referenceKind) : Describes records v (.ref v.id)
  | scope {x : Id} (kind : v.kind = scopeKind) (said : v.scope = some x) :
      Describes records v (.scope v.id x)
  | function {link : FunctionLink} (kind : v.kind = functionKind)
      (found : linkOf? records v.function = some link) :
      Describes records v (.func v.id (some link))
  | null (kind : v.kind = nullKind) : Describes records v .null
  | constant {literal : Literal} (kind : v.kind = constantKind)
      (spelled : constantLiteral v.type v.literal = .ok literal) :
      Describes records v (.const ⟨v.id, literal, .ofKind v.type⟩)

theorem valueOf_eq_ok {v : ValueRecord} {value : Value} :
    valueOf records v = .ok value ↔ v.Describes records value := by
  constructor
  · intro h
    rw [valueOf] at h
    split at h
    · rename_i hkind
      cases h
      exact .reference hkind
    split at h
    · rename_i hkind
      split at h
      · rename_i x hx
        cases h
        exact .scope hkind hx
      · simp at h
    split at h
    · rename_i hkind
      split at h
      · rename_i link hlink
        cases h
        exact .function hkind hlink
      · simp at h
    split at h
    · rename_i hkind
      cases h
      exact .null hkind
    split at h
    · rename_i hkind
      obtain ⟨literal, hliteral, ⟨⟩⟩ := Outcome.bind_eq_ok.mp h
      exact .constant hkind hliteral
    · simp at h
  · intro h
    cases h with
    | reference kind => simp [valueOf, kind]
    | scope kind said => simp [valueOf, kind, said, referenceKind, scopeKind]
    | function kind found =>
      simp [valueOf, kind, found, referenceKind, scopeKind, functionKind]
    | null kind => simp [valueOf, kind, referenceKind, scopeKind, functionKind, nullKind]
    | constant kind spelled =>
      simp [valueOf, kind, spelled, referenceKind, scopeKind, functionKind, nullKind, constantKind]

theorem valueOf_function {v : ValueRecord} {value : Value} (h : v.kind = functionKind) :
    valueOf records v = .ok value ↔
      ∃ link, linkOf? records v.function = some link ∧ value = .func v.id (some link) := by
  rw [valueOf_eq_ok]
  constructor
  · intro hd
    cases hd with
    | function kind found => exact ⟨_, found, rfl⟩
    | reference kind => exact absurd (h.symm.trans kind) (by decide)
    | scope kind => exact absurd (h.symm.trans kind) (by decide)
    | null kind => exact absurd (h.symm.trans kind) (by decide)
    | constant kind => exact absurd (h.symm.trans kind) (by decide)
  · rintro ⟨link, found, rfl⟩
    exact .function h found

theorem valueOf_constant {v : ValueRecord} {value : Value} (h : v.kind = constantKind) :
    valueOf records v = .ok value ↔ ∃ literal, constantLiteral v.type v.literal = .ok literal ∧
      value = .const ⟨v.id, literal, .ofKind v.type⟩ := by
  rw [valueOf_eq_ok]
  constructor
  · intro hd
    cases hd with
    | constant kind spelled => exact ⟨_, spelled, rfl⟩
    | reference kind => exact absurd (h.symm.trans kind) (by decide)
    | scope kind => exact absurd (h.symm.trans kind) (by decide)
    | function kind => exact absurd (h.symm.trans kind) (by decide)
    | null kind => exact absurd (h.symm.trans kind) (by decide)
  · rintro ⟨literal, spelled, rfl⟩
    exact .constant h spelled

theorem operandsOf_eq_ok {position : Nat} {vs : List ValueRecord} {values : List Value} :
    operandsOf records position vs = .ok values ↔
      List.Forall₂ (fun v value => valueOf records v = .ok value) vs values := by
  induction vs generalizing position values with
  | nil =>
    rw [operandsOf, List.forall₂_nil_left_iff]
    exact ⟨fun h => (Except.ok.inj h).symm, fun h => h ▸ rfl⟩
  | cons v vs ih =>
    rw [operandsOf, List.forall₂_cons_left_iff]
    simp only [Outcome.bind_eq_ok, Outcome.within_eq_ok, ih]
    constructor
    · rintro ⟨value, hvalue, values, hvalues, ⟨⟩⟩
      exact ⟨value, values, hvalue, hvalues, rfl⟩
    · rintro ⟨value, values, hvalue, hvalues, rfl⟩
      exact ⟨value, hvalue, values, hvalues, rfl⟩

inductive InstructionRecord.Describes (records : List FunctionRecord) (count : Nat)
    (r : InstructionRecord) : Instruction → Prop
  | call {dest : Id} {receiver : Option Value} {operands : List Value} (kind : r.kind = callKind)
      (said : r.dest = some dest)
      (received : Option.Rel (fun v value => valueOf records v = .ok value) r.receiver receiver)
      (taken : List.Forall₂ (fun v value => valueOf records v = .ok value) r.operands operands) :
      Describes records count r
        (.call (locationOf r.loc) dest receiver r.callee (operands.map some))
  | ret {v : ValueRecord} {value : Value} (kind : r.kind = returnKind) (said : r.value = some v)
      (returned : valueOf records v = .ok value) :
      Describes records count r (.ret (locationOf r.loc) (some value))
  | branch {target : Nat} (kind : r.kind = branchKind) (said : r.target = some (target : Int))
      (inside : target < count) :
      Describes records count r (.branch (locationOf r.loc) (some (.own target)))
  | scope {id : Id} (kind : r.kind = scopeStepKind) (said : r.scope = some id) :
      Describes records count r (.scope (locationOf r.loc) id)

section kinds

variable {r : InstructionRecord} {x : Instruction}

theorem describes_call (h : r.kind = callKind) : r.Describes records count x ↔
    ∃ dest receiver operands, r.dest = some dest ∧
      Option.Rel (fun v value => valueOf records v = .ok value) r.receiver receiver ∧
      List.Forall₂ (fun v value => valueOf records v = .ok value) r.operands operands ∧
      x = .call (locationOf r.loc) dest receiver r.callee (operands.map some) := by
  constructor
  · intro hd
    cases hd with
    | call kind said received taken => exact ⟨_, _, _, said, received, taken, rfl⟩
    | ret kind => exact absurd (h.symm.trans kind) (by decide)
    | branch kind => exact absurd (h.symm.trans kind) (by decide)
    | scope kind => exact absurd (h.symm.trans kind) (by decide)
  · rintro ⟨dest, receiver, operands, said, received, taken, rfl⟩
    exact .call h said received taken

theorem describes_ret (h : r.kind = returnKind) : r.Describes records count x ↔
    ∃ v value, r.value = some v ∧ valueOf records v = .ok value ∧
      x = .ret (locationOf r.loc) (some value) := by
  constructor
  · intro hd
    cases hd with
    | call kind => exact absurd (h.symm.trans kind) (by decide)
    | ret kind said returned => exact ⟨_, _, said, returned, rfl⟩
    | branch kind => exact absurd (h.symm.trans kind) (by decide)
    | scope kind => exact absurd (h.symm.trans kind) (by decide)
  · rintro ⟨v, value, said, returned, rfl⟩
    exact .ret h said returned

theorem describes_branch (h : r.kind = branchKind) : r.Describes records count x ↔
    ∃ target : Nat, r.target = some (target : Int) ∧ target < count ∧
      x = .branch (locationOf r.loc) (some (.own target)) := by
  constructor
  · intro hd
    cases hd with
    | call kind => exact absurd (h.symm.trans kind) (by decide)
    | ret kind => exact absurd (h.symm.trans kind) (by decide)
    | branch kind said inside => exact ⟨_, said, inside, rfl⟩
    | scope kind => exact absurd (h.symm.trans kind) (by decide)
  · rintro ⟨target, said, inside, rfl⟩
    exact .branch h said inside

theorem describes_scope (h : r.kind = scopeStepKind) : r.Describes records count x ↔
    ∃ id, r.scope = some id ∧ x = .scope (locationOf r.loc) id := by
  constructor
  · intro hd
    cases hd with
    | call kind => exact absurd (h.symm.trans kind) (by decide)
    | ret kind => exact absurd (h.symm.trans kind) (by decide)
    | branch kind => exact absurd (h.symm.trans kind) (by decide)
    | scope kind said => exact ⟨_, said, rfl⟩
  · rintro ⟨id, said, rfl⟩
    exact .scope h said

end kinds

theorem instructionOf_eq_ok {r : InstructionRecord} {x : Instruction} :
    instructionOf records count r = .ok x ↔ r.Describes records count x := by
  constructor
  · intro h
    simp only [instructionOf] at h
    split at h
    · rename_i hkind
      split at h
      · rename_i dest hdest
        simp only [Outcome.bind_eq_ok, Outcome.within_eq_ok, Outcome.option_mapM_eq_ok,
          operandsOf_eq_ok] at h
        obtain ⟨receiver, hreceiver, operands, hoperands, ⟨⟩⟩ := h
        exact .call hkind hdest hreceiver hoperands
      · simp at h
    split at h
    · rename_i hkind
      split at h
      · rename_i v hv
        simp only [Outcome.bind_eq_ok, Outcome.within_eq_ok] at h
        obtain ⟨value, hvalue, ⟨⟩⟩ := h
        exact .ret hkind hv hvalue
      · simp at h
    split at h
    · rename_i hkind
      split at h
      · rename_i target htarget
        split at h
        · rename_i hrange
          obtain ⟨target, rfl⟩ := Int.eq_ofNat_of_zero_le hrange.1
          cases h
          exact .branch hkind htarget (Int.ofNat_lt.mp hrange.2)
        · simp at h
      · simp at h
    split at h
    · rename_i hkind
      split at h
      · rename_i id hid
        cases h
        exact .scope hkind hid
      · simp at h
    · simp at h
  · intro h
    cases h with
    | call kind said received taken =>
      simp only [instructionOf, kind, if_true, said, Outcome.bind_eq_ok, Outcome.within_eq_ok,
        Outcome.option_mapM_eq_ok, operandsOf_eq_ok]
      exact ⟨_, received, _, taken, rfl⟩
    | ret kind said returned =>
      simp only [instructionOf, kind, said]
      exact Outcome.bind_eq_ok.mpr ⟨_, Outcome.within_eq_ok.mpr returned, rfl⟩
    | @branch target kind said inside =>
      have hrange : 0 ≤ (target : Int) ∧ (target : Int) < count := by omega
      simp [instructionOf, kind, said, hrange, callKind, returnKind, branchKind]
    | scope kind said =>
      simp [instructionOf, kind, said, callKind, returnKind, branchKind, scopeStepKind]

theorem instructionsOf_eq_ok {block position : Nat} {rs : List InstructionRecord}
    {code : List Instruction} : instructionsOf records count block position rs = .ok code ↔
      List.Forall₂ (InstructionRecord.Describes records count) rs code := by
  induction rs generalizing position code with
  | nil =>
    rw [instructionsOf, List.forall₂_nil_left_iff]
    exact ⟨fun h => (Except.ok.inj h).symm, fun h => h ▸ rfl⟩
  | cons r rs ih =>
    rw [instructionsOf, List.forall₂_cons_left_iff]
    simp only [Outcome.bind_eq_ok, Outcome.within_eq_ok, instructionOf_eq_ok, ih]
    constructor
    · rintro ⟨x, hx, code, hcode, ⟨⟩⟩
      exact ⟨x, code, hx, hcode, rfl⟩
    · rintro ⟨x, code, hx, hcode, rfl⟩
      exact ⟨x, hx, code, hcode, rfl⟩

structure BlockRecord.Describes (records : List FunctionRecord) (count : Nat) (r : BlockRecord)
    (block : Block) : Prop where
  index : block.index = r.index
  scope : block.scope = r.scope
  location : block.location = {}
  instructions : List.Forall₂ (InstructionRecord.Describes records count) r.instructions
    block.instructions

theorem blocksOf_eq_ok {position : Nat} {rs : List BlockRecord} {blocks : List Block} :
    blocksOf records count position rs = .ok blocks ↔
      List.Forall₂ (BlockRecord.Describes records count) rs blocks := by
  induction rs generalizing position blocks with
  | nil =>
    rw [blocksOf, List.forall₂_nil_left_iff]
    exact ⟨fun h => (Except.ok.inj h).symm, fun h => h ▸ rfl⟩
  | cons r rs ih =>
    rw [blocksOf, List.forall₂_cons_left_iff]
    simp only [Outcome.bind_eq_ok, instructionsOf_eq_ok, ih]
    constructor
    · rintro ⟨code, hcode, blocks, hblocks, ⟨⟩⟩
      exact ⟨_, blocks, ⟨rfl, rfl, rfl, hcode⟩, hblocks, rfl⟩
    · rintro ⟨⟨index, scope, code, location⟩, blocks, ⟨rfl, rfl, rfl, hcode⟩, hblocks, rfl⟩
      exact ⟨code, hcode, blocks, hblocks, rfl⟩

theorem requireIndexes_eq_ok {position : Nat} {rs : List BlockRecord} :
    requireIndexes position rs = .ok () ↔
      ∀ (i : Nat) (r : BlockRecord), rs[i]? = some r → r.index = (position + i : Nat) := by
  induction rs generalizing position with
  | nil => simp [requireIndexes]
  | cons r rs ih =>
    have hcons : (∀ (i : Nat) (b : BlockRecord), (r :: rs)[i]? = some b →
        b.index = (position + i : Nat)) ↔ r.index = position ∧
          ∀ (i : Nat) (b : BlockRecord), rs[i]? = some b → b.index = (position + 1 + i : Nat) := by
      constructor
      · intro h
        refine ⟨h 0 r rfl, fun i b hb => ?_⟩
        rw [Nat.add_right_comm]
        exact h (i + 1) b hb
      · rintro ⟨hr, h⟩ i b hb
        cases i with
        | zero => exact Option.some.inj hb ▸ hr
        | succ i => exact Nat.add_right_comm position 1 i ▸ h i b hb
    rw [requireIndexes, hcons]
    split
    · rename_i hr
      simp [hr, ih]
    · rename_i hr
      simp [hr]

theorem closureOf_eq_ok {v : ValueRecord} {closure : Id × Option FunctionLink} :
    closureOf records v = .ok closure ↔ valueOf records v = .ok (.func closure.1 closure.2) := by
  simp only [closureOf, Outcome.bind_eq_ok, Outcome.within_eq_ok]
  constructor
  · rintro ⟨value, hvalue, h⟩
    cases value with
    | func id link =>
      cases h
      exact hvalue
    | _ => simp at h
  · intro h
    exact ⟨_, h, rfl⟩

structure FunctionRecord.Describes (file : String) (records : List FunctionRecord)
    (r : FunctionRecord) (f : Function) : Prop where
  indexes : ∀ (i : Nat) (block : BlockRecord), r.blocks[i]? = some block → block.index = i
  file : f.file = file
  definition : f.definition = r.definition
  parameters : f.parameters = r.parameters.map fun p => { id := p.id, name := p.name }
  blocks : List.Forall₂ (BlockRecord.Describes records r.blocks.length) r.blocks f.blocks
  closures : List.Forall₂ (fun v closure => valueOf records v = .ok (.func closure.1 closure.2))
    r.closures f.closures

theorem functionOf_eq_ok {file : String} {r : FunctionRecord} {f : Function} :
    functionOf file records r = .ok f ↔ r.Describes file records f := by
  have hrequired : requireIndexes 0 r.blocks = .ok () ↔
      ∀ (i : Nat) (block : BlockRecord), r.blocks[i]? = some block → block.index = i := by
    simp only [requireIndexes_eq_ok, Nat.zero_add]
  rw [functionOf]
  simp only [Outcome.bind_eq_ok, Outcome.mapM_eq_ok, blocksOf_eq_ok, closureOf_eq_ok]
  constructor
  · rintro ⟨⟨⟩, hindexes, blocks, hblocks, closures, hclosures, ⟨⟩⟩
    rw [hrequired] at hindexes
    exact ⟨hindexes, rfl, rfl, rfl, hblocks, hclosures⟩
  · obtain ⟨file', definition, parameters, blocks, closures⟩ := f
    rintro ⟨hindexes, rfl, rfl, rfl, hblocks, hclosures⟩
    exact ⟨(), hrequired.mpr hindexes, blocks, hblocks, closures, hclosures, rfl⟩

theorem decode_eq_ok {d : Document} {functions : List Function} :
    d.decode = .ok functions ↔
      List.Forall₂ (FunctionRecord.Describes d.file d.functions) d.functions functions := by
  simp only [decode, Outcome.mapM_eq_ok, Outcome.within_eq_ok, functionOf_eq_ok]

end Document

end ScopeIR
