import ScopeIR.Proofs.Reencoding

/-! Documents that can be read are the closed ones: blocks stand where their labels say,
branches lead to blocks that are there, and values refer to functions of the document. Nothing
is missing from what is read, so that it has a text and a document of its own. -/
namespace ScopeIR

def AllDigits (digits : List Char) : Prop := digits ≠ [] ∧ ∀ c ∈ digits, c.isDigit

/-- Decimal digits after an optional sign. -/
def IsDecimal (text : String) : Prop :=
  ∃ digits, AllDigits digits ∧
    (text.toList = digits ∨ text.toList = '+' :: digits ∨ text.toList = '-' :: digits)

theorem natural?_isSome {digits : List Char} : (natural? digits).isSome ↔ AllDigits digits := by
  unfold natural? AllDigits
  cases digits <;> simp

theorem AllDigits.isDigit {c : Char} {digits : List Char} (h : AllDigits (c :: digits)) :
    c.isDigit := h.2 c List.mem_cons_self

theorem signedInt?_isSome {text : String} : (signedInt? text).isSome ↔ IsDecimal text := by
  unfold signedInt? IsDecimal
  split
  · rename_i digits htext
    rw [htext, Option.isSome_map, bind_pure_comp, Option.map_eq_map, Option.isSome_map,
      natural?_isSome]
    constructor
    · intro h
      exact ⟨digits, h, .inr (.inr rfl)⟩
    · rintro ⟨other, h, rfl | heq | heq⟩
      · exact absurd h.isDigit (by decide)
      · cases heq
      · cases heq
        exact h
  · rename_i digits htext
    rw [htext, Option.isSome_map, natural?_isSome]
    constructor
    · intro h
      exact ⟨digits, h, .inr (.inl rfl)⟩
    · rintro ⟨other, h, rfl | heq | heq⟩
      · exact absurd h.isDigit (by decide)
      · cases heq
        exact h
      · cases heq
  · rename_i hminus hplus
    rw [Option.isSome_map, natural?_isSome]
    constructor
    · intro h
      exact ⟨_, h, .inl rfl⟩
    · rintro ⟨other, h, heq | heq | heq⟩
      · rwa [heq]
      · exact absurd heq (hplus other)
      · exact absurd heq (hminus other)

namespace Document

variable {records : List FunctionRecord} {count : Nat} {file : String}

/-- The value can be read in a document that has functions of these signatures. Only the digits
of big integers are looked at. -/
inductive ValueRecord.Closed (signatures : List String) (v : ValueRecord) : Prop
  | reference (kind : v.kind = referenceKind)
  | null (kind : v.kind = nullKind)
  | scope {x : Id} (kind : v.kind = scopeKind) (said : v.scope = some x)
  | function (kind : v.kind = functionKind) (known : v.function ∈ signatures)
  | constant (kind : v.kind = constantKind)
      (spelled : v.type = TypeKind.bigint →
        v.literal = .null ∨ ∃ text, v.literal = .str text ∧ IsDecimal text)

inductive InstructionRecord.Closed (signatures : List String) (count : Nat)
    (r : InstructionRecord) : Prop
  | call {dest : Id} (kind : r.kind = callKind) (said : r.dest = some dest)
      (receives : ∀ v ∈ r.receiver, v.Closed signatures)
      (takes : ∀ v ∈ r.operands, v.Closed signatures)
  | ret {v : ValueRecord} (kind : r.kind = returnKind) (said : r.value = some v)
      (returns : v.Closed signatures)
  | branch {target : Int} (kind : r.kind = branchKind) (said : r.target = some target)
      (inside : 0 ≤ target ∧ target < count)
  | scope {id : Id} (kind : r.kind = scopeStepKind) (said : r.scope = some id)

structure FunctionRecord.Closed (signatures : List String) (r : FunctionRecord) : Prop where
  indexes : ∀ (i : Nat) (block : BlockRecord), r.blocks[i]? = some block → block.index = i
  code : ∀ block ∈ r.blocks, ∀ x ∈ block.instructions, x.Closed signatures r.blocks.length
  closures : ∀ v ∈ r.closures, v.kind = functionKind ∧ v.Closed signatures

def signatures (records : List FunctionRecord) : List String :=
  records.map (·.definition.signature)

def Closed (d : Document) : Prop := ∀ r ∈ d.functions, r.Closed (signatures d.functions)

theorem exists_linkOf? {signature : String} :
    (∃ link, linkOf? records signature = some link) ↔ signature ∈ signatures records := by
  have hmap : signatures records = (records.map (·.definition)).map (·.signature) := by
    rw [signatures, List.map_map]
    rfl
  simp only [linkOf?_eq_lastLink, hmap]
  refine ⟨fun ⟨link, hlink⟩ => ?_, exists_lastLink⟩
  obtain ⟨position, -, hdefinition, hsignature, -⟩ := lastLink_eq_some.mp hlink
  exact hsignature ▸ List.mem_map_of_mem (List.mem_of_getElem? hdefinition)

theorem exists_constantLiteral {kind : TypeKind} {literal : Literal} :
    (∃ result, constantLiteral kind literal = .ok result) ↔ (kind = TypeKind.bigint →
      literal = .null ∨ ∃ text, literal = .str text ∧ IsDecimal text) := by
  by_cases hnull : literal = .null
  · subst hnull
    exact ⟨fun _ _ => .inl rfl, fun _ => ⟨_, rfl⟩⟩
  by_cases hkind : kind = TypeKind.bigint
  · subst hkind
    simp only [constantLiteral_bigint hnull, ← signedInt?_isSome, Option.isSome_iff_exists]
    constructor
    · rintro ⟨_, text, value, rfl, hvalue, rfl⟩ -
      exact .inr ⟨text, rfl, value, hvalue⟩
    · intro h
      obtain ⟨text, rfl, value, hvalue⟩ := (h trivial).resolve_left hnull
      exact ⟨_, text, value, rfl, hvalue, rfl⟩
  · exact ⟨fun _ h => absurd h hkind, fun _ => ⟨_, constantLiteral_of_ne hkind hnull⟩⟩

theorem exists_valueOf {v : ValueRecord} :
    (∃ value, valueOf records v = .ok value) ↔ v.Closed (signatures records) := by
  simp only [valueOf_eq_ok]
  constructor
  · rintro ⟨value, h⟩
    cases h with
    | reference kind => exact .reference kind
    | scope kind said => exact .scope kind said
    | function kind found => exact .function kind (exists_linkOf?.mp ⟨_, found⟩)
    | null kind => exact .null kind
    | constant kind spelled => exact .constant kind (exists_constantLiteral.mp ⟨_, spelled⟩)
  · intro h
    cases h with
    | reference kind => exact ⟨_, .reference kind⟩
    | null kind => exact ⟨_, .null kind⟩
    | scope kind said => exact ⟨_, .scope kind said⟩
    | function kind known =>
      obtain ⟨link, found⟩ := exists_linkOf?.mpr known
      exact ⟨_, .function kind found⟩
    | constant kind spelled =>
      obtain ⟨literal, spelled⟩ := exists_constantLiteral.mpr spelled
      exact ⟨_, .constant kind spelled⟩

theorem exists_forall₂_iff {α β : Type} {R : α → β → Prop} {as : List α} :
    (∃ bs, List.Forall₂ R as bs) ↔ ∀ a ∈ as, ∃ b, R a b := by
  refine ⟨fun ⟨bs, h⟩ a ha => ?_, exists_forall₂⟩
  obtain ⟨b, -, hb⟩ := exists_of_forall₂_of_mem h.flip ha
  exact ⟨b, hb⟩

theorem exists_optionRel_iff {α β : Type} {R : α → β → Prop} {a : Option α} :
    (∃ b, Option.Rel R a b) ↔ ∀ x ∈ a, ∃ y, R x y := by
  cases a with
  | none => exact ⟨fun _ _ h => (Option.not_mem_none _ h).elim, fun _ => ⟨none, .none⟩⟩
  | some a =>
    constructor
    · rintro ⟨b, h⟩ x ⟨⟩
      cases h with
      | some h => exact ⟨_, h⟩
    · intro h
      obtain ⟨b, hb⟩ := h a rfl
      exact ⟨some b, .some hb⟩

theorem exists_instruction {r : InstructionRecord} :
    (∃ x, r.Describes records count x) ↔ r.Closed (signatures records) count := by
  constructor
  · rintro ⟨x, h⟩
    cases h with
    | call kind said received taken =>
      refine .call kind said (fun v hv => exists_valueOf.mp ?_) fun v hv => exists_valueOf.mp ?_
      · exact exists_optionRel_iff.mp ⟨_, received⟩ v hv
      · exact exists_forall₂_iff.mp ⟨_, taken⟩ v hv
    | ret kind said returned => exact .ret kind said (exists_valueOf.mp ⟨_, returned⟩)
    | branch kind said inside =>
      exact .branch kind said ⟨Int.natCast_nonneg _, Int.ofNat_lt.mpr inside⟩
    | scope kind said => exact .scope kind said
  · intro h
    cases h with
    | call kind said receives takes =>
      obtain ⟨receiver, received⟩ :=
        exists_optionRel_iff.mpr fun v hv => exists_valueOf.mpr (receives v hv)
      obtain ⟨operands, taken⟩ :=
        exists_forall₂_iff.mpr fun v hv => exists_valueOf.mpr (takes v hv)
      exact ⟨_, .call kind said received taken⟩
    | ret kind said returns =>
      obtain ⟨value, returned⟩ := exists_valueOf.mpr returns
      exact ⟨_, .ret kind said returned⟩
    | branch kind said inside =>
      obtain ⟨target, rfl⟩ := Int.eq_ofNat_of_zero_le inside.1
      exact ⟨_, .branch kind said (Int.ofNat_lt.mp inside.2)⟩
    | scope kind said => exact ⟨_, .scope kind said⟩

theorem exists_block {r : BlockRecord} : (∃ block, r.Describes records count block) ↔
    ∀ x ∈ r.instructions, x.Closed (signatures records) count := by
  simp only [← exists_instruction, ← exists_forall₂_iff]
  constructor
  · rintro ⟨block, h⟩
    exact ⟨_, h.instructions⟩
  · rintro ⟨code, h⟩
    exact ⟨⟨r.index, r.scope, code, {}⟩, rfl, rfl, rfl, h⟩

theorem exists_closure {v : ValueRecord} : (∃ closure : Id × Option FunctionLink,
      valueOf records v = .ok (.func closure.1 closure.2)) ↔
    v.kind = functionKind ∧ v.Closed (signatures records) := by
  constructor
  · rintro ⟨⟨id, link⟩, h⟩
    refine ⟨?_, exists_valueOf.mp ⟨_, h⟩⟩
    cases valueOf_eq_ok.mp h with
    | function kind found => exact kind
  · rintro ⟨kind, h⟩
    obtain ⟨value, h⟩ := exists_valueOf.mpr h
    obtain ⟨link, -, rfl⟩ := (valueOf_function kind).mp h
    exact ⟨(v.id, some link), h⟩

theorem exists_function {r : FunctionRecord} :
    (∃ f, r.Describes file records f) ↔ r.Closed (signatures records) := by
  constructor
  · rintro ⟨f, h⟩
    refine ⟨h.indexes, fun block hb => exists_block.mp ?_, fun v hv => exists_closure.mp ?_⟩
    · exact exists_forall₂_iff.mp ⟨_, h.blocks⟩ block hb
    · exact exists_forall₂_iff.mp ⟨_, h.closures⟩ v hv
  · intro h
    obtain ⟨blocks, hblocks⟩ :=
      exists_forall₂_iff.mpr fun block hb => exists_block.mpr (h.code block hb)
    obtain ⟨closures, hclosures⟩ :=
      exists_forall₂_iff.mpr fun v hv => exists_closure.mpr (h.closures v hv)
    exact ⟨⟨file, r.definition, _, blocks, closures⟩, h.indexes, rfl, rfl, rfl, hblocks, hclosures⟩

theorem exists_decode {d : Document} : (∃ functions, d.decode = .ok functions) ↔ d.Closed := by
  simp only [decode_eq_ok, exists_forall₂_iff, exists_function]
  rfl

/-- Whatever fails does so for this cause. -/
def FailsBy {α : Type} (cause : Cause) (x : Outcome α) : Prop :=
  ∀ failure, x = .error failure → failure.cause = cause

namespace FailsBy

variable {α β : Type} {cause : Cause}

theorem ok (a : α) : FailsBy cause (.ok a) := fun _ h => by cases h

theorem bind {x : Outcome α} {f : α → Outcome β} (hx : FailsBy cause x)
    (hf : ∀ a, FailsBy cause (f a)) : FailsBy cause (x >>= f) := by
  cases x with
  | error e =>
    rintro failure ⟨⟩
    exact hx e rfl
  | ok a => exact hf a

theorem within {x : Outcome α} (context : String) (hx : FailsBy cause x) :
    FailsBy cause (x.within context) := by
  cases x with
  | error e =>
    rintro failure ⟨⟩
    unfold Failure.within
    split <;> exact hx e rfl
  | ok a => exact .ok a

theorem mapM {f : α → Outcome β} (hf : ∀ a, FailsBy cause (f a)) (as : List α) :
    FailsBy cause (as.mapM f) := by
  induction as with
  | nil => exact .ok []
  | cons a as ih =>
    rw [List.mapM_cons]
    exact (hf a).bind fun _ => ih.bind fun _ => .ok _

theorem option_mapM {f : α → Outcome β} (hf : ∀ a, FailsBy cause (f a)) (a : Option α) :
    FailsBy cause (a.mapM f) := by
  cases a with
  | none => exact .ok none
  | some a =>
    rw [Option.mapM_some]
    exact (hf a).bind fun _ => .ok _

end FailsBy

theorem failsBy_malformed {α : Type} (context : String) :
    FailsBy .malformedDocument (malformed context : Outcome α) := by
  rintro failure ⟨⟩
  rfl

theorem failsBy_constantLiteral (kind : TypeKind) (literal : Literal) :
    FailsBy .malformedDocument (constantLiteral kind literal) := by
  unfold constantLiteral
  split
  · exact .ok _
  · split
    · split
      · split
        · exact .ok _
        · exact failsBy_malformed _
      · exact failsBy_malformed _
    · exact .ok _

theorem failsBy_valueOf (v : ValueRecord) : FailsBy .malformedDocument (valueOf records v) := by
  unfold valueOf
  split
  · exact .ok _
  split
  · split
    · exact .ok _
    · exact failsBy_malformed _
  split
  · split
    · exact .ok _
    · exact failsBy_malformed _
  split
  · exact .ok _
  split
  · exact (failsBy_constantLiteral _ _).bind fun _ => .ok _
  · exact failsBy_malformed _

theorem failsBy_operandsOf (i : Nat) (vs : List ValueRecord) :
    FailsBy .malformedDocument (operandsOf records i vs) := by
  induction vs generalizing i with
  | nil => exact .ok []
  | cons v vs ih => exact ((failsBy_valueOf v).within _).bind fun _ => (ih _).bind fun _ => .ok _

theorem failsBy_instructionOf (r : InstructionRecord) :
    FailsBy .malformedDocument (instructionOf records count r) := by
  simp only [instructionOf]
  split
  · split
    · refine ((FailsBy.option_mapM failsBy_valueOf _).within _).bind fun _ => ?_
      exact (failsBy_operandsOf _ _).bind fun _ => .ok _
    · exact failsBy_malformed _
  split
  · split
    · exact ((failsBy_valueOf _).within _).bind fun _ => .ok _
    · exact failsBy_malformed _
  split
  · split
    · split
      · exact .ok _
      · exact failsBy_malformed _
    · exact failsBy_malformed _
  split
  · split
    · exact .ok _
    · exact failsBy_malformed _
  · exact failsBy_malformed _

theorem failsBy_instructionsOf (block position : Nat) (rs : List InstructionRecord) :
    FailsBy .malformedDocument (instructionsOf records count block position rs) := by
  induction rs generalizing position with
  | nil => exact .ok []
  | cons r rs ih =>
    exact ((failsBy_instructionOf r).within _).bind fun _ => (ih _).bind fun _ => .ok _

theorem failsBy_blocksOf (position : Nat) (rs : List BlockRecord) :
    FailsBy .malformedDocument (blocksOf records count position rs) := by
  induction rs generalizing position with
  | nil => exact .ok []
  | cons r rs ih => exact (failsBy_instructionsOf _ _ _).bind fun _ => (ih _).bind fun _ => .ok _

theorem failsBy_requireIndexes (position : Nat) (rs : List BlockRecord) :
    FailsBy .malformedDocument (requireIndexes position rs) := by
  induction rs generalizing position with
  | nil => exact .ok ()
  | cons r rs ih =>
    rw [requireIndexes]
    split
    · exact ih _
    · exact failsBy_malformed _

theorem failsBy_closureOf (v : ValueRecord) :
    FailsBy .malformedDocument (closureOf records v) := by
  refine ((failsBy_valueOf v).within _).bind fun value => ?_
  cases value with
  | func => exact .ok _
  | _ => exact failsBy_malformed _

theorem failsBy_decode (d : Document) : FailsBy .malformedDocument d.decode := by
  refine FailsBy.mapM (fun r => FailsBy.within _ ?_) _
  refine (failsBy_requireIndexes _ _).bind fun _ => (failsBy_blocksOf _ _).bind fun _ => ?_
  exact (FailsBy.mapM failsBy_closureOf _).bind fun _ => .ok _

inductive ValueRecord.Denotes (functions : List Function) (v : ValueRecord) : Value → Prop
  | reference (kind : v.kind = referenceKind) : Denotes functions v (.ref v.id)
  | null (kind : v.kind = nullKind) : Denotes functions v .null
  | scope {x : Id} (kind : v.kind = scopeKind) (said : v.scope = some x) :
      Denotes functions v (.scope v.id x)
  | function {position : Nat} {f : Function} (kind : v.kind = functionKind)
      (found : functions[position]? = some f) (signed : f.definition.signature = v.function) :
      Denotes functions v (.func v.id (some ⟨f.definition, some position⟩))
  | constant {literal : Literal} (kind : v.kind = constantKind)
      (spelled : constantLiteral v.type v.literal = .ok literal) :
      Denotes functions v (.const ⟨v.id, literal, .ofKind v.type⟩)

/-- The instruction that a record stands for in a function. No operand is missing, and branches
lead to the block that has their target for its index. -/
inductive InstructionRecord.Denotes (functions : List Function) (f : Function)
    (r : InstructionRecord) : Instruction → Prop
  | call {dest : Id} {receiver : Option Value} {operands : List (Option Value)}
      (kind : r.kind = callKind) (said : r.dest = some dest)
      (receives : Option.Rel (ValueRecord.Denotes functions) r.receiver receiver)
      (takes : List.Forall₂ (fun v operand => ∃ value, operand = some value ∧
        v.Denotes functions value) r.operands operands) :
      Denotes functions f r (.call (locationOf r.loc) dest receiver r.callee operands)
  | ret {v : ValueRecord} {value : Value} (kind : r.kind = returnKind) (said : r.value = some v)
      (returns : v.Denotes functions value) :
      Denotes functions f r (.ret (locationOf r.loc) (some value))
  | branch {target : Nat} {block : Block} (kind : r.kind = branchKind)
      (said : r.target = some (target : Int)) (there : f.blocks[target]? = some block)
      (labelled : block.index = target) :
      Denotes functions f r (.branch (locationOf r.loc) (some (.own target)))
  | scope {id : Id} (kind : r.kind = scopeStepKind) (said : r.scope = some id) :
      Denotes functions f r (.scope (locationOf r.loc) id)

structure BlockRecord.Denotes (functions : List Function) (f : Function) (r : BlockRecord)
    (block : Block) : Prop where
  index : block.index = r.index
  scope : block.scope = r.scope
  code : List.Forall₂ (InstructionRecord.Denotes functions f) r.instructions block.instructions

structure FunctionRecord.Denotes (file : String) (functions : List Function) (r : FunctionRecord)
    (f : Function) : Prop where
  file : f.file = file
  definition : f.definition = r.definition
  parameters : f.parameters.map (fun p => (p.id, p.name)) = r.parameters.map fun p => (p.id, p.name)
  blocks : List.Forall₂ (BlockRecord.Denotes functions f) r.blocks f.blocks
  closures : List.Forall₂ (fun v closure => v.Denotes functions (.func closure.1 closure.2))
    r.closures f.closures

section denotes

variable {functions : List Function}
  (hd : functions.map (·.definition) = records.map (·.definition))
include hd

theorem denotes_of_valueOf {v : ValueRecord} {value : Value} (h : valueOf records v = .ok value) :
    v.Denotes functions value := by
  cases valueOf_eq_ok.mp h with
  | reference kind => exact .reference kind
  | scope kind said => exact .scope kind said
  | @function link kind found =>
    rw [linkOf?_eq_lastLink, ← hd] at found
    obtain ⟨position, hposition, hdefinition, hsignature, -⟩ := lastLink_eq_some.mp found
    rw [List.getElem?_map] at hdefinition
    obtain ⟨f, hf, hdefinition⟩ := Option.map_eq_some_iff.mp hdefinition
    obtain ⟨definition, place⟩ := link
    obtain rfl : place = some position := hposition
    obtain rfl : f.definition = definition := hdefinition
    exact .function kind hf hsignature
  | null kind => exact .null kind
  | constant kind spelled => exact .constant kind spelled

theorem denotes_of_instruction {f : Function} (hf : f.Whole) {r : InstructionRecord}
    {x : Instruction} (h : r.Describes records f.blocks.length x) : r.Denotes functions f x := by
  cases h with
  | call kind said received taken =>
    refine .call kind said ?_ ?_
    · generalize r.receiver = receiver at received
      cases received with
      | none => exact .none
      | some h => exact .some (denotes_of_valueOf hd h)
    · rw [List.forall₂_map_right_iff]
      exact taken.imp fun v value h => ⟨value, rfl, denotes_of_valueOf hd h⟩
  | ret kind said returned => exact .ret kind said (denotes_of_valueOf hd returned)
  | branch kind said inside =>
    have hblock := List.getElem?_eq_getElem inside
    exact .branch kind said hblock (hf.indexes _ _ hblock)
  | scope kind said => exact .scope kind said

theorem denotes_of_function {r : FunctionRecord} {f : Function}
    (h : r.Describes file records f) : r.Denotes file functions f where
  file := h.file
  definition := h.definition
  parameters := by
    rw [h.parameters, List.map_map]
    rfl
  blocks := by
    have hlength := h.blocks.length_eq
    refine h.blocks.imp fun record block hb => ⟨hb.index, hb.scope, ?_⟩
    refine hb.instructions.imp fun r x hx => denotes_of_instruction hd h.whole ?_
    rwa [← hlength]
  closures := h.closures.imp fun _ _ hc => denotes_of_valueOf hd hc

end denotes

/-- The documents that can be read are the closed ones, and the others are malformed. What is
read says what the document does: branches lead to blocks of their own function, values refer to
functions that were read, and no value is missing. So it can be printed, written to a document
again, and its blocks are whole: there is nothing else that its readers look at. -/
theorem decode_accepts_closed (d : Document) :
    ((∃ functions, d.decode = .ok functions) ↔ d.Closed) ∧
      (∀ failure, d.decode = .error failure → failure.cause = .malformedDocument) ∧
      ∀ functions, d.decode = .ok functions →
        List.Forall₂ (FunctionRecord.Denotes d.file functions) d.functions functions ∧
        (∀ f ∈ functions, f.Whole) ∧
        (∃ text, Function.dumpAll functions = .ok text) ∧
        ∀ file, ∃ d', ofFunctions file functions = .ok d' := by
  refine ⟨exists_decode, failsBy_decode d, fun functions h => ?_⟩
  have hwhole := whole_of_decode h
  have hread := decode_eq_ok.mp h
  refine ⟨hread.imp fun _ _ hf => denotes_of_function (definitions_of_decode h) hf, hwhole, ?_,
    fun file => exists_ofFunctions file hwhole⟩
  obtain ⟨texts, htexts⟩ := exists_forall₂ fun f hf => (hwhole f hf).exists_dump
  rw [Function.dumpAll, Outcome.mapM_eq_ok.mpr htexts]
  exact ⟨_, rfl⟩

/-- A function that creates itself, calls the object with a big integer, and returns from its
second block. -/
def recursiveDocument : Document where
  file := "loop.js"
  functions := [{
    definition := ⟨"loop", "loop.js:1:loop", false⟩
    parameters := [⟨0, "this"⟩]
    closures := [{ kind := functionKind, id := 1, function := "loop.js:1:loop" }]
    blocks := [
      { index := 0, instructions := [
        { kind := scopeStepKind, scope := some 2 },
        { kind := callKind, dest := some 3, receiver := some { kind := referenceKind },
          operands := [{ kind := functionKind, id := 1, function := "loop.js:1:loop" },
            { kind := constantKind, id := 4, type := TypeKind.bigint, literal := .str "-12" }] },
        { kind := branchKind, target := some 1 }] },
      { index := 1, instructions := [
        { kind := returnKind, value := some { kind := nullKind } }] }] }]

theorem recursiveDocument_closed :
    recursiveDocument.Closed ∧ ∃ functions, recursiveDocument.decode = .ok functions ∧
      ∀ file, ∃ d', ofFunctions file functions = .ok d' := by
  have hdecode : recursiveDocument.decode.isOk = true := by decide +kernel
  obtain ⟨hclosed, -, hread⟩ := decode_accepts_closed recursiveDocument
  cases hfunctions : recursiveDocument.decode with
  | error failure =>
    rw [hfunctions] at hdecode
    cases hdecode
  | ok functions =>
    exact ⟨hclosed.mp ⟨functions, hfunctions⟩, functions, rfl, (hread functions hfunctions).2.2.2⟩

end Document

end ScopeIR
