import ScopeIR.Proofs.Complete
import ScopeIR.Proofs.DocumentText
import ScopeIR.Proofs.Recoding

/-! Documents of functions. What a document says about the functions of an output is enough to
rebuild them, up to the locations of parameters and blocks, if their signatures differ. -/
namespace ScopeIR

def Location.isPortable (loc : Location) : Bool :=
  isInt64 loc.start.line && isInt64 loc.start.column && isInt64 loc.stop.line &&
    isInt64 loc.stop.column

def Literal.isFinite : Literal → Bool
  | .num x => x.isFinite
  | _ => true

def Value.isPortable : Value → Bool
  | .ref id | .func id _ => isInt64 id
  | .scope id x => isInt64 id && isInt64 x
  | .const c => isInt64 c.id && c.literal.isFinite

/-- A callee that is cut off inside a character has no text. -/
def Instruction.isPortable : Instruction → Bool
  | .call loc dest receiver callee operands =>
    loc.isPortable && isInt64 dest && receiver.all Value.isPortable && !callee.cut &&
      operands.all (·.all Value.isPortable)
  | .ret loc value => loc.isPortable && value.all Value.isPortable
  | .branch loc target => loc.isPortable && target.all (isInt64 ·.index)
  | .scope loc id => loc.isPortable && isInt64 id

def Block.isPortable (block : Block) : Bool :=
  isInt64 block.index && isInt64 block.scope && block.instructions.all Instruction.isPortable

def Function.isPortable (f : Function) : Bool :=
  f.parameters.all (isInt64 ·.id) && f.blocks.all Block.isPortable &&
    f.closures.all (isInt64 ·.1)

/-- What a document keeps: all but the locations of parameters and blocks. -/
def Function.documented (f : Function) : Function :=
  { f with
    parameters := f.parameters.map fun p => { p with location := {} }
    blocks := f.blocks.map fun block => { block with location := {} } }

theorem forall_mem_none {α : Type} (P : α → Prop) : ∀ a ∈ (none : Option α), P a :=
  fun a h => absurd h (Option.not_mem_none a)

theorem forall_mem_some {α : Type} {P : α → Prop} {a : α} (h : P a) : ∀ b ∈ some a, P b := by
  intro b hb
  rwa [← Option.some.inj hb]

variable {file : String} {functions : List Function}

theorem FunctionDefinition.signature_user_inj {name name' : String}
    (h : (user name file).signature = (user name' file).signature) : name = name' :=
  (String.append_right_inj _).mp h

theorem isNull_eq_false {c : Constant} (h : c.IsTyped) : (Value.const c).isNull = false := by
  obtain ⟨id, literal, type⟩ := c
  obtain ⟨-, h⟩ := h
  rw [Value.isNull]
  generalize type.kind = kind at h ⊢
  cases h <;> decide

theorem constantLiteral_literalOf {kind : TypeKind} {literal : Literal} (h : kind.Admits literal) :
    Document.constantLiteral kind (Document.literalOf literal) = .ok literal := by
  cases h with
  | bigint value =>
    simp only [Document.literalOf, Document.constantLiteral, if_true, signedInt?_toString]
  | _ => rfl

theorem recodes_const {definitions : List FunctionDefinition} {c : Constant}
    (h : .const c = Value.null ∨ c.IsTyped) : (Value.const c).Recodes definitions (.const c) := by
  rcases h with h | h
  · rw [h]
    exact .null rfl
  · have hread : (Value.const c).Recodes definitions _ :=
      .const (isNull_eq_false h) (constantLiteral_literalOf h.2)
    rwa [← h.1] at hread

/-- Where signatures differ, every value of an output is read back as it is. -/
theorem Value.Proper.recodes_self {v : Value} (h : v.Proper file functions)
    (hs : (functions.map (·.definition.signature)).Nodup) :
    v.Recodes (functions.map (·.definition)) v := by
  cases v with
  | ref id => exact .ref
  | scope id x => exact .scope
  | const c => exact recodes_const h
  | func id link =>
    obtain ⟨name, position, f, rfl, hf, hd⟩ := h
    refine .func (lastLink_eq_some.mpr ⟨position, rfl, ?_, rfl, ?_⟩)
    · rw [List.getElem?_map, hf, Option.map_some, hd]
    · intro later other hlater hother hsignature
      rw [List.getElem?_map, Option.map_eq_some_iff] at hother
      obtain ⟨g, hg, rfl⟩ := hother
      have hlt : position < (functions.map (·.definition.signature)).length := by
        rw [List.length_map]
        exact (List.getElem?_eq_some_iff.mp hf).1
      refine absurd ((List.getElem?_inj hlt hs).mp ?_) (Nat.ne_of_lt hlater)
      rw [List.getElem?_map, List.getElem?_map, hf, hg, Option.map_some, Option.map_some, hd]
      exact congrArg some hsignature.symm

theorem Value.Proper.exists_recoded_func {id : Id} {link : Option FunctionLink}
    (h : (Value.func id link).Proper file functions)
    (hc : ∀ f ∈ functions, f.Complete file functions) :
    ∃ found, (Value.func id link).Recodes (functions.map (·.definition)) (.func id (some found)) ∧
      (Value.func id link).LooksLike (.func id (some found)) := by
  obtain ⟨name, position, f, rfl, hf, hd⟩ := h
  have hmem : (FunctionDefinition.user name file).signature ∈
      (functions.map (·.definition)).map (·.signature) := by
    rw [List.map_map, ← hd]
    exact List.mem_map_of_mem (List.mem_of_getElem? hf)
  obtain ⟨found, hfound⟩ := exists_lastLink hmem
  refine ⟨found, .func hfound, ?_⟩
  obtain ⟨last, -, hlast, hsignature, -⟩ := lastLink_eq_some.mp hfound
  rw [List.getElem?_map, Option.map_eq_some_iff] at hlast
  obtain ⟨g, hg, hdefinition⟩ := hlast
  have hg := (hc g (List.mem_of_getElem? hg)).definition
  rw [hdefinition] at hg
  rw [hg] at hsignature
  have hsame : found.definition = .user name file := by
    rw [hg, FunctionDefinition.signature_user_inj hsignature]
  exact ⟨by simp only [Value.text, hsame], rfl⟩

theorem Value.Proper.exists_recoded {v : Value} (h : v.Proper file functions)
    (hc : ∀ f ∈ functions, f.Complete file functions) :
    ∃ v', v.Recodes (functions.map (·.definition)) v' ∧ v.LooksLike v' := by
  cases v with
  | ref id => exact ⟨_, .ref, rfl, rfl⟩
  | scope id x => exact ⟨_, .scope, rfl, rfl⟩
  | const c => exact ⟨_, recodes_const h, rfl, rfl⟩
  | func id link =>
    obtain ⟨found, hfound⟩ := h.exists_recoded_func hc
    exact ⟨_, hfound⟩

theorem Instruction.Complete.proper_of_mem {x : Instruction} (h : x.Complete file functions)
    {v : Value} (hv : v ∈ x.values) : v.Proper file functions := by
  cases x with
  | call loc dest receiver callee operands =>
    obtain ⟨rfl, values, rfl, hvalues⟩ := h
    have hv : v ∈ (Instruction.apply loc dest callee values).values := hv
    rw [values_apply] at hv
    exact hvalues v hv
  | ret loc value =>
    obtain ⟨v', rfl, hv'⟩ := h
    rwa [List.mem_singleton.mp hv]
  | branch => cases hv
  | scope => cases hv

theorem Function.Complete.proper_of_mem {f : Function} (h : f.Complete file functions) {v : Value}
    (hv : v ∈ f.values) : v.Proper file functions := by
  rcases List.mem_append.mp hv with hv | hv
  · obtain ⟨x, hx, hv⟩ := List.mem_flatMap.mp hv
    exact (h.code x hx).proper_of_mem hv
  · obtain ⟨closure, hc, rfl⟩ := List.mem_map.mp hv
    exact h.closures closure hc

theorem Function.Complete.whole {f : Function} (h : f.Complete file functions)
    (hl : f.Linear True) : f.Whole where
  indexes _ _ hb := (hl.getElem? hb).1
  code x hx := by
    have hc := h.code x hx
    cases x with
    | call loc dest receiver callee operands =>
      obtain ⟨-, values, rfl, -⟩ := hc
      simp [Instruction.Whole]
    | ret loc value =>
      obtain ⟨v, rfl, -⟩ := hc
      exact rfl
    | branch loc target =>
      obtain ⟨block, hb, hx⟩ := List.mem_flatMap.mp hx
      obtain ⟨j, hj, rfl⟩ := hl.branch_own hb hx
      exact ⟨_, j, rfl, rfl, hj⟩
    | scope => trivial

theorem Instruction.Complete.mirrors_self {R : Value → Value → Prop} {count : Nat}
    {x : Instruction} (h : x.Complete file functions)
    (hb : ∀ loc target, x = .branch loc target → ∃ j < count, target = some (.own j))
    (hr : ∀ v ∈ x.values, R v v) : x.Mirrors R count x := by
  cases x with
  | call loc dest receiver callee operands =>
    obtain ⟨rfl, values, rfl, -⟩ := h
    refine .call .none (List.forall₂_map_left_iff.mpr (List.forall₂_same.mpr fun v hv => ?_))
    exact ⟨v, rfl, hr v (mem_values_call.mpr (.inr (List.mem_map_of_mem hv)))⟩
  | ret loc value =>
    obtain ⟨v, rfl, -⟩ := h
    exact .ret (hr v (List.mem_singleton_self v))
  | branch loc target =>
    obtain ⟨j, hj, rfl⟩ := hb loc target rfl
    exact .branch rfl hj
  | scope => exact .scope

theorem Function.Complete.mirrors_documented {R : Value → Value → Prop} {f : Function}
    (h : f.Complete file functions) (hl : f.Linear True) (hr : ∀ v ∈ f.values, R v v) :
    f.Mirrors R file f.documented where
  indexes := (h.whole hl).indexes
  file := h.file
  definition := rfl
  parameters := rfl
  blocks := by
    refine List.forall₂_map_right_iff.mpr (List.forall₂_same.mpr fun block hb =>
      ⟨rfl, rfl, rfl, List.forall₂_same.mpr fun x hx => ?_⟩)
    refine (h.code x (List.mem_flatMap.mpr ⟨block, hb, hx⟩)).mirrors_self ?_
      fun v hv => hr v (mem_values_of_mem hb hx hv)
    rintro loc target rfl
    exact hl.branch_own hb hx
  closures := List.forall₂_same.mpr fun closure hc => hr _ (mem_values_of_closure hc)

/-- The functions that the document of complete ones is read as look like them. -/
theorem exists_decode_looksLike {d : Document} (hd : Document.ofFunctions file functions = .ok d)
    (hc : ∀ f ∈ functions, f.Complete file functions) (hw : ∀ f ∈ functions, f.Whole) :
    ∃ functions', d.decode = .ok functions' ∧
      List.Forall₂ (Function.Mirrors Value.LooksLike file) functions functions' := by
  obtain ⟨functions', hm⟩ := exists_forall₂ (R := Function.Mirrors
    (fun v v' => v.Recodes (functions.map (·.definition)) v' ∧ v.LooksLike v') file)
    fun f hf => (hw f hf).exists_mirrors file
      (fun v hv => ((hc f hf).proper_of_mem (List.mem_append_left _ hv)).exists_recoded hc)
      fun closure hclosure => by
        obtain ⟨found, hfound⟩ := ((hc f hf).closures closure hclosure).exists_recoded_func hc
        exact ⟨(closure.1, some found), hfound⟩
  refine ⟨functions', (Document.decode_ofFunctions hd).mpr ?_, ?_⟩
  · exact hm.imp fun f f' hf => hf.imp fun v _ v' hv => hv.1
  · exact hm.imp fun f f' hf => hf.imp fun v _ v' hv => hv.2

namespace Document

theorem portable_literalOf {kind : TypeKind} {literal : Literal} (h : kind.Admits literal)
    (hf : literal.isFinite) : (literalOf literal).Portable := by
  cases h with
  | number x => exact hf
  | _ => trivial

theorem portable_valueRecord {v : Value} (hp : v.Proper file functions) (h : v.isPortable) :
    (valueRecord v).Portable := by
  cases v with
  | ref id => exact ⟨h, trivial, forall_mem_none _⟩
  | scope id x =>
    rw [Value.isPortable, Bool.and_eq_true] at h
    exact ⟨h.1, trivial, forall_mem_some h.2⟩
  | func id link => exact ⟨h, trivial, forall_mem_none _⟩
  | const c =>
    rw [Value.isPortable, Bool.and_eq_true] at h
    rcases hp with hnull | htyped
    · rw [hnull]
      exact ⟨by decide, trivial, forall_mem_none _⟩
    · rw [valueRecord, if_neg (Bool.eq_false_iff.mp (isNull_eq_false htyped))]
      exact ⟨h.1, portable_literalOf htyped.2 h.2, forall_mem_none _⟩

theorem portable_spanRecord {loc : Location} (h : loc.isPortable) :
    ∀ span ∈ spanRecord loc, span.Portable := by
  simp only [Location.isPortable, Bool.and_eq_true] at h
  unfold spanRecord
  split
  · exact forall_mem_none _
  · exact forall_mem_some ⟨h.1.1.1, h.1.1.2, h.1.2, h.2⟩

theorem portable_instructionRecord {x : Instruction} {r : InstructionRecord}
    (hr : instructionRecord x = .ok r) (hc : x.Complete file functions) (hp : x.isPortable) :
    r.Portable := by
  cases x with
  | call loc dest receiver callee operands =>
    obtain ⟨rfl, values, rfl, hvalues⟩ := hc
    cases hr
    simp only [Instruction.isPortable, Bool.and_eq_true, Bool.not_eq_true', List.all_map,
      List.all_eq_true, Function.comp_apply, Option.all_some] at hp
    obtain ⟨⟨⟨⟨hloc, hdest⟩, -⟩, hcut⟩, hoperands⟩ := hp
    refine ⟨forall_mem_some hdest, forall_mem_none _, hcut, ?_, forall_mem_none _,
      forall_mem_none _, forall_mem_none _, portable_spanRecord hloc⟩
    simp only [List.map_map, List.forall_mem_map]
    exact fun v hv => portable_valueRecord (hvalues v hv) (hoperands v hv)
  | ret loc value =>
    obtain ⟨v, rfl, hv⟩ := hc
    cases hr
    simp only [Instruction.isPortable, Bool.and_eq_true, Option.all_some] at hp
    exact ⟨forall_mem_none _, forall_mem_none _, rfl, List.forall_mem_nil _,
      forall_mem_some (portable_valueRecord hv hp.2), forall_mem_none _, forall_mem_none _,
      portable_spanRecord hp.1⟩
  | branch loc target =>
    cases target with
    | none => cases hr
    | some target =>
      cases hr
      rw [Instruction.isPortable, Bool.and_eq_true, Option.all_some] at hp
      exact ⟨forall_mem_none _, forall_mem_none _, rfl, List.forall_mem_nil _, forall_mem_none _,
        forall_mem_some hp.2, forall_mem_none _, portable_spanRecord hp.1⟩
  | scope loc id =>
    cases hr
    simp only [Instruction.isPortable, Bool.and_eq_true] at hp
    exact ⟨forall_mem_none _, forall_mem_none _, rfl, List.forall_mem_nil _, forall_mem_none _,
      forall_mem_none _, forall_mem_some hp.2, portable_spanRecord hp.1⟩

theorem portable_blockRecord {block : Block} {r : BlockRecord} (hr : blockRecord block = .ok r)
    (hc : ∀ x ∈ block.instructions, x.Complete file functions) (hp : block.isPortable) :
    r.Portable := by
  obtain ⟨hindex, hscope, hcode⟩ := blockRecord_eq_ok.mp hr
  simp only [Block.isPortable, Bool.and_eq_true, List.all_eq_true] at hp
  refine ⟨hindex ▸ hp.1.1, hscope ▸ hp.1.2, fun record hrecord => ?_⟩
  obtain ⟨x, hx, hrx⟩ := exists_of_forall₂_of_mem hcode hrecord
  exact portable_instructionRecord hrx (hc x hx) (hp.2 x hx)

theorem portable_functionRecord {f : Function} {r : FunctionRecord}
    (hr : functionRecord f = .ok r) (hc : f.Complete file functions) (hp : f.isPortable) :
    r.Portable := by
  obtain ⟨hdefinition, hparameters, hblocks, hclosures⟩ := functionRecord_eq_ok.mp hr
  simp only [Function.isPortable, Bool.and_eq_true, List.all_eq_true] at hp
  refine ⟨?_, ?_, fun record hrecord => ?_, ?_⟩
  · rw [hdefinition, hc.definition]
    rfl
  · rw [hparameters, List.forall_mem_map]
    exact hp.1.1
  · obtain ⟨block, hb, hrb⟩ := exists_of_forall₂_of_mem hblocks hrecord
    exact portable_blockRecord hrb (fun x hx => hc.code x (List.mem_flatMap.mpr ⟨block, hb, hx⟩))
      (hp.1.2 block hb)
  · rw [hclosures, List.forall_mem_map]
    exact fun closure hm => portable_valueRecord (hc.closures closure hm) (hp.2 closure hm)

/-- Complete functions whose numbers can be written have a text, which loads as their
document. -/
theorem load_marshal (hc : ∀ f ∈ functions, f.Complete file functions)
    (hl : ∀ f ∈ functions, f.Linear True) (hp : ∀ f ∈ functions, f.isPortable) :
    ∃ text d, marshal file functions = .ok text ∧ load text = .ok d ∧
      ofFunctions file functions = .ok d := by
  obtain ⟨d, hd⟩ := exists_ofFunctions file fun f hf => (hc f hf).whole (hl f hf)
  obtain ⟨hversion, -, hrecords⟩ := ofFunctions_eq_ok.mp hd
  have hportable : ∀ r ∈ d.functions, r.Portable := by
    intro r hr
    obtain ⟨f, hf, hrf⟩ := exists_of_forall₂_of_mem hrecords hr
    exact portable_functionRecord hrf (hc f hf) (hp f hf)
  obtain ⟨t, ht, hload⟩ := load_render hversion hportable
  refine ⟨t.render, d, ?_, hload, hd⟩
  rw [marshal, hd, Outcome.ok_bind, ht]
  rfl

theorem decode_load (hc : ∀ f ∈ functions, f.Complete file functions)
    (hl : ∀ f ∈ functions, f.Linear True) (hp : ∀ f ∈ functions, f.isPortable)
    (hs : (functions.map (·.definition.signature)).Nodup) :
    ∃ text d, marshal file functions = .ok text ∧ load text = .ok d ∧
      decode d = .ok (functions.map Function.documented) := by
  obtain ⟨text, d, htext, hload, hd⟩ := load_marshal hc hl hp
  refine ⟨text, d, htext, hload, (decode_ofFunctions hd).mpr ?_⟩
  refine List.forall₂_map_right_iff.mpr (List.forall₂_same.mpr fun f hf => ?_)
  exact (hc f hf).mirrors_documented (hl f hf) fun v hv =>
    ((hc f hf).proper_of_mem hv).recodes_self hs

end Document

/-- The document of an output loses nothing but the locations of parameters and blocks: it is
written, loads, and decodes to the functions it was made of, each reference to a function at its
position, if their signatures differ and their integers and numbers can be written. -/
theorem decode_load_marshal {file : String} {hosts : List String} {node : Node}
    {functions : List Function} (h : (lower file hosts node).1 = .ok functions)
    (hs : (functions.map (·.definition.signature)).Nodup)
    (hp : ∀ f ∈ functions, f.isPortable) :
    ∃ text d, Document.marshal file functions = .ok text ∧ Document.load text = .ok d ∧
      d.decode = .ok (functions.map Function.documented) := by
  obtain ⟨_, ⟨p⟩⟩ := exists_programRun h
  exact Document.decode_load p.complete (linear_of_mem p.comesFrom) hp hs

/-- `function f(a, b) { return f(0, -0); } f("", false); f(-9223372036854775809n, null);
f(/x/g, function g() { return 1.5; });` -/
def everyLiteral : Node :=
  .program ⟨⟨1, 0⟩, ⟨2, 38⟩⟩ "script" [
    .functionDeclaration ⟨⟨1, 0⟩, ⟨1, 37⟩⟩ (.identifier {} "f")
      [.identifier ⟨⟨1, 11⟩, ⟨1, 12⟩⟩ "a", .identifier ⟨⟨1, 14⟩, ⟨1, 15⟩⟩ "b"] (.blockStatement {} [
      .returnStatement {} (.call ⟨⟨1, 26⟩, ⟨1, 34⟩⟩ (.identifier {} "f") [
        .literal {} { value := .num .zero },
        .literal {} { value := .num (.ofMagnitude true 0) }] false)]),
    .expressionStatement {} (.call ⟨⟨1, 38⟩, ⟨1, 50⟩⟩ (.identifier {} "f") [
      .literal {} { value := .str "" }, .literal {} { value := .bool false }] false),
    .expressionStatement {} (.call ⟨⟨1, 52⟩, ⟨1, 82⟩⟩ (.identifier {} "f") [
      .literal {} { bigint := "-9223372036854775809" }, .literal {} {}] false),
    .expressionStatement {} (.call ⟨⟨2, 0⟩, ⟨2, 37⟩⟩ (.identifier {} "f") [
      .literal {} { regex := some ⟨"x", "g"⟩ },
      .functionExpression ⟨⟨2, 8⟩, ⟨2, 36⟩⟩ (.identifier {} "g") [] (.blockStatement {} [
        .returnStatement {} (.literal {} { value := .num ⟨0x3FF8000000000000⟩ })])] false)]

theorem decode_load_marshal_everyLiteral : ∃ functions text d,
    (lower "f.js" ["h"] everyLiteral).1 = .ok functions ∧
      functions.map (·.definition.signature) = ["f.js.f", "f.js.main__37", "f.js.main"] ∧
      (∀ f ∈ functions, f.isPortable) ∧ Document.marshal "f.js" functions = .ok text ∧
      Document.load text = .ok d ∧ d.decode = .ok (functions.map Function.documented) := by
  obtain ⟨functions, h, hf⟩ := Outcome.exists_ok (x := (lower "f.js" ["h"] everyLiteral).1)
    (f := fun functions =>
      (functions.map (·.definition.signature), functions.all Function.isPortable))
    (b := (["f.js.f", "f.js.main__37", "f.js.main"], true)) (by decide +kernel)
  rw [Prod.mk.injEq, List.all_eq_true] at hf
  obtain ⟨text, d, hd⟩ := decode_load_marshal h (hf.1 ▸ by decide) hf.2
  exact ⟨functions, text, d, h, hf.1, hf.2, hd⟩

end ScopeIR
