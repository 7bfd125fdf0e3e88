import ScopeIR.Compile
import ScopeIR.Proofs.ParsedTrees

/-! Printing a document. The functions that are read from the document of an output are printed
and counted as those of the output are, whether or not their signatures differ: where several
functions share one, they share the name too. -/
namespace ScopeIR

def Value.integers : Value → List Int
  | .ref id | .func id _ => [id]
  | .scope id x => [id, x]
  | .const c => [c.id]

/-- Those of the values are not among them. -/
def Instruction.integers : Instruction → List Int
  | .call _ dest .. => [dest]
  | .ret .. => []
  | .branch _ target => target.toList.map (·.index)
  | .scope _ id => [id]

def Function.integers (f : Function) : List Int :=
  f.parameters.map (·.id) ++ f.blocks.map (·.index) ++ f.blocks.map (·.scope) ++
    f.code.flatMap Instruction.integers ++ f.values.flatMap Value.integers

theorem Value.isPortable_of_integers {v : Value} (hi : ∀ i ∈ v.integers, isInt64 i)
    (hf : v.From .portable) : v.isPortable := by
  cases v with
  | ref id => exact hi id (List.mem_singleton_self id)
  | func id link => exact hi id (List.mem_singleton_self id)
  | scope id x =>
    rw [isPortable, Bool.and_eq_true]
    exact ⟨hi id (by simp [integers]), hi x (by simp [integers])⟩
  | const c =>
    rw [isPortable, Bool.and_eq_true]
    refine ⟨hi c.id (List.mem_singleton_self _), ?_⟩
    cases hc : c.literal with
    | num x => exact hf.number c x rfl hc
    | _ => rfl

theorem Instruction.isPortable_of_integers {x : Instruction} (hi : ∀ i ∈ x.integers, isInt64 i)
    (hv : ∀ v ∈ x.values, v.isPortable) (hl : x.location.isPortable)
    (hcut : ∀ callee ∈ Stats.callee? x, callee.cut = false) : x.isPortable := by
  cases x with
  | call loc dest receiver callee operands =>
    simp only [isPortable, Bool.and_eq_true, Option.all_eq_true, List.all_eq_true,
      Bool.not_eq_true']
    refine ⟨⟨⟨⟨hl, hi dest (List.mem_singleton_self dest)⟩, fun v h => ?_⟩, hcut callee rfl⟩,
      fun operand ho v h => ?_⟩
    · exact hv v (mem_values_call.mpr (.inl h))
    · exact hv v (mem_values_call.mpr (.inr (h ▸ ho)))
  | ret loc value =>
    rw [isPortable, Bool.and_eq_true, Option.all_eq_true]
    exact ⟨hl, fun v h => hv v (by simp [values, h])⟩
  | branch loc target =>
    rw [isPortable, Bool.and_eq_true, Option.all_eq_true]
    exact ⟨hl, fun link h => hi link.index (by simp [integers, h])⟩
  | scope loc id =>
    rw [isPortable, Bool.and_eq_true]
    exact ⟨hl, hi id (List.mem_singleton_self id)⟩

theorem Function.isPortable_of_integers {f : Function} (hi : ∀ i ∈ f.integers, isInt64 i)
    (hf : f.From .portable)
    (hcut : ∀ callee ∈ f.code.filterMap Stats.callee?, callee.cut = false) : f.isPortable := by
  simp only [integers, List.forall_mem_append, List.forall_mem_map, List.forall_mem_flatMap] at hi
  obtain ⟨⟨⟨⟨hparameters, hindexes⟩, hscopes⟩, hcode⟩, hvalues⟩ := hi
  simp only [isPortable, Bool.and_eq_true, List.all_eq_true, Block.isPortable]
  refine ⟨⟨hparameters, fun block hb => ⟨⟨hindexes block hb, hscopes block hb⟩, ?_⟩⟩, ?_⟩
  · intro x hx
    have hmem : x ∈ f.code := List.mem_flatMap.mpr ⟨block, hb, hx⟩
    refine Instruction.isPortable_of_integers (hcode x hmem) (fun v hv => ?_) (hf x hmem).place
      fun callee hc => hcut callee (List.mem_filterMap.mpr ⟨x, hmem, hc⟩)
    exact Value.isPortable_of_integers (hvalues v (mem_values_of_mem hb hx hv))
      ((hf x hmem).values v hv)
  · intro closure hc
    exact hvalues _ (mem_values_of_closure hc) _ (List.mem_singleton_self _)

theorem exists_lower_of_compile {options : CompileOptions} {file text : String}
    {functions : List Function} (h : (compile options file text).functions = .ok functions) :
    ∃ node, Node.parseProgram text = .ok node ∧
      (lower file options.globals node).1 = .ok functions := by
  unfold compile at h
  split at h
  · cases h
  · rename_i node hnode
    refine ⟨node, Outcome.within_eq_ok.mp hnode, ?_⟩
    dsimp only at h
    split at h
    · cases h
    · rename_i lowered hlowered
      rw [Outcome.within_eq_ok] at hlowered
      rw [hlowered]
      split at h
      · obtain ⟨_, -, ⟨⟩⟩ := Outcome.map_eq_ok.mp h
        rfl
      · exact h

/-- Printing the document of the functions is printing them: the document is written, loads and
decodes, and what it decodes to has the same text, sizes and unreachable blocks. -/
def PrintsAlike (file : String) (functions : List Function) : Prop :=
  ∃ saved d functions', Document.marshal file functions = .ok saved ∧
    Document.load saved = .ok d ∧ d.decode = .ok functions' ∧
    (∃ printed, Function.dumpAll functions' = .ok printed ∧
      Function.dumpAll functions = .ok printed) ∧
    functions'.map Stats.ofFunction = functions.map Stats.ofFunction ∧
    functions'.map Function.unreachable = functions.map Function.unreachable

theorem printsAlike_of_lower {file : String} {hosts : List String} {node : Node}
    {functions : List Function} (h : (lower file hosts node).1 = .ok functions)
    (hp : ∀ f ∈ functions, f.isPortable) : PrintsAlike file functions := by
  obtain ⟨_, ⟨p⟩⟩ := exists_programRun h
  have hl := linear_of_mem p.comesFrom
  have hw : ∀ f ∈ functions, f.Whole := fun f hf => (p.complete f hf).whole (hl f hf)
  obtain ⟨saved, d, hsaved, hload, hd⟩ := Document.load_marshal p.complete hl hp
  obtain ⟨functions', hdecode, hm⟩ := exists_decode_looksLike hd p.complete hw
  exact ⟨saved, d, functions', hsaved, hload, hdecode, Function.dumpAll_of_mirrors hm hw,
    map_eq_of_forall₂ (hm.imp fun f f' hf => hf.stats),
    map_eq_of_forall₂ (hm.imp fun f f' hf => hf.unreachable)⟩

/-- Every lowered program is printed alike from its document, also if functions share a signature,
as long as its numbers are finite, its integers fit 64 bits and no callee is cut off inside a
character. The numbers and places of a program that was read from a text are always fit. -/
theorem dump_decode_load_marshal :
    (∀ file hosts node functions, (lower file hosts node).1 = .ok functions →
      (∀ f ∈ functions, f.isPortable) → PrintsAlike file functions) ∧
    ∀ options file text functions, (compile options file text).functions = .ok functions →
      (∀ f ∈ functions, ∀ i ∈ f.integers, isInt64 i) →
      (∀ f ∈ functions, ∀ callee ∈ f.code.filterMap Stats.callee?, callee.cut = false) →
      PrintsAlike file functions := by
  refine ⟨fun _ _ _ _ => printsAlike_of_lower, fun options file text functions h hi hcut => ?_⟩
  obtain ⟨node, hnode, hlower⟩ := exists_lower_of_compile h
  have hfrom := lower_from hlower (Node.yields_parseProgram text node hnode)
  exact printsAlike_of_lower hlower fun f hf =>
    Function.isPortable_of_integers (hi f hf) (hfrom f hf) (hcut f hf)

/-- `function main() {}`, which shares its signature with the program itself. -/
def mainInside : String :=
  "\x7b\"type\":\"Program\",\"body\":[\x7b\"type\":\"FunctionDeclaration\",\"id\":\x7b\"type\":" ++
    "\"Identifier\",\"name\":\"main\"\x7d,\"body\":\x7b\"type\":\"BlockStatement\"\x7d\x7d]\x7d"

theorem dump_decode_load_marshal_mainInside : ∃ functions saved d functions' printed,
    (compile {} "a.js" mainInside).functions = .ok functions ∧
      functions.map (·.definition.signature) = ["a.js.main", "a.js.main"] ∧
      Document.marshal "a.js" functions = .ok saved ∧ Document.load saved = .ok d ∧
      d.decode = .ok functions' ∧ Function.dumpAll functions' = .ok printed ∧
      Function.dumpAll functions = .ok printed := by
  obtain ⟨functions, h, hf⟩ := Outcome.exists_ok (x := (compile {} "a.js" mainInside).functions)
    (f := fun functions => (functions.map (·.definition.signature),
      functions.all fun f => f.integers.all isInt64,
      functions.all fun f => (f.code.filterMap Stats.callee?).all fun callee => !callee.cut))
    (b := (["a.js.main", "a.js.main"], true, true)) (by decide +kernel)
  simp only [Prod.mk.injEq, List.all_eq_true, Bool.not_eq_true'] at hf
  obtain ⟨saved, d, functions', hsaved, hload, hdecode, ⟨printed, hprinted⟩, -⟩ :=
    dump_decode_load_marshal.2 _ _ _ _ h hf.2.1 hf.2.2
  exact ⟨functions, saved, d, functions', printed, h, hf.1, hsaved, hload, hdecode, hprinted⟩

end ScopeIR
