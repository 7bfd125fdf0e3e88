import ScopeIR.Proofs.Documents
import ScopeIR.Proofs.Naming

/-! Signatures and references. A document refers to functions by their signatures. They identify
the functions of an output if and only if its names differ, and otherwise a reference finds
another function than it was made for. -/
namespace ScopeIR

variable {loose : Prop} {d d' : Draft} {w : Work} {file : String} {hosts : List String}
  {node : Node} {functions functions' : List Function} {result : Compilation}

def Value.link? : Value → Option FunctionLink
  | .func _ link => link
  | _ => none

def Function.links (f : Function) : List FunctionLink := f.values.filterMap Value.link?

theorem Instruction.Mirrors.values {R : Value → Value → Prop} {count : Nat} {x x' : Instruction}
    (h : x.Mirrors R count x') : List.Forall₂ R x.values x'.values := by
  cases h with
  | @call _ _ _ receiver receiver' operands values received taken =>
    have hoperands : List.Forall₂ (Option.Rel R) operands (values.map some) := by
      refine List.forall₂_map_right_iff.mpr (taken.imp fun operand value h => ?_)
      obtain ⟨v, rfl, hv⟩ := h
      exact .some hv
    exact List.rel_filterMap (fun _ _ h => h) (.cons received hoperands)
  | ret returned => exact .cons returned .nil
  | branch => exact .nil
  | scope => exact .nil

theorem Function.Mirrors.values {R : Value → Value → Prop} {f f' : Function}
    (h : f.Mirrors R file f') : List.Forall₂ R f.values f'.values := by
  refine List.rel_append ?_ ?_
  · exact List.rel_flatMap h.code fun _ _ hx => hx.values
  · rw [List.forall₂_map_left_iff, List.forall₂_map_right_iff]
    exact h.closures

/-- The references of a function that is read back are those that its own ones find. -/
theorem Function.Mirrors.links {definitions : List FunctionDefinition} {f f' : Function}
    (h : f.Mirrors (Value.Recodes definitions) file f') (hc : f.Complete file functions) :
    List.Forall₂ (fun link found => lastLink definitions link.definition.signature = some found)
      f.links f'.links := by
  refine List.rel_filterMap (fun _ _ h => h) (h.imp fun v hv v' hr => ?_).values
  have hproper := hc.proper_of_mem hv
  cases hr with
  | func meant =>
    obtain ⟨name, position, g, rfl, -, -⟩ := hproper
    exact .some meant
  | _ => exact .none

theorem eq_iff_of_forall₂ {α : Type} {find : α → Option α} {as bs : List α}
    (h : List.Forall₂ (fun a b => find a = some b) as bs) :
    bs = as ↔ ∀ a ∈ as, find a = some a := by
  induction h with
  | nil => simp
  | @cons a b as bs hab _ ih =>
    rw [List.cons.injEq, List.forall_mem_cons, ih, hab, Option.some.injEq]

def Refers (closures : List (Id × Option FunctionLink)) (position : Nat) : Prop :=
  ∃ id link, (id, some link) ∈ closures ∧ link.position = some position

/-- Each function that a run adds is referred to by the function around it. -/
theorem Run.refers (h : Run loose d w d') {position : Nat}
    (hl : d.state.functions.length ≤ position) (hp : position < d'.state.functions.length) :
    Refers d'.state.frame.closures position ∨
      ∃ f ∈ d'.state.functions, Refers f.closures position := by
  induction h with
  | @trans d d₁ d₂ w w₁ h h₁ ih ih₁ =>
    by_cases hlt : position < d₁.state.functions.length
    · rcases ih hl hlt with ⟨id, link, hm, hlink⟩ | ⟨f, hf, hr⟩
      · exact .inl ⟨id, link, h₁.closures_subset hm, hlink⟩
      · exact .inr ⟨f, h₁.extends.functions.subset hf, hr⟩
    · exact ih₁ (Nat.le_of_not_lt hlt) hp
  | object _ _ ih => exact ih hl hp
  | @block s s₁ w parent kind rest loc opened chain own inner ih =>
    rw [Compilation.closures_leaveBlock]
    exact ih hl hp
  | @function s s₁ w declared code definition params body loc named settled inner ih =>
    have hp : position < (s₁.functions ++ [s₁.frame.finish s₁.file loc]).length := hp
    rw [List.length_append, List.length_singleton] at hp
    rcases Nat.lt_succ_iff_lt_or_eq.mp hp with hlt | rfl
    · rcases ih hl hlt with hr | ⟨f, hf, hr⟩
      · exact .inr ⟨_, List.mem_append_right _ (List.mem_singleton_self _), hr⟩
      · exact .inr ⟨f, List.mem_append_left _ hf, hr⟩
    · exact .inl ⟨_, _, List.mem_append_right _ (List.mem_singleton_self _), rfl⟩
  | _ => exact absurd hp (Nat.not_lt.mpr hl)

theorem ProgramRun.exists_refers (p : ProgramRun loose file hosts node functions result)
    {position : Nat} (h : position + 1 < functions.length) :
    ∃ f ∈ functions, Refers f.closures position := by
  have hstart : (p.seeded.enterMain file p.loc p.prologue).functions = [] := p.seeds.functions
  have hlength : functions.length = p.final.functions.length + 1 :=
    (congrArg List.length p.output).trans List.length_append
  have hlt : position < p.final.functions.length := by omega
  rcases p.run.refers (by rw [hstart]; exact Nat.zero_le _) hlt with hr | ⟨f, hf, hr⟩
  · exact ⟨_, p.mem_functions.mpr (.inr rfl), hr⟩
  · exact ⟨f, p.mem_functions.mpr (.inl hf), hr⟩

theorem nodup_signatures_iff (h : ∀ f ∈ functions, f.Complete file functions) :
    (functions.map (·.definition.signature)).Nodup ↔
      (functions.map (·.definition.name)).Nodup := by
  have hsignatures : functions.map (·.definition.signature) =
      (functions.map (·.definition.name)).map fun name =>
        (FunctionDefinition.user name file).signature := by
    rw [List.map_map]
    exact List.map_congr_left fun f hf => congrArg _ (h f hf).definition
  rw [hsignatures]
  exact List.nodup_map_iff fun _ _ => FunctionDefinition.signature_user_inj

/-- All references find the functions that they were made for if and only if no two functions
have one signature. -/
theorem ProgramRun.links_found_iff (p : ProgramRun loose file hosts node functions result) :
    (∀ f ∈ functions, ∀ link ∈ f.links,
        lastLink (functions.map (·.definition)) link.definition.signature = some link) ↔
      (functions.map (·.definition.signature)).Nodup := by
  constructor
  · intro hfound
    rw [List.nodup_iff_getElem?_ne_getElem?]
    intro i j hij hj heq
    rw [List.length_map] at hj
    obtain ⟨f, hf, id, link, hm, hposition⟩ := p.exists_refers (by omega : i + 1 < _)
    have hlink : link ∈ f.links :=
      List.mem_filterMap.mpr ⟨.func id (some link), Function.mem_values_of_closure hm, rfl⟩
    obtain ⟨position, hp, hdefinition, -, hlast⟩ := lastLink_eq_some.mp (hfound f hf link hlink)
    cases hposition.symm.trans hp
    refine hlast j (functions[j]).definition hij ?_ ?_
    · rw [List.getElem?_map, List.getElem?_eq_getElem hj, Option.map_some]
    · have hsignature := congrArg (Option.map FunctionDefinition.signature) hdefinition
      rw [List.getElem?_map, Option.map_map] at hsignature
      rw [List.getElem?_map, List.getElem?_map, List.getElem?_eq_getElem hj] at heq
      exact Option.some.inj (heq.symm.trans hsignature)
  · intro hs f hf link hlink
    obtain ⟨v, hv, hlink⟩ := List.mem_filterMap.mp hlink
    have hrecodes := ((p.complete f hf).proper_of_mem hv).recodes_self hs
    cases v with
    | func id link' =>
      obtain rfl : link' = some link := hlink
      cases hrecodes with
      | func meant => exact meant
    | _ => cases hlink

/-- The names of an output are `main`, those that functions take from the text of the program,
and generated ones with ids of their own. Signatures are different if and only if the first two
kinds are, without a generated name among them. Then, and only then, every reference to a function
that is read back from the document of the output is the one that was written. -/
theorem signatures_nodup_iff {file : String} {hosts : List String} {node : Node}
    {functions : List Function} (h : (lower file hosts node).1 = .ok functions) :
    ∃ (generated : List (String × Nat)) (d : Document) (functions' : List Function),
      (functions.map (·.definition.name)).Perm
        (mainName :: node.programNames ++ generated.map fun g => generatedName g.1 g.2) ∧
      (generated.map (·.2)).Nodup ∧
      (∀ g ∈ generated, g.1 ∈ functions.map (·.definition.name)) ∧
      ((functions.map (·.definition.signature)).Nodup ↔ (mainName :: node.programNames).Nodup ∧
        ∀ g ∈ generated, generatedName g.1 g.2 ∉ node.programNames) ∧
      Document.ofFunctions file functions = .ok d ∧ d.decode = .ok functions' ∧
      (functions'.flatMap Function.links = functions.flatMap Function.links ↔
        (functions.map (·.definition.signature)).Nodup) := by
  obtain ⟨_, ⟨p⟩⟩ := exists_programRun h
  obtain ⟨generated, hperm, hids, haround⟩ := p.naming
  have hw : ∀ f ∈ functions, f.Whole := fun f hf =>
    (p.complete f hf).whole (linear_of_mem p.comesFrom f hf)
  obtain ⟨d, hd⟩ := Document.exists_ofFunctions file hw
  obtain ⟨functions', hdecode, -⟩ := exists_decode_looksLike hd p.complete hw
  have hlinks := List.rel_flatMap ((List.forall₂_and_left _ _).mpr
    ⟨fun f hf => hf, (Document.decode_ofFunctions hd).mp hdecode⟩)
    fun f f' hf => hf.2.links (p.complete f hf.1)
  refine ⟨generated, d, functions', hperm, hids, haround, ?_, hd, hdecode, ?_⟩
  · rw [nodup_signatures_iff p.complete, hperm.nodup_iff, nodup_names_iff hids]
  · rw [eq_iff_of_forall₂ hlinks, ← p.links_found_iff]
    simp only [List.forall_mem_flatMap]

/-- `function f() { return 1; } function f() { return 2; }` -/
def repeatedDeclaration : Node :=
  .program {} "script" [
    .functionDeclaration {} (.identifier {} "f") [] (.blockStatement {} [
      .returnStatement {} (.literal {} { value := .num .one })]),
    .functionDeclaration {} (.identifier {} "f") [] (.blockStatement {} [
      .returnStatement {} (.literal {} { value := .num ⟨0x4000000000000000⟩ })])]

theorem repeatedDeclaration_not_found : ∃ functions d functions',
    (lower "a.js" [] repeatedDeclaration).1 = .ok functions ∧
      functions.map (·.definition.signature) = ["a.js.f", "a.js.f", "a.js.main"] ∧
      Document.ofFunctions "a.js" functions = .ok d ∧ d.decode = .ok functions' ∧
      functions'.flatMap Function.links ≠ functions.flatMap Function.links := by
  obtain ⟨functions, h, hs⟩ := Outcome.exists_ok (x := (lower "a.js" [] repeatedDeclaration).1)
    (f := fun functions => functions.map (·.definition.signature))
    (b := ["a.js.f", "a.js.f", "a.js.main"]) (by decide +kernel)
  obtain ⟨_, d, functions', -, -, -, -, hd, hdecode, hlinks⟩ := signatures_nodup_iff h
  refine ⟨functions, d, functions', h, hs, hd, hdecode, fun hsame => ?_⟩
  have hnodup := hlinks.mp hsame
  rw [hs] at hnodup
  exact absurd hnodup (by decide)

end ScopeIR
