import ScopeIR.Proofs.Environments
import ScopeIR.Proofs.Identifiers

/-! Where accesses to names end up: the code of each stands in one block of the function it
was lowered in, which belongs to the innermost environment, and what it stores has a meaning
there. -/
namespace ScopeIR

variable {loose : Prop} {d d' : Draft} {a : Access}

structure Draft.Owns (d : Draft) (a : Access) : Prop where
  parameters : a.parameters = d.state.frame.parameters
  code : d.Contains a.code
  environment : a.code ≠ [] → ∃ x, a.scopes.Innermost x ∧ d.Stands x a.code
  stored : ∀ v, a.stored = some v → d.Has v

structure Function.Owns (f : Function) (a : Access) : Prop where
  parameters : a.parameters = f.parameters
  code : ∃ block ∈ f.blocks, a.code <:+: block.instructions
  environment : a.code ≠ [] → ∃ block ∈ f.blocks, a.scopes.Innermost block.scope ∧
    a.code <:+: block.instructions
  stored : ∀ v, a.stored = some v → v.isConstant ∨ v.id ∈ f.defined

def Draft.Keeps (d : Draft) (a : Access) : Prop :=
  d.Owns a ∨ ∃ f ∈ d.state.functions, f.Owns a

theorem Run.keeps_of_keeps {w : Work} (h : Run loose d w d') (hr : Ready d) (hd : d.Anchored)
    (hk : d.Keeps a) : d'.Keeps a := by
  have he := h.extends
  refine hk.imp (fun ho => ⟨ho.parameters.trans he.parameters.symm,
    he.contains hr.blocks _ ho.code, fun hne => ?_, fun v hv => ?_⟩)
    fun ⟨f, hf, ho⟩ => ⟨f, he.functions.subset hf, ho⟩
  · obtain ⟨x, hx, hs⟩ := ho.environment hne
    exact ⟨x, hx, h.stands hr hd hne hs⟩
  · exact he.has hr (ho.stored v hv)

theorem Draft.Owns.finish {s : Compilation} (h : Draft.Owns ⟨s, []⟩ a)
    (hb : s.frame.blocks ≠ []) (file : String) (loc : Location) :
    (s.frame.finish file loc).Owns a where
  parameters := h.parameters
  code := h.code.finish hb file loc
  environment hne := by
    obtain ⟨x, hx, hs⟩ := h.environment hne
    obtain ⟨block, hblock, rfl, hc⟩ := hs.finish hne file loc
    exact ⟨block, hblock, hx, hc⟩
  stored v hv := by
    rw [s.defined_finish]
    exact h.stored v hv

theorem Run.keeps {w : Work} (h : Run loose d w d') (hr : Ready d) (hd : d.Anchored) :
    ∀ a ∈ d'.state.accesses, a ∈ d.state.accesses ∨ d'.Keeps a := by
  induction h with
  | trans h h₁ ih ih₁ =>
    intro a ha
    have hr₁ := h.ready hr
    have hd₁ := h.anchored hr hd
    rcases ih₁ hr₁ hd₁ a ha with ha | hk
    · exact (ih hr hd a ha).imp_right (h₁.keeps_of_keeps hr₁ hd₁)
    · exact .inr hk
  | read s code a parameters chain emitted stored _ =>
    refine List.forall_mem_cons.mpr ⟨.inr (.inl ⟨parameters, .inl emitted.isInfix, fun _ => ?_,
      ?_⟩), fun _ => .inl⟩
    · obtain ⟨x, kind, rest, hx, -⟩ := hr.environment
      exact ⟨x, ⟨kind, rest, chain.trans hx⟩, .inl ⟨emitted.isInfix, kind, rest, hx⟩⟩
    · simp [stored]
  | write s code a owner value has _ parameters chain emitted stored _ =>
    refine List.forall_mem_cons.mpr ⟨.inr (.inl ⟨parameters, .inl emitted.isInfix, fun _ => ?_,
      fun v hv => ?_⟩), fun _ => .inl⟩
    · obtain ⟨x, kind, rest, hx, -⟩ := hr.environment
      have hrecord : (s.scopes.record owner a.name value).chain = s.scopes.chain :=
        ScopeTable.chain_congr rfl fun y _ => s.scopes.kind?_record owner y a.name value
      exact ⟨x, ⟨kind, rest, chain.trans hx⟩, .inl ⟨emitted.isInfix, kind, rest, hrecord.trans hx⟩⟩
    · cases stored.symm.trans hv
      exact has
  | @object s s₁ code code₁ w y kind inner ih =>
    intro a ha
    have hd' : Draft.Anchored ⟨{ s with scopes := s.scopes.push y }, code⟩ :=
      hd.of_blocks rfl (ScopeTable.chain_push_object kind)
    refine (ih (hr.push kind) hd' a ha).imp_right (Or.imp_left fun h => ?_)
    refine ⟨h.parameters, h.code, fun hne => ?_, h.stored⟩
    obtain ⟨x, hx, hs⟩ := h.environment hne
    exact ⟨x, hx, hs.of_code (List.prefix_refl _) rfl (inner.chain_pop kind hr)⟩
  | @block s s₁ w parent kind rest loc opened chain own inner ih =>
    intro a ha
    refine (ih (hr.enterBlock loc parent) (anchored_enterBlock loc parent hr) a ha).imp_right
      (Or.imp_left fun h => ?_)
    refine ⟨h.parameters.trans (Compilation.parameters_leaveBlock _ _).symm,
      Compilation.contains_leaveBlock _ _ h.code, fun hne => ?_, fun v hv => ?_⟩
    · obtain ⟨x, hx, hs⟩ := h.environment hne
      exact ⟨x, hx, hs.leaveBlock hne loc parent⟩
    · rw [Draft.Has, Compilation.defined_leaveBlock]
      exact h.stored v hv
  | @function s s₁ w _ code definition params body loc _ _ inner ih =>
    intro a ha
    have hblocks := inner.extends.blocks (List.cons_ne_nil _ _)
    refine (ih (hr.enter definition params loc) (anchored_enter definition params loc hr.sound) a
      ha).imp_right fun hk => .inr ?_
    rcases hk with h | ⟨f, hf, h⟩
    · exact ⟨_, List.mem_append_right _ List.mem_cons_self, h.finish hblocks s₁.file loc⟩
    · exact ⟨f, List.mem_append_left _ hf, h⟩
  | _ => exact fun _ ha => .inl ha

namespace Lower

theorem identifier_recorded {name : String} {ref : Value} {loc : Location} {s s' : Compilation}
    {e : Lowered} (h : identifier name ref loc s = .ok e s') :
    ⟨name, none, loc, s.frame.parameters, s.scopes, e.code⟩ ∈ s'.accesses := by
  simp only [identifier, recordAccess, bind_eq_ok, get_eq_ok, modify_eq_ok, pure_eq_ok] at h
  obtain ⟨_, _, ⟨rfl, rfl⟩, e, s₁, _, _, _, rfl, rfl, rfl⟩ := h
  exact List.mem_cons_self

theorem assignIdentifier_recorded {name : String} {value ref : Value} {loc : Location}
    {s s' : Compilation} {code : List Instruction}
    (h : assignIdentifier name value ref loc s = .ok code s') :
    ⟨name, some value, loc, s.frame.parameters, s.scopes, code⟩ ∈ s'.accesses := by
  simp only [assignIdentifier, recordAccess, bind_eq_ok, get_eq_ok, modify_eq_ok, pure_eq_ok] at h
  obtain ⟨_, _, ⟨rfl, rfl⟩, code, s₁, _, _, _, rfl, rfl, rfl⟩ := h
  exact List.mem_cons_self

end Lower

theorem Seeded.anchored {file : String} {loc : Location} {hosted : List Constant}
    {s : Compilation} {code : List Instruction} (h : Seeded file loc hosted s code) :
    Draft.Anchored ⟨s.enterMain file loc code, []⟩ :=
  fun _ => ⟨_, _, rfl, .function, s.scopes.chain, (s.enters_enter _ _ _ _).chain h.sound rfl⟩

theorem ProgramRun.exists_owner {file : String} {hosts : List String} {node : Node}
    {functions : List Function} {result : Compilation}
    (p : ProgramRun loose file hosts node functions result) :
    ∀ a ∈ result.accesses, ∃ f ∈ functions, f.Owns a := by
  intro a ha
  have hstart : (p.seeded.enterMain file p.loc p.prologue).accesses = [] := p.seeds.accesses
  have hblocks := p.run.extends.blocks (List.cons_ne_nil _ _)
  rcases p.run.keeps p.seeds.ready p.seeds.anchored a (p.accesses ▸ ha) with ha | h | ⟨f, hf, h⟩
  · simp [hstart] at ha
  · exact ⟨_, p.mem_functions.mpr (.inr rfl), h.finish hblocks file p.loc⟩
  · exact ⟨f, p.mem_functions.mpr (.inl hf), h⟩

end ScopeIR
