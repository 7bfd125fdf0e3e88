import ScopeIR.Proofs.Ready
import ScopeIR.Proofs.Success

namespace ScopeIR

variable {loose : Prop} {s s' : Compilation} {code : List Instruction} {ref : Value}

/-- Names are read from the scope on top of the stack, which `ref` denotes. -/
structure Sited (ref : Value) (d : Draft) : Prop where
  ready : Ready d
  top : ∃ x rest, d.state.scopes.stack = x :: rest ∧ ref = .ofScope x

theorem Run.sited {d d' : Draft} {w : Work} (h : Run loose d w d') (hs : Sited ref d) :
    Sited ref d' where
  ready := h.ready hs.ready
  top := by
    rw [h.extends.stack]
    exact hs.top

/-- The value is at hand and denotes no environment. -/
structure Draft.Yields (d : Draft) (value : Value) : Prop where
  has : d.Has value
  tame : d.state.Tame value

theorem Draft.Yields.usable {d : Draft} {value : Value} (h : d.Yields value) : d.Usable value :=
  ⟨.inl h.has, h.tame.proper, h.tame.bound⟩

theorem Extends.yields {d d' : Draft} (he : Extends d d') (hr : Ready d) {value : Value}
    (h : d.Yields value) : d'.Yields value :=
  ⟨he.has hr h.has, he.tame hr h.tame⟩

theorem Draft.yields_const (d : Draft) {c : Constant} (h : c.IsTyped)
    (hb : c.id < d.state.scopes.next) : d.Yields (.const c) :=
  ⟨.inl rfl, .inr h, trivial, hb⟩

theorem Draft.yields_null (d : Draft) : d.Yields .null :=
  ⟨.inl rfl, .inl rfl, trivial, Int.lt_of_lt_of_le (by decide) (Int.natCast_nonneg _)⟩

theorem Draft.has_apply (s : Compilation) (code : List Instruction) (loc : Location) (id : Id)
    (callee : FunctionDefinition) (operands : List Value) {value : Value} (h : value.id = id) :
    Draft.Has ⟨s, code ++ [.apply loc id callee operands]⟩ value := by
  refine .inr (Draft.mem_defined.mpr (.inr ⟨.apply loc id callee operands, ?_, ?_⟩))
  · simp [Draft.body]
  · rw [h]
    rfl

theorem Ready.kind?_next {d : Draft} (hr : Ready d) :
    d.state.scopes.kind? d.state.scopes.next = none := by
  cases hk : d.state.scopes.kind? d.state.scopes.next with
  | none => rfl
  | some kind => exact absurd (hr.sound.ids _ kind hk) (Int.lt_irrefl _)

theorem Ready.tame_next (hr : Ready ⟨s, code⟩) : s.spend.Tame (.ref s.scopes.next) where
  proper := trivial
  scope := ⟨Int.ofNat_lt.mpr (Nat.lt_succ_self _), hr.kind?_next⟩
  bound := Int.ofNat_lt.mpr (Nat.lt_succ_self _)

theorem FunctionDefinition.setField_inj {a b : String} (h : setField a = setField b) : a = b := by
  have h := congrArg FunctionDefinition.name h
  simpa [setField, primitive, String.ext_iff] using h

theorem getField_ne_setField (a b : String) :
    FunctionDefinition.getField a ≠ FunctionDefinition.setField b := by
  intro h
  have h := congrArg (fun d => d.name.toList) h
  simp [FunctionDefinition.getField, FunctionDefinition.setField, FunctionDefinition.primitive,
    FunctionDefinition.getFieldName, FunctionDefinition.setFieldName] at h

/-- Only references to environments link them, and no value that is computed is one. -/
theorem not_linksScope {t : ScopeTable} {callee : FunctionDefinition} {value : Value}
    {operands : List Value} (h : t.Tame value) : ¬ LinksScope t callee (value :: operands) := by
  rintro ⟨x, _, _, ho, hk⟩
  cases ho
  rcases h with h | h
  · simp [h] at hk
  · simp [h] at hk

theorem target_of_tame {t : ScopeTable} {value : Value} {scope : Scope} (h : t.Tame value)
    (hs : t.scopeOf? value = some scope) :
    t.kind? scope.id = some .object ∨ t.kind? scope.id = some .global := by
  cases value with
  | const c => cases hs
  | scope id x =>
    rw [ScopeTable.scope?_id hs]
    exact h
  | ref id =>
    have hk := ScopeTable.kind?_of_scope? (ScopeTable.scope?_of_registered hs)
    simp [h.2] at hk
  | func id link =>
    have hk := ScopeTable.kind?_of_scope? (ScopeTable.scope?_of_registered hs)
    simp [h.1.2] at hk

namespace Sited

theorem current (hs : Sited ref ⟨s, code⟩) :
    ∃ scope, s.scopes.current? = some scope ∧ s.scopes.scopeOf? ref = some scope := by
  obtain ⟨x, rest, hstack, rfl⟩ := hs.top
  have hx : x ∈ s.scopes.stack := hstack ▸ List.mem_cons_self
  obtain ⟨kind, hk⟩ := hs.ready.sound.stack x hx
  obtain ⟨scope, hscope, _⟩ := ScopeTable.scope?_of_kind? hk
  exact ⟨scope, ScopeTable.current?_of_stack hstack hscope, hscope⟩

theorem environment (hs : Sited ref ⟨s, code⟩) :
    ∃ scope, s.scopes.environment? = some scope ∧ Draft.Usable ⟨s, code⟩ scope.value ∧
      s.scopes.IsLocal scope.id ∧ s.scopes.Innermost scope.id := by
  obtain ⟨x, kind, rest, hc, hx, hl⟩ := hs.ready.environment
  obtain ⟨scope, hscope, rfl, _⟩ := ScopeTable.environment?_of_chain hc
  exact ⟨scope, hscope, ⟨.inl (.inr hx), trivial, hs.ready.defined _ hx⟩, hl, kind, rest, hc⟩

end Sited

namespace Lower

theorem isLexical_eq_ok {b : Bool} (hs : Sited ref ⟨s, code⟩) (h : isLexical ref s = .ok b s') :
    b = true ∧ s = s' := by
  obtain ⟨scope, hc, hr⟩ := hs.current
  simp only [isLexical, scopeOf?, bind_eq_ok, get_eq_ok, pure_eq_ok] at h
  obtain ⟨_, _, ⟨_, _, ⟨rfl, rfl⟩, rfl, rfl⟩, _, _, ⟨rfl, rfl⟩, rfl, rfl⟩ := h
  simp [hc, hr]

section Reads

variable (loose)

theorem chain_run {loc : Location} {links : Nat} {object last : Value}
    {path : List Instruction} (hs : Sited ref ⟨s, code⟩) (ho : Draft.Usable ⟨s, code⟩ object)
    (h : chain loc links object s = .ok (path, last) s') :
    Run loose ⟨s, code⟩ {} ⟨s', code ++ path⟩ ∧ ParentPath loc links object path last ∧
      Draft.Usable ⟨s', code ++ path⟩ last ∧ s'.scopes.scope? = s.scopes.scope? := by
  induction links generalizing s code object path with
  | zero =>
    simp only [chain, pure_eq_ok, Prod.mk.injEq] at h
    obtain ⟨⟨rfl, rfl⟩, rfl⟩ := h
    rw [List.append_nil]
    exact ⟨.refl _, .here object, ho, rfl⟩
  | succ links ih =>
    simp only [chain, bind_eq_ok, fresh_eq_ok, pure_eq_ok, Prod.exists, Prod.mk.injEq] at h
    obtain ⟨_, s₁, ⟨rfl, rfl⟩, path, last, _, h, ⟨rfl, rfl⟩, rfl⟩ := h
    have hcall : Run loose ⟨s, code⟩ {} ⟨s.spend, code ++
        [.apply loc s.scopes.next (.getField parentName) [object]]⟩ := by
      refine .call s code loc _ _ (.getField _ _) (fun v hv => List.mem_singleton.mp hv ▸ ho) ?_
      · rintro ⟨_, _, hc, _⟩
        exact absurd hc (getField_ne_setField _ _)
    have hlink : Draft.Usable ⟨s.spend, code ++
        [.apply loc s.scopes.next (.getField parentName) [object]]⟩ (.ref s.scopes.next) :=
      ⟨.inl (Draft.has_apply _ _ _ _ _ _ rfl), trivial, Int.ofNat_lt.mpr (Nat.lt_succ_self _)⟩
    obtain ⟨hrun, hpath, hlast, hscopes⟩ := ih (hcall.sited hs) hlink h
    rw [List.append_assoc] at hrun hlast
    exact ⟨hcall.trans hrun, .up hpath, hlast, hscopes⟩

theorem resolve_eq_ok {name : String} {owner : Scope} {links : Nat}
    (h : resolve name s = .ok (owner, links) s') : s = s' ∧ owner ∈ s.scopes.environments ∧
      links = (s.scopes.environments.findIdx? fun e => (e.declared? name).isSome).getD
        (s.scopes.environments.length - 1) := by
  simp only [resolve, bind_eq_ok, get_eq_ok] at h
  obtain ⟨_, _, ⟨rfl, rfl⟩, h⟩ := h
  cases hl : s.scopes.lookup? name with
  | some found =>
    obtain ⟨owner, v, links⟩ := found
    simp only [hl, pure_eq_ok, Prod.mk.injEq] at h
    obtain ⟨⟨rfl, rfl⟩, rfl⟩ := h
    obtain ⟨ho, hi⟩ := ScopeTable.lookup?_eq_some hl
    exact ⟨rfl, List.mem_of_getElem? ho, by simp [hi]⟩
  | none =>
    simp only [hl, bind_eq_ok, require_eq_ok, pure_eq_ok, Prod.mk.injEq] at h
    obtain ⟨_, _, ⟨ho, rfl⟩, ⟨rfl, rfl⟩, rfl⟩ := h
    exact ⟨rfl, List.mem_of_getLast? ho, by simp [ScopeTable.lookup?_eq_none hl]⟩

theorem environment_eq_ok {id : Id} (h : environment s = .ok id s') :
    s = s' ∧ ∃ scope, s.scopes.environment? = some scope ∧ scope.id = id := by
  simp only [environment, bind_eq_ok, get_eq_ok, require_eq_ok, pure_eq_ok] at h
  obtain ⟨_, _, ⟨rfl, rfl⟩, scope, _, ⟨h, rfl⟩, rfl, rfl⟩ := h
  exact ⟨rfl, scope, h, rfl⟩

/-- A field of a scope reads as a value of the kind last recorded for it. -/
theorem read_run {path : List Instruction} {owner : Option Scope} {name : String}
    {object : Value} {loc : Location} {e : Lowered} (hs : Sited ref ⟨s, code ++ path⟩)
    (ho : Draft.Usable ⟨s, code ++ path⟩ object)
    (hk : ∀ scope ∈ owner, s.scopes.scope? scope.id = some scope)
    (h : read path owner name object loc s = .ok e s') :
    Run loose ⟨s, code ++ path⟩ {} ⟨s', code ++ e.code⟩ ∧
      Draft.Yields ⟨s', code ++ e.code⟩ e.value ∧
      ∃ id, e.code = path ++ [.apply loc id (.getField name) [object]] := by
  simp only [read, bind_eq_ok, fresh_eq_ok, pure_eq_ok] at h
  obtain ⟨_, _, ⟨rfl, rfl⟩, rfl, rfl⟩ := h
  simp only [← List.append_assoc]
  refine ⟨.call s (code ++ path) loc _ _ (.getField _ _)
    (fun v hv => List.mem_singleton.mp hv ▸ ho) ?_, ⟨?_, ?_⟩, _, rfl⟩
  · rintro ⟨_, _, hc, _⟩
    exact absurd hc (getField_ne_setField _ _)
  · refine Draft.has_apply _ _ _ _ _ _ ?_
    split <;> rfl
  · have hknown : ∀ v, (owner.bind (·.assigned? name)).bind (·.value) = some v → s.Tame v := by
      intro v hv
      obtain ⟨a, ha, hv⟩ := Option.bind_eq_some_iff.mp hv
      obtain ⟨scope, hscope, ha⟩ := Option.bind_eq_some_iff.mp ha
      exact hs.ready.tame scope.id v ⟨scope, name, a, hk scope hscope, ha, hv⟩
    split
    · rename_i id x hv
      exact ⟨trivial, (hknown _ hv).scope, hs.ready.tame_next.bound⟩
    · rename_i id link hv
      exact ⟨(hknown _ hv).proper, ⟨hs.ready.tame_next.scope, (hknown _ hv).scope.2⟩,
        hs.ready.tame_next.bound⟩
    · exact hs.ready.tame_next

theorem mem_of_declared? {name : String} {parameters : List Parameter} {p : Parameter}
    (h : Parameter.declared? name parameters = some p) : p ∈ parameters := by
  unfold Parameter.declared? at h
  split at h
  · cases h
  · exact List.mem_of_mem_tail (List.mem_of_find?_eq_some h)

theorem readName_run {name : String} {loc : Location} {e : Lowered} (hs : Sited ref ⟨s, code⟩)
    (h : readName name ref loc s = .ok e s') :
    Run loose ⟨s, code⟩ {} ⟨s', code ++ e.code⟩ ∧ Draft.Yields ⟨s', code ++ e.code⟩ e.value ∧
      (Parameter.declared? name s.frame.parameters = none →
        Access.Addressed ⟨name, none, loc, s.frame.parameters, s.scopes, e.code⟩) := by
  simp only [readName, bind_eq_ok] at h
  obtain ⟨b, _, hb, h⟩ := h
  obtain ⟨rfl, rfl⟩ := isLexical_eq_ok hs hb
  simp only [if_true, bind_eq_ok, get_eq_ok] at h
  obtain ⟨_, _, ⟨rfl, rfl⟩, h⟩ := h
  cases hp : Parameter.declared? name s.frame.parameters with
  | some p =>
    simp only [hp, pure_eq_ok] at h
    obtain ⟨rfl, rfl⟩ := h
    simp only [List.append_nil]
    have hmem := mem_of_declared? hp
    have hd : p.id ∈ Draft.defined ⟨s, code⟩ := Draft.mem_defined.mpr (.inl ⟨p, hmem, rfl⟩)
    have hlt := hs.ready.parameter_lt hmem
    exact ⟨.refl _, ⟨.inr hd, trivial, ⟨hlt, hs.ready.plain p hmem⟩, hlt⟩, by simp⟩
  | none =>
    simp only [hp, bind_eq_ok, Prod.exists] at h
    obtain ⟨owner, links, _, hres, id, _, henv, path, object, s₂, hchain, hread⟩ := h
    obtain ⟨rfl, howner, rfl⟩ := resolve_eq_ok hres
    obtain ⟨rfl, scope, hscope, rfl⟩ := environment_eq_ok henv
    obtain ⟨env, henv', huse, -, -⟩ := hs.environment
    cases hscope.symm.trans henv'
    obtain ⟨hrun, hpath, hlast, hscopes⟩ := chain_run loose hs huse hchain
    have howner : s₂.scopes.scope? owner.id = some owner :=
      hscopes ▸ ScopeTable.scope?_of_mem_environments howner
    obtain ⟨hrun', hy, id, hcode⟩ := read_run loose (hrun.sited hs) hlast
      (by simpa using howner) hread
    exact ⟨hrun.trans hrun', hy, fun _ => ⟨scope, path, object, id, hscope, hpath, hcode⟩⟩

theorem identifier_run {name : String} {loc : Location} {e : Lowered} (hs : Sited ref ⟨s, code⟩)
    (h : identifier name ref loc s = .ok e s') :
    Run loose ⟨s, code⟩ {} ⟨s', code ++ e.code⟩ ∧ Draft.Yields ⟨s', code ++ e.code⟩ e.value := by
  simp only [identifier, recordAccess, bind_eq_ok, get_eq_ok, modify_eq_ok, pure_eq_ok] at h
  obtain ⟨_, _, ⟨rfl, rfl⟩, e, s₁, hread, _, _, rfl, rfl, rfl⟩ := h
  obtain ⟨hrun, hy, haddr⟩ := readName_run loose hs hread
  have hread : Run loose ⟨s₁, code ++ e.code⟩ {} _ :=
    .read s₁ (code ++ e.code) ⟨name, none, loc, s.frame.parameters, s.scopes, e.code⟩
      hrun.extends.parameters.symm (hrun.extends.chain hs.ready).symm
      (List.suffix_append _ _) rfl haddr
  exact ⟨hrun.trans hread, hread.extends.yields (hrun.ready hs.ready) hy⟩

end Reads

theorem declareField_run {name : String} {value object : Value} {loc : Location}
    {added : List Instruction} (ho : Draft.Usable ⟨s, code⟩ object)
    (target : ∀ scope, s.scopes.scopeOf? object = some scope →
      scope.id ∈ Draft.defined ⟨s, code⟩ ∨ s.scopes.kind? scope.id = some .object ∨
        s.scopes.kind? scope.id = some .global)
    (links : LinksScope s.scopes (.setField name) [object, value] → loose)
    (hv : Draft.Yields ⟨s, code⟩ value)
    (h : declareField name value object loc s = .ok added s') :
    Run loose ⟨s, code⟩ {} ⟨s', code ++ added⟩ := by
  have hcall : ∀ scopes : ScopeTable, scopes.kind? = s.scopes.kind? →
      scopes.next = s.scopes.next →
      Run loose ⟨{ s with scopes }, code⟩ {} ⟨Compilation.spend { s with scopes },
        code ++ [.apply loc scopes.next (.setField name) [object, value]]⟩ := by
    intro scopes hk next
    refine .call { s with scopes } code loc _ _ (.setField _ _ _) (fun v hm => ?_) ?_
    · simp only [List.mem_cons, List.not_mem_nil, or_false] at hm
      rcases hm with rfl | rfl
      · exact ⟨ho.source, ho.proper, next ▸ ho.bound⟩
      · exact ⟨hv.usable.source, hv.usable.proper, next ▸ hv.usable.bound⟩
    · rintro ⟨x, v, hc, hops, hx⟩
      exact links ⟨x, v, hc, hops, by rwa [hk] at hx⟩
  simp only [declareField, Lower.scopeOf?, bind_eq_ok, get_eq_ok, pure_eq_ok] at h
  obtain ⟨_, _, ⟨_, _, ⟨rfl, rfl⟩, rfl, rfl⟩, h⟩ := h
  cases hscope : s.scopes.scopeOf? object with
  | none =>
    simp only [hscope, bind_eq_ok, fresh_eq_ok, pure_eq_ok] at h
    obtain ⟨_, _, ⟨rfl, rfl⟩, rfl, rfl⟩ := h
    exact hcall s.scopes rfl rfl
  | some scope =>
    simp only [hscope, assign, modifyScope, bind_eq_ok, modify_eq_ok, fresh_eq_ok,
      pure_eq_ok] at h
    obtain ⟨_, s₁, hassign, _, _, ⟨rfl, rfl⟩, rfl, rfl⟩ := h
    subst hassign
    exact (Run.assign s code scope.id name value hv.has hv.tame (target scope hscope)).trans
      (hcall _ (funext fun x => s.scopes.kind?_record scope.id x name value) rfl)

theorem assignIdentifier_run {name : String} {value : Value} {loc : Location}
    {added : List Instruction} (hs : Sited ref ⟨s, code⟩) (mention : name = parentName → loose)
    (hv : Draft.Yields ⟨s, code⟩ value)
    (h : assignIdentifier name value ref loc s = .ok added s') :
    Run loose ⟨s, code⟩ {} ⟨s', code ++ added⟩ := by
  simp only [assignIdentifier, writeName, recordAccess, bind_eq_ok, get_eq_ok, modify_eq_ok,
    pure_eq_ok] at h
  obtain ⟨_, _, ⟨rfl, rfl⟩, added, s₁, ⟨b, _, hb, h⟩, _, _, rfl, rfl, rfl⟩ := h
  obtain ⟨rfl, rfl⟩ := isLexical_eq_ok hs hb
  simp only [if_true, assign, modifyScope, bind_eq_ok, fresh_eq_ok, modify_eq_ok, pure_eq_ok,
    Prod.exists] at h
  obtain ⟨owner, links, _, hres, id, _, henv, path, object, s₂, hchain, _, _, ⟨rfl, rfl⟩, _, _,
    rfl, rfl, rfl⟩ := h
  obtain ⟨rfl, -, rfl⟩ := resolve_eq_ok hres
  obtain ⟨rfl, scope, hscope, rfl⟩ := environment_eq_ok henv
  obtain ⟨env, henv', huse, -, -⟩ := hs.environment
  cases hscope.symm.trans henv'
  obtain ⟨hrun, hpath, hlast, -⟩ := chain_run loose hs huse hchain
  have hv₂ := hrun.extends.yields hs.ready hv
  have hcall : Run loose ⟨s₂, code ++ path⟩ {} ⟨s₂.spend, code ++ path ++
      [.apply loc s₂.scopes.next (.setField name) [object, value]]⟩ := by
    refine .call s₂ (code ++ path) loc _ _ (.setField _ _ _) (fun v hm => ?_) ?_
    · simp only [List.mem_cons, List.not_mem_nil, or_false] at hm
      rcases hm with rfl | rfl
      · exact hlast
      · exact hv₂.usable
    · rintro ⟨_, _, hc, _⟩
      exact mention (FunctionDefinition.setField_inj hc)
  have hrun' := hrun.trans hcall
  have hv₃ := hcall.extends.yields (hrun.ready hs.ready) hv₂
  rw [List.append_assoc] at hrun' hv₃
  refine hrun'.trans (.write s₂.spend _ ⟨name, some value, loc, _, _, _⟩ owner.id value hv₃.has
    hv₃.tame hrun'.extends.parameters.symm (hrun'.extends.chain hs.ready).symm (List.suffix_append _ _) rfl
    ⟨scope, path, object, _, hscope, hpath, rfl⟩)

/-- A known argument was assigned to a name of the current function. -/
theorem knownArgument_eq_ok {node : Node} {known : Option Value} (hs : Sited ref ⟨s, code⟩)
    (h : knownArgument node ref s = .ok known s') :
    s = s' ∧ ∀ v ∈ known, node.functions = [] ∧ Draft.Usable ⟨s, code⟩ v := by
  unfold knownArgument at h
  split at h
  case h_2 =>
    simp only [pure_eq_ok] at h
    obtain ⟨rfl, rfl⟩ := h
    simp
  case h_1 loc name =>
    simp only [bind_eq_ok, get_eq_ok] at h
    obtain ⟨_, _, ⟨rfl, rfl⟩, b, _, hb, h⟩ := h
    obtain ⟨rfl, rfl⟩ := isLexical_eq_ok hs hb
    simp only [if_true] at h
    cases hp : Parameter.declared? name s.frame.parameters with
    | some p =>
      simp only [hp, pure_eq_ok] at h
      obtain ⟨rfl, rfl⟩ := h
      refine ⟨rfl, fun v hv => ⟨by simp [Node.functions], ?_⟩⟩
      cases hv
      have hmem := mem_of_declared? hp
      exact ⟨.inl (.inr (Draft.mem_defined.mpr (.inl ⟨p, hmem, rfl⟩))), trivial,
        hs.ready.parameter_lt hmem⟩
    | none =>
      simp only [hp] at h
      rcases hl : s.scopes.lookup? name with _ | ⟨owner, declared, _ | links⟩
      · simp only [hl, pure_eq_ok] at h
        obtain ⟨rfl, rfl⟩ := h
        simp
      · simp only [hl, pure_eq_ok] at h
        obtain ⟨rfl, rfl⟩ := h
        refine ⟨rfl, fun v hv => ⟨by simp [Node.functions], ?_⟩⟩
        obtain ⟨assignment, ha, hv⟩ := Option.bind_eq_some_iff.mp hv
        exact hs.ready.usable_of_lookup? hl ha hv
      · simp only [hl, pure_eq_ok] at h
        obtain ⟨rfl, rfl⟩ := h
        simp

/-- Constants are interned; the one that stands for a literal has a type. -/
theorem constant_run {kind : TypeKind} {literal : Literal} {loc : Location} {e : Lowered}
    (hr : Ready ⟨s, code⟩) (hk : kind.Admits literal) (h : constant kind literal loc s = .ok e s') :
    Run loose ⟨s, code⟩ {} ⟨s', code ++ e.code⟩ ∧ Draft.Yields ⟨s', code ++ e.code⟩ e.value := by
  simp only [constant, bind_eq_ok, modifyGet_eq_ok, Prod.mk.injEq, Prod.exists] at h
  obtain ⟨c, s₁, ⟨rfl, hs₁⟩, id, created, s₂, ⟨⟨rfl, rfl⟩, hs₂⟩, h⟩ := h
  obtain ⟨hconst, htyped, hlt⟩ : Run loose ⟨s, code⟩ {} ⟨s₁, code⟩ ∧
      (s.scopes.constant kind literal).1.IsTyped ∧
      (s.scopes.constant kind literal).1.id < s₁.scopes.next := by
    subst hs₁
    cases hl : s.scopes.constants.lookup (kind, literal.canonicalText) with
    | some c =>
      simp only [ScopeTable.constant, hl]
      obtain ⟨_, _, hc, -⟩ := List.lookup_eq_some_iff.mp hl
      have hmem : ((kind, literal.canonicalText), c) ∈ s.scopes.constants :=
        hc ▸ List.mem_append_right _ List.mem_cons_self
      exact ⟨.refl _, hr.constants _ hmem, hr.interned _ hmem⟩
    | none =>
      simp only [ScopeTable.constant, hl]
      exact ⟨.constant s code _ _ _ ⟨rfl, hk⟩, ⟨rfl, hk⟩, Int.ofNat_lt.mpr (Nat.lt_succ_self _)⟩
  cases hl : s₁.scopes.literals.lookup kind with
  | some id =>
    simp only [ScopeTable.literalScope, hl] at h hs₂
    simp only [Bool.false_eq_true, if_false, pure_eq_ok] at h
    obtain ⟨rfl, rfl⟩ := h
    subst hs₂
    simp only [List.append_nil]
    exact ⟨hconst, Draft.yields_const _ htyped hlt⟩
  | none =>
    simp only [ScopeTable.literalScope, hl] at h hs₂
    simp only [if_true, bind_eq_ok, report_eq_ok, pure_eq_ok] at h
    obtain ⟨_, _, rfl, rfl, rfl⟩ := h
    subst hs₂
    exact ⟨hconst.trans ((Run.create s₁ code loc .literal _ (.inr rfl)).trans (.report _ _ _)),
      Draft.yields_const _ htyped (Int.lt_trans hlt (Int.ofNat_lt.mpr (Nat.lt_succ_self _)))⟩

theorem literal_run {source : LiteralSource} {loc : Location} {e : Lowered}
    (hr : Ready ⟨s, code⟩) (h : literal source loc s = .ok e s') :
    Run loose ⟨s, code⟩ {} ⟨s', code ++ e.code⟩ ∧ Draft.Yields ⟨s', code ++ e.code⟩ e.value := by
  unfold literal at h
  cases hx : source.regex with
  | some regex =>
    simp only [hx] at h
    exact constant_run hr (.regExp _) h
  | none =>
    simp only [hx] at h
    split at h
    · cases hv : source.value with
      | null =>
        simp only [hv, pure_eq_ok] at h
        obtain ⟨rfl, rfl⟩ := h
        simp only [List.append_nil]
        exact ⟨.refl _, Draft.yields_null _⟩
      | str text => exact constant_run hr (.string _) (by simpa only [hv] using h)
      | num value => exact constant_run hr (.number _) (by simpa only [hv] using h)
      | bool value => exact constant_run hr (.boolean _) (by simpa only [hv] using h)
      | _ => simp [hv] at h
    · cases hb : signedInt? source.bigint with
      | some value => exact constant_run hr (.bigint _) (by simpa only [hb] using h)
      | none => simp [hb] at h

structure Holds (d : Draft) (place : Place) : Prop where
  object : d.Yields place.object
  key : ∀ v, place.key = .computed v → d.Usable v

theorem Holds.extends {d d' : Draft} {place : Place} (h : Holds d place) (he : Extends d d')
    (hr : Ready d) : Holds d' place where
  object := he.yields hr h.object
  key v hv := he.usable hr (h.key v hv)

theorem call_run {loc : Location} {callee : FunctionDefinition} {value : Value}
    {operands : List Value} (hr : Ready ⟨s, code⟩) (form : CallForm s callee (value :: operands))
    (hv : Draft.Yields ⟨s, code⟩ value) (usable : ∀ v ∈ operands, Draft.Usable ⟨s, code⟩ v) :
    Run loose ⟨s, code⟩ {}
      ⟨s.spend, code ++ [.apply loc s.scopes.next callee (value :: operands)]⟩ ∧
    Draft.Yields ⟨s.spend, code ++ [.apply loc s.scopes.next callee (value :: operands)]⟩
      (.ref s.scopes.next) := by
  refine ⟨.call s code loc callee _ form (List.forall_mem_cons.mpr ⟨hv.usable, usable⟩)
    fun h => absurd h (not_linksScope hv.tame.scope), Draft.has_apply _ _ _ _ _ _ rfl, hr.tame_next⟩

theorem load_run {place : Place} {e : Lowered} (hs : Sited ref ⟨s, code⟩)
    (hp : Holds ⟨s, code⟩ place) (h : load place s = .ok e s') :
    Run loose ⟨s, code⟩ {} ⟨s', code ++ e.code⟩ ∧ Draft.Yields ⟨s', code ++ e.code⟩ e.value := by
  cases hk : place.key with
  | name name =>
    simp only [load, hk, Lower.scopeOf?, bind_eq_ok, get_eq_ok, pure_eq_ok] at h
    obtain ⟨_, _, ⟨_, _, ⟨rfl, rfl⟩, rfl, rfl⟩, h⟩ := h
    have hknown : ∀ scope ∈ s.scopes.scopeOf? place.object,
        s.scopes.scope? scope.id = some scope := fun _ h => ScopeTable.scope?_of_scopeOf? h
    have happ := List.append_nil code
    obtain ⟨hrun, hy, -⟩ :=
      read_run loose (happ.symm ▸ hs) (happ.symm ▸ hp.object.usable) hknown h
    rw [List.append_nil] at hrun
    exact ⟨hrun, hy⟩
  | computed key =>
    simp only [load, hk, bind_eq_ok, fresh_eq_ok, pure_eq_ok] at h
    obtain ⟨_, _, ⟨rfl, rfl⟩, rfl, rfl⟩ := h
    refine call_run hs.ready (.getFieldDynamic _ _) hp.object fun v hv => ?_
    rw [List.mem_singleton.mp hv]
    exact hp.key key hk

theorem store_run {place : Place} {value : Value} {added : List Instruction}
    (hr : Ready ⟨s, code⟩) (hp : Holds ⟨s, code⟩ place) (hv : Draft.Yields ⟨s, code⟩ value)
    (h : store place value s = .ok added s') : Run loose ⟨s, code⟩ {} ⟨s', code ++ added⟩ := by
  cases hk : place.key with
  | name name =>
    simp only [store, hk] at h
    exact declareField_run hp.object.usable
      (fun scope hscope => .inr (target_of_tame hp.object.tame.scope hscope))
      (fun hl => absurd hl (not_linksScope hp.object.tame.scope)) hv h
  | computed key =>
    simp only [store, hk, bind_eq_ok, fresh_eq_ok, pure_eq_ok] at h
    obtain ⟨_, _, ⟨rfl, rfl⟩, rfl, rfl⟩ := h
    refine (call_run hr (.setFieldDynamic _ _ _) hp.object fun v hm => ?_).1
    simp only [List.mem_cons, List.not_mem_nil, or_false] at hm
    rcases hm with rfl | rfl
    · exact hp.key v hk
    · exact hv.usable

end Lower

end ScopeIR
