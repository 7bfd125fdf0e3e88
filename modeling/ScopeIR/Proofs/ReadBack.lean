import ScopeIR.Proofs.Addressing
import ScopeIR.Proofs.Discipline

/-! Reading a name right after it was written. A write records the name in the environment
that it stores to, which is then the first one that declares it: a read goes the same way,
unless it finds the name among the parameters. -/
namespace ScopeIR

theorem Scope.isSome_declared?_declare (s : Scope) (name : String) :
    ((s.declare name).declared? name).isSome := by
  unfold declare withVariable variableOf declared?
  rw [Names.lookup_set]
  cases h : s.locals.lookup name with
  | none => simp
  | some v => split <;> rfl

namespace ScopeTable

variable {t : ScopeTable} {name : String} {value : Value} {i : Id} {f : Scope → Scope}
  {owner : Scope}

/-- The distance of the innermost environment that declares the name, or of the outermost
one if none does. -/
def distance (t : ScopeTable) (name : String) : Nat :=
  (t.environments.findIdx? fun e => (e.declared? name).isSome).getD (t.environments.length - 1)

theorem Nested.environments_ne_nil (h : t.Nested) : t.environments ≠ [] :=
  fun hn => h.ne_nil (by simp [chain, hn])

theorem Nested.exists_innermost (h : t.Nested) : ∃ top innermost,
    t.current? = some top ∧ t.environment? = some innermost := by
  obtain ⟨innermost, rest, henv⟩ := List.exists_cons_of_ne_nil h.environments_ne_nil
  have hmem : innermost ∈ t.entered :=
    List.mem_of_mem_filter (henv ▸ List.mem_cons_self : innermost ∈ t.environments)
  obtain ⟨top, others, htop⟩ := List.exists_cons_of_ne_nil (List.ne_nil_of_mem hmem)
  exact ⟨top, innermost, by simp [current?, htop], by simp [environment?, henv]⟩

theorem Nested.eq_of_id_eq (h : t.Nested) {j k : Nat} {a b : Scope}
    (ha : t.environments[j]? = some a) (hb : t.environments[k]? = some b) (hid : a.id = b.id) :
    j = k := by
  have hmap : t.chain.map Prod.fst = t.environments.map (·.id) := List.map_map
  have hj : (t.environments.map (·.id))[j]? = some a.id := by simp [ha]
  have hk : (t.environments.map (·.id))[k]? = some a.id := by simp [hb, hid]
  obtain ⟨hlt, -⟩ := List.getElem?_eq_some_iff.mp hj
  exact (List.getElem?_inj hlt (hmap ▸ h.nodup)).mp (hj.trans hk.symm)

theorem entered_modifyScope (hf : ∀ s, (f s).id = s.id) :
    (t.modifyScope i f).entered = t.entered.map fun s => if s.id = i then f s else s := by
  unfold entered
  rw [List.map_filterMap, funext fun x => scope?_modifyScope t i x f hf]
  rfl

theorem environments_modifyScope (hf : ∀ s, (f s).id = s.id) (hk : ∀ s, (f s).kind = s.kind) :
    (t.modifyScope i f).environments =
      t.environments.map fun s => if s.id = i then f s else s := by
  unfold environments
  rw [entered_modifyScope hf, List.filter_map]
  congr 2
  funext s
  by_cases h : s.id = i <;> simp [h, hk]

theorem entered_record :
    (t.record i name value).entered = t.entered.map fun s =>
      if s.id = i then (s.declare name).assign (s.variableOf name) (some value) else s :=
  entered_modifyScope fun _ => rfl

theorem environments_record :
    (t.record i name value).environments = t.environments.map fun s =>
      if s.id = i then (s.declare name).assign (s.variableOf name) (some value) else s :=
  environments_modifyScope (fun _ => rfl) (fun _ => rfl)

theorem not_declared_of_lt_distance {j : Nat} {e : Scope} (hj : j < t.distance name)
    (he : t.environments[j]? = some e) : e.declared? name = none := by
  unfold distance at hj
  cases hi : t.environments.findIdx? fun e => (e.declared? name).isSome with
  | none =>
    rw [List.findIdx?_eq_none_iff] at hi
    simpa using hi e (List.mem_of_getElem? he)
  | some k =>
    rw [hi, Option.getD_some] at hj
    obtain ⟨hlt, -, hbefore⟩ := List.findIdx?_eq_some_iff_getElem.mp hi
    obtain ⟨hlt, rfl⟩ := List.getElem?_eq_some_iff.mp he
    simpa using hbefore j hj

/-- A name that was recorded at its distance is found at that distance. -/
theorem distance_record (h : t.Nested) (ho : t.environments[t.distance name]? = some owner) :
    (t.record owner.id name value).distance name = t.distance name := by
  obtain ⟨hlt, rfl⟩ := List.getElem?_eq_some_iff.mp ho
  have hfind : (t.record t.environments[t.distance name].id name value).environments.findIdx?
      (fun e => (e.declared? name).isSome) = some (t.distance name) := by
    rw [environments_record, List.findIdx?_map, List.findIdx?_eq_some_iff_getElem]
    refine ⟨hlt, ?_, fun j hj => ?_⟩
    · rw [Function.comp_apply, if_pos rfl]
      exact Scope.isSome_declared?_declare _ name
    · have hj' := Nat.lt_trans hj hlt
      have hne : t.environments[j].id ≠ t.environments[t.distance name].id := fun hid =>
        Nat.ne_of_lt hj (h.eq_of_id_eq (List.getElem?_eq_getElem hj') ho hid)
      have hnone := not_declared_of_lt_distance hj (List.getElem?_eq_getElem hj')
      simp [hne, hnone]
  rw [distance, hfind, Option.getD_some]

theorem current?_record {top : Scope} (h : t.current? = some top) (i : Id) (name : String)
    (value : Value) :
    ∃ top', (t.record i name value).current? = some top' ∧ top'.value = top.value := by
  refine ⟨_, by rw [current?, entered_record, List.head?_map, ← current?, h, Option.map_some], ?_⟩
  split <;> rfl

theorem environment?_record {innermost : Scope} (h : t.environment? = some innermost) (i : Id)
    (name : String) (value : Value) :
    ∃ innermost', (t.record i name value).environment? = some innermost' ∧
      innermost'.value = innermost.value := by
  refine ⟨_, by rw [environment?, environments_record, List.head?_map, ← environment?, h,
    Option.map_some], ?_⟩
  split <;> rfl

end ScopeTable

namespace Lower

variable {s : Compilation} {top innermost : Scope}

theorem isLexical_current (h : s.scopes.current? = some top) :
    isLexical top.value s = .ok true s := by
  have htop : s.scopes.scope? top.id = some top := by
    obtain ⟨x, -, hx⟩ := List.mem_filterMap.mp (List.mem_of_head? h)
    exact (ScopeTable.scope?_id hx).symm ▸ hx
  have hof : s.scopes.scopeOf? top.value = some top := htop
  simp [isLexical, scopeOf?, h, hof]

theorem resolve_ok (h : s.scopes.environments ≠ []) (name : String) :
    ∃ owner, s.scopes.environments[s.scopes.distance name]? = some owner ∧
      resolve name s = .ok (owner, s.scopes.distance name) s := by
  cases hl : s.scopes.lookup? name with
  | some found =>
    obtain ⟨owner, v, links⟩ := found
    obtain ⟨ho, hi⟩ := ScopeTable.lookup?_eq_some hl
    have hd : s.scopes.distance name = links := by simp [ScopeTable.distance, hi]
    exact ⟨owner, hd ▸ ho, by simp [resolve, hl, hd]⟩
  | none =>
    have hd : s.scopes.distance name = s.scopes.environments.length - 1 := by
      simp [ScopeTable.distance, ScopeTable.lookup?_eq_none hl]
    have hlast := List.getLast?_eq_some_getLast h
    refine ⟨_, ?_, by simp [resolve, hl, hd, hlast]; rfl⟩
    rw [hd, ← List.getLast?_eq_getElem?, hlast]

theorem chain_ok (loc : Location) (links : Nat) (object : Value) (s : Compilation) :
    ∃ path last next, ParentPath loc links object path last ∧
      chain loc links object s = .ok (path, last) { s with scopes := { s.scopes with next } } := by
  induction links generalizing s object with
  | zero => exact ⟨[], object, s.scopes.next, .here object, rfl⟩
  | succ links ih =>
    obtain ⟨path, last, next, hpath, hchain⟩ := ih (.ref s.scopes.next) s.spend
    refine ⟨_, last, next, .up hpath, ?_⟩
    rw [chain, bind_of_ok (fresh_eq_ok.mpr ⟨rfl, rfl⟩)]
    exact (bind_of_ok hchain).trans rfl

theorem environment_ok (h : s.scopes.environment? = some innermost) :
    environment s = .ok innermost.id s := by
  simp [environment, h]

/-- A write goes to the first environment that declares the name and records the name there. -/
theorem writeName_ok (hn : s.scopes.Nested) (htop : s.scopes.current? = some top)
    (henv : s.scopes.environment? = some innermost) (name : String) (value : Value)
    (loc : Location) :
    ∃ owner path last id next, s.scopes.environments[s.scopes.distance name]? = some owner ∧
      ParentPath loc (s.scopes.distance name) innermost.value path last ∧
      writeName name value top.value loc s =
        .ok (path ++ [.apply loc id (.setField name) [last, value]])
          { s with scopes := { s.scopes.record owner.id name value with next } } := by
  obtain ⟨owner, howner, hres⟩ := resolve_ok hn.environments_ne_nil name
  obtain ⟨path, last, next, hpath, hchain⟩ :=
    chain_ok loc (s.scopes.distance name) innermost.value s
  refine ⟨owner, path, last, next, next + 1, howner, hpath, ?_⟩
  rw [writeName, bind_of_ok (isLexical_current htop), if_pos rfl, bind_of_ok hres]
  simp only
  rw [bind_of_ok (environment_ok henv)]
  exact (bind_of_ok hchain).trans rfl

/-- A parameter is at hand; any other name is read from the first environment that declares
it. -/
theorem readName_ok (hn : s.scopes.environments ≠ []) (htop : s.scopes.current? = some top)
    (henv : s.scopes.environment? = some innermost) (name : String) (loc : Location) :
    ∃ e s', readName name top.value loc s = .ok e s' ∧
      (∀ p, Parameter.declared? name s.frame.parameters = some p → e = { value := p.value }) ∧
      (Parameter.declared? name s.frame.parameters = none → ∃ path last,
        ParentPath loc (s.scopes.distance name) innermost.value path last ∧
        e.code = path ++ [.apply loc e.value.id (.getField name) [last]]) := by
  rw [readName, bind_of_ok (isLexical_current htop), if_pos rfl,
    bind_of_ok (get_eq_ok.mpr ⟨rfl, rfl⟩)]
  cases Parameter.declared? name s.frame.parameters with
  | some p =>
    refine ⟨_, _, rfl, fun q hq => ?_, fun hq => absurd hq (Option.some_ne_none p)⟩
    cases hq
    rfl
  | none =>
    obtain ⟨owner, howner, hres⟩ := resolve_ok hn name
    obtain ⟨path, last, next, hpath, hchain⟩ :=
      chain_ok loc (s.scopes.distance name) innermost.value s
    dsimp only
    rw [bind_of_ok hres]
    dsimp only
    rw [bind_of_ok (environment_ok henv)]
    refine ⟨_, _, (bind_of_ok hchain).trans rfl,
      fun p hp => absurd hp.symm (Option.some_ne_none p), fun _ => ⟨path, last, hpath, ?_⟩⟩
    dsimp only
    split <;> rfl

theorem assignIdentifier_of_writeName {s' : Compilation} {name : String} {value ref : Value}
    {loc : Location} {code : List Instruction}
    (h : writeName name value ref loc s = .ok code s') :
    assignIdentifier name value ref loc s = .ok code { s' with accesses :=
      ⟨name, some value, loc, s.frame.parameters, s.scopes, code⟩ :: s'.accesses } := by
  rw [assignIdentifier, bind_of_ok (get_eq_ok.mpr ⟨rfl, rfl⟩), bind_of_ok h]
  rfl

theorem identifier_of_readName {s' : Compilation} {name : String} {ref : Value} {loc : Location}
    {e : Lowered} (h : readName name ref loc s = .ok e s') :
    identifier name ref loc s = .ok e { s' with accesses :=
      ⟨name, none, loc, s.frame.parameters, s.scopes, e.code⟩ :: s'.accesses } := by
  rw [identifier, bind_of_ok (get_eq_ok.mpr ⟨rfl, rfl⟩), bind_of_ok h]
  rfl

theorem assignIdentifier_identifier_ok (hn : s.scopes.Nested)
    (htop : s.scopes.current? = some top) (henv : s.scopes.environment? = some innermost)
    (name : String) (value : Value) (loc loc' : Location) :
    ∃ code s₁ e s₂, assignIdentifier name value top.value loc s = .ok code s₁ ∧
      identifier name top.value loc' s₁ = .ok e s₂ ∧
      ∃ path last id, ParentPath loc (s.scopes.distance name) innermost.value path last ∧
        code = path ++ [.apply loc id (.setField name) [last, value]] ∧
        (∀ p, Parameter.declared? name s.frame.parameters = some p → e = { value := p.value }) ∧
        (Parameter.declared? name s.frame.parameters = none → ∃ path' last',
          ParentPath loc' (s.scopes.distance name) innermost.value path' last' ∧
          e.code = path' ++ [.apply loc' e.value.id (.getField name) [last']]) := by
  obtain ⟨owner, path, last, id, next, howner, hpath, hwrite⟩ :=
    writeName_ok hn htop henv name value loc
  -- The tables before and after differ in what the owner declares, so the read finds the
  -- same scopes in the same places.
  obtain ⟨top', htop', htopv⟩ := ScopeTable.current?_record htop owner.id name value
  obtain ⟨innermost', henv', henvv⟩ := ScopeTable.environment?_record henv owner.id name value
  have hdist : (s.scopes.record owner.id name value).distance name = s.scopes.distance name :=
    ScopeTable.distance_record hn howner
  have hne : (s.scopes.record owner.id name value).environments ≠ [] := by
    simpa [ScopeTable.environments_record] using hn.environments_ne_nil
  have hassign := assignIdentifier_of_writeName hwrite
  obtain ⟨e, s₂, hread, hparam, hname⟩ := readName_ok (s := { s with
    scopes := { s.scopes.record owner.id name value with next }
    accesses := ⟨name, some value, loc, s.frame.parameters, s.scopes, _⟩ :: s.accesses })
    hne htop' henv' name loc'
  rw [htopv] at hread
  refine ⟨_, _, e, _, hassign, identifier_of_readName hread, path, last, id, hpath, rfl, hparam,
    fun hp => ?_⟩
  obtain ⟨path', last', hpath', hcode⟩ := hname hp
  rw [henvv] at hpath'
  exact ⟨path', last', hdist ▸ hpath', hcode⟩

end Lower

theorem Run.nested {loose : Prop} {d d' : Draft} {w : Work} (h : Run loose d w d') (hr : Ready d)
    (hn : d.state.scopes.Nested) :
    ∀ a ∈ d'.state.accesses, a ∈ d.state.accesses ∨ a.scopes.Nested := by
  induction h with
  | trans h h₁ ih ih₁ =>
    intro a ha
    rcases ih₁ (h.ready hr) (hn.of_chain (h.extends.chain hr)) a ha with ha | ha
    · exact ih hr hn a ha
    · exact .inr ha
  | read s code a _ chain =>
    intro a' ha
    rcases List.mem_cons.mp ha with rfl | ha
    · exact .inr (hn.of_chain chain)
    · exact .inl ha
  | write s code a owner value _ _ _ chain =>
    intro a' ha
    rcases List.mem_cons.mp ha with rfl | ha
    · exact .inr (hn.of_chain chain)
    · exact .inl ha
  | @object s s₁ code code₁ w y kind inner ih =>
    exact ih (hr.push kind) (hn.of_chain (ScopeTable.chain_push_object kind))
  | @block s s₁ w parent kind rest loc opened chain own run ih =>
    exact ih (hr.enterBlock loc parent) (hn.enters (s.enters_enterBlock loc parent) hr.sound rfl)
  | @function s s₁ w _ code definition params body loc _ _ run ih =>
    exact ih (hr.enter definition params loc)
      (hn.enters (s.enters_spend definition params loc []) hr.sound rfl)
  | _ => exact fun _ ha => .inl ha

theorem ProgramRun.nested {loose : Prop} {file : String} {hosts : List String} {node : Node}
    {functions : List Function} {result : Compilation}
    (p : ProgramRun loose file hosts node functions result) {a : Access}
    (ha : a ∈ result.accesses) : a.scopes.Nested := by
  have hstart : (p.seeded.enterMain file p.loc p.prologue).accesses = [] := p.seeds.accesses
  have hmain : (p.seeded.enterMain file p.loc p.prologue).scopes.Nested :=
    p.seeds.nested_enter _ _ _ _
  rcases p.run.nested p.seeds.ready hmain a (p.accesses ▸ ha) with ha | ha
  · simp [hstart] at ha
  · exact ha

/-- With these scopes and parameters, what a write stores is read back from where it is stored:
both ways start at the innermost environment and follow the same number of parent links. Only a
parameter is not read from its environment, and keeps the value of the call. -/
def ReadsBack (scopes : ScopeTable) (parameters : List Parameter) : Prop :=
  ∀ s : Compilation, s.scopes = scopes → s.frame.parameters = parameters →
    ∀ (name : String) (value : Value) (loc loc' : Location),
    ∃ top innermost code s₁ e s₂, scopes.current? = some top ∧
      scopes.environment? = some innermost ∧
      Lower.assignIdentifier name value top.value loc s = .ok code s₁ ∧
      Lower.identifier name top.value loc' s₁ = .ok e s₂ ∧
      ∃ path last id, ParentPath loc (scopes.distance name) innermost.value path last ∧
        code = path ++ [.apply loc id (.setField name) [last, value]] ∧
        (Parameter.declared? name parameters = none → ∃ path' last',
          ParentPath loc' (scopes.distance name) innermost.value path' last' ∧
          e.code = path' ++ [.apply loc' e.value.id (.getField name) [last']]) ∧
        ∀ p, Parameter.declared? name parameters = some p → e = { value := p.value }

theorem ScopeTable.Nested.readsBack {scopes : ScopeTable} (h : scopes.Nested)
    (parameters : List Parameter) : ReadsBack scopes parameters := by
  rintro s rfl rfl name value loc loc'
  obtain ⟨top, innermost, htop, henv⟩ := h.exists_innermost
  obtain ⟨code, s₁, e, s₂, hassign, hread, path, last, id, hpath, hcode, hparam, hname⟩ :=
    Lower.assignIdentifier_identifier_ok h htop henv name value loc loc'
  exact ⟨top, innermost, code, s₁, e, s₂, htop, henv, hassign, hread, path, last, id, hpath, hcode,
    hname, hparam⟩

/-- A write is read back in every state in which a run starts a task, whether or not it succeeds,
and in every state in which a name is accessed. -/
theorem reads_written_name (file : String) (hosts : List String) (node : Node) :
    (∀ e ∈ (stateOf (Lower.program hosts node (.start file))).entries,
      ReadsBack e.scopes e.frame.parameters) ∧
    ∀ functions s, Lower.program hosts node (.start file) = .ok functions s →
      ∀ a ∈ s.accesses, ReadsBack a.scopes a.parameters := by
  constructor
  · intro e he
    have hstart : e ∉ (Compilation.start file).entries := List.not_mem_nil
    have hd := (Lower.clean_program file hosts node e he).resolve_left hstart
    exact hd.nested.readsBack e.frame.parameters
  · intro functions s h a ha
    obtain ⟨p⟩ := Lower.program_eq_ok (fun _ => trivial : Quiet True node) h
    exact (p.nested ha).readsBack a.parameters

/-- `function f(a) { a = true; return a; }` -/
def overwrittenParameter : Node :=
  .program {} "script" [
    .functionDeclaration {} (.identifier {} "f") [.identifier {} "a"] (.blockStatement {} [
      .expressionStatement {} (.assignment {} "=" (.identifier {} "a")
        (.literal {} { value := .bool true })),
      .returnStatement {} (.identifier {} "a")])]

/-- The parameter is read without a trace of what was written. -/
theorem overwrittenParameter_not_read_back : ∃ functions s,
    Lower.program [] overwrittenParameter (.start "f.js") = .ok functions s ∧
    ∃ a ∈ s.accesses, a.name = "a" ∧ ∃ value p, a.stored = some value ∧
      Parameter.declared? "a" a.parameters = some p ∧
      ∃ top code s₁ e s₂, a.scopes.current? = some top ∧
        Lower.assignIdentifier "a" value top.value a.loc { s with
          scopes := a.scopes
          frame := { s.frame with parameters := a.parameters } } = .ok code s₁ ∧
        Lower.identifier "a" top.value a.loc s₁ = .ok e s₂ ∧ e.code = [] ∧ e.value = p.value := by
  obtain ⟨functions, s, h, hs⟩ := Lower.exists_program_ok "f.js" [] overwrittenParameter
    (fun _ s => s.accesses.map fun a =>
      (a.name, a.stored.isSome, (Parameter.declared? "a" a.parameters).isSome))
    (b := [("a", false, true), ("a", true, true)]) (by decide +kernel)
  obtain ⟨a, ha, hdata⟩ : ∃ a ∈ s.accesses,
      (a.name, a.stored.isSome, (Parameter.declared? "a" a.parameters).isSome) =
        ("a", true, true) :=
    List.mem_map.mp (hs ▸ List.mem_cons_of_mem _ List.mem_cons_self)
  simp only [Prod.mk.injEq, Option.isSome_iff_exists] at hdata
  obtain ⟨hname, ⟨value, hvalue⟩, p, hp⟩ := hdata
  obtain ⟨top, -, code, s₁, e, s₂, htop, -, hassign, hread, -, -, -, -, -, -, hparam⟩ :=
    (reads_written_name "f.js" [] overwrittenParameter).2 functions s h a ha { s with
      scopes := a.scopes
      frame := { s.frame with parameters := a.parameters } } rfl rfl "a" value a.loc a.loc
  obtain rfl := hparam p hp
  exact ⟨functions, s, h, a, ha, hname, value, p, hvalue, hp, top, code, s₁, _, s₂, htop, hassign,
    hread, rfl, rfl⟩

end ScopeIR
