import ScopeIR.Proofs.Extension

/-! What holds of a draft whenever something is lowered in it, and that runs keep it: the
innermost environment belongs to the current function, and what its names were last assigned
is at hand there, unless an inner function assigned it. -/
namespace ScopeIR

variable {loose : Prop} {d d' : Draft} {w : Work}

namespace Draft

theorem mem_defined {id : Id} : id ∈ d.defined ↔
    (∃ p ∈ d.state.frame.parameters, p.id = id) ∨ ∃ x ∈ d.body, x.defined? = some id := by
  simp [defined]

theorem mem_defined_apply {s s' : Compilation} {code : List Instruction} {loc : Location}
    {n id : Id} {callee : FunctionDefinition} {operands : List Value}
    (parameters : s'.frame.parameters = s.frame.parameters)
    (blocks : s'.frame.blocks = s.frame.blocks) :
    id ∈ defined ⟨s', code ++ [.apply loc n callee operands]⟩ ↔
      id ∈ defined ⟨s, code⟩ ∨ id = n := by
  rw [defined_apply parameters blocks, List.mem_append, List.mem_singleton]

end Draft

theorem mem_parametersFrom {n : Nat} {nodes : List Node} {p : Parameter}
    (h : p ∈ parametersFrom n nodes) : (n : Int) ≤ p.id ∧ p.id < (n + nodes.length : Nat) := by
  induction nodes generalizing n with
  | nil => simp [parametersFrom] at h
  | cons node rest ih =>
    simp only [parametersFrom, List.mem_cons, List.length_cons] at h ⊢
    rcases h with rfl | h
    · show (n : Int) ≤ n ∧ (n : Int) < (n + (rest.length + 1) : Nat)
      omega
    · obtain ⟨hl, hu⟩ := ih h
      unfold Id at *
      omega

namespace Compilation

variable {s : Compilation} {definition : FunctionDefinition} {params : List Node} {loc : Location}
  {parent : Id} {id : Int}

theorem of_mem_defined_enter {before : List Block}
    (h : id ∈ Draft.defined ⟨s.enter definition params loc before, []⟩) :
    (∃ block ∈ before, ∃ x ∈ block.instructions, x.defined? = some id) ∨
      s.scopes.next ≤ id ∧ id < (s.enter definition params loc before).scopes.next := by
  rw [next_enter, enteredScope]
  rw [defined_enter] at h
  simp only [List.cons_append, List.mem_cons, List.mem_append, List.mem_map, List.mem_filterMap,
    List.mem_flatMap, List.mem_reverse, List.not_mem_nil, or_false, enteredScope] at h
  rcases h with h | (⟨p, hp, rfl⟩ | ⟨x, ⟨block, hb, hx⟩, hid⟩) | h | h
  · unfold Id at h
    omega
  · have hp := mem_parametersFrom hp
    unfold Id at *
    omega
  · exact .inl ⟨block, hb, x, hx, hid⟩
  · unfold Id at h
    omega
  · unfold Id at h
    omega

theorem le_of_mem_defined_enter
    (h : id ∈ Draft.defined ⟨s.enter definition params loc [], []⟩) : s.scopes.next ≤ id := by
  rcases of_mem_defined_enter h with ⟨_, hb, _⟩ | h
  · cases hb
  · exact h.1

theorem mem_defined_enterBlock (hb : s.frame.blocks ≠ []) :
    id ∈ Draft.defined ⟨s.enterBlock loc parent, []⟩ ↔
      id ∈ Draft.defined ⟨s, []⟩ ∨ id = s.scopes.next ∨ id = (s.scopes.next + 1 : Nat) := by
  rw [s.defined_enterBlock loc parent hb]
  simp

theorem mem_defined_of_enterBlock (hb : s.frame.blocks ≠ []) (hid : id < s.scopes.next)
    (h : id ∈ Draft.defined ⟨s.enterBlock loc parent, []⟩) : id ∈ Draft.defined ⟨s, []⟩ := by
  refine ((mem_defined_enterBlock hb).mp h).resolve_right ?_
  omega

end Compilation

theorem Run.defined_new (h : Run loose d w d') :
    ∀ id : Int, id ∈ d'.defined →
      id ∈ d.defined ∨ d.state.scopes.next ≤ id ∧ id < d'.state.scopes.next := by
  induction h with
  | @trans d d₁ d₂ w w₁ h h₁ ih ih₁ =>
    intro id hid
    have hn := h.extends.next
    have hn₁ := h₁.extends.next
    rcases ih₁ id hid with hid | hid
    · exact (ih id hid).imp_right fun h => ⟨h.1, by omega⟩
    · exact .inr ⟨by omega, hid.2⟩
  | call s code loc callee operands _ _ _ =>
    intro id hid
    refine ((Draft.mem_defined_apply rfl rfl).mp hid).imp_right ?_
    rintro rfl
    exact ⟨Int.le_refl _, Int.ofNat_lt.mpr (Nat.lt_succ_self _)⟩
  | create s code loc kind literals _ =>
    intro id hid
    refine ((Draft.mem_defined_apply rfl rfl).mp hid).imp_right ?_
    rintro rfl
    exact ⟨Int.le_refl _, Int.ofNat_lt.mpr (Nat.lt_succ_self _)⟩
  | object _ _ ih => exact ih
  | @block s s₁ w parent kind rest loc opened chain own inner ih =>
    intro id hid
    have hb := Frame.blocks_ne_nil_of_isOpen opened
    have hn : s.scopes.next + 2 ≤ s₁.scopes.next := inner.extends.next
    rw [Compilation.defined_leaveBlock] at hid
    show id ∈ Draft.defined ⟨s, []⟩ ∨ (s.scopes.next : Int) ≤ id ∧ id < s₁.scopes.next
    rcases ih id hid with h | ⟨hl, hu⟩
    · refine ((Compilation.mem_defined_enterBlock hb).mp h).imp_right fun h => ?_
      omega
    · have hl : ((s.scopes.next + 2 : Nat) : Int) ≤ id := hl
      exact .inr ⟨by omega, hu⟩
  | @function s s₁ w _ code definition params body loc _ _ inner ih =>
    intro id hid
    rw [s.defined_leave, List.mem_append, List.mem_singleton] at hid
    refine hid.imp_right ?_
    rintro rfl
    have hn : s.spend.enteredScope params + 2 ≤ s₁.scopes.next := inner.extends.next
    have hscope : s.spend.enteredScope params = s.scopes.next + 2 + params.length := rfl
    show (s.scopes.next : Int) ≤ s.scopes.next ∧ (s.scopes.next : Int) < s₁.scopes.next
    omega
  | start s code scope loc _ _ _ =>
    rw [Draft.defined_start]
    exact fun id h => .inl h
  | place s code opened =>
    rw [Draft.defined_place (Frame.blocks_ne_nil_of_isOpen opened)]
    exact fun id h => .inl h
  | ret s code loc value opened _ _ =>
    rw [Draft.defined_ret (Frame.blocks_ne_nil_of_isOpen opened)]
    exact fun id h => .inl h
  | _ => exact fun id h => .inl h

namespace ScopeTable

/-- Activation records and blocks: the environments that functions make. -/
def IsLocal (t : ScopeTable) (x : Id) : Prop :=
  t.kind? x = some .function ∨ t.kind? x = some .block

theorem IsLocal.kind? {t : ScopeTable} {x : Id} (h : t.IsLocal x) :
    ∃ kind, t.kind? x = some kind := by
  rcases h with h | h
  · exact ⟨_, h⟩
  · exact ⟨_, h⟩

theorem isLocal_congr {t t' : ScopeTable} {x : Id} (h : t'.kind? x = t.kind? x) :
    t'.IsLocal x ↔ t.IsLocal x := by
  unfold IsLocal
  rw [h]

end ScopeTable

/-- The parameters are those of a function that was entered later. -/
def EnteredSince (n : Nat) (parameters : List Parameter) : Prop :=
  ∃ p rest, parameters = p :: rest ∧ (n : Int) ≤ p.id

theorem EnteredSince.mono {n m : Nat} {parameters : List Parameter}
    (h : EnteredSince m parameters) (hn : n ≤ m) : EnteredSince n parameters := by
  obtain ⟨p, rest, hp, hm⟩ := h
  exact ⟨p, rest, hp, by omega⟩

/-- Values that a run records in the environments of enclosing functions are recorded by
writes to names, lowered in the current function or in one entered since. -/
theorem Run.knows_outer (h : Run loose d w d') :
    ∀ x : Int, x < d.state.scopes.next → d.state.scopes.IsLocal x → x ∉ d.defined →
      ∀ v, d'.state.scopes.Knows x v → d.state.scopes.Knows x v ∨
        ∃ a ∈ d'.state.accesses, a.stored = some v ∧
          (a.parameters = d.state.frame.parameters ∨
            EnteredSince d.state.scopes.next a.parameters) := by
  induction h with
  | @trans d d₁ d₂ w w₁ h h₁ ih ih₁ =>
    intro x hx hl hd v hv
    have he := h.extends
    have hn := he.next
    have hl₁ := (ScopeTable.isLocal_congr (he.kinds x hx)).mpr hl
    have hd₁ : x ∉ d₁.defined := by
      intro hm
      rcases h.defined_new x hm with hm | hm
      · exact hd hm
      · omega
    rcases ih₁ x (by omega) hl₁ hd₁ v hv with hv | ⟨a, ha, hs, hp⟩
    · rcases ih x hx hl hd v hv with hv | ⟨a, ha, hs, hp⟩
      · exact .inl hv
      · exact .inr ⟨a, h₁.extends.accesses.subset ha, hs, hp⟩
    · refine .inr ⟨a, ha, hs, ?_⟩
      rw [he.parameters] at hp
      exact hp.imp_right fun hp => hp.mono hn
  | create s code loc kind literals _ =>
    exact fun x _ _ _ v h => .inl (ScopeTable.knows_create h)
  | declare s code x name => exact fun x _ _ _ v h => .inl (ScopeTable.knows_declare h)
  | assign s code y name value _ _ target =>
    intro x _ hl hd v hv
    rcases ScopeTable.knows_record hv with ⟨rfl, rfl⟩ | hv
    · rcases target with h | h | h
      · exact absurd h hd
      · simp [ScopeTable.IsLocal, h] at hl
      · simp [ScopeTable.IsLocal, h] at hl
    · exact .inl hv
  | write s code a owner value _ _ parameters _ _ stored _ =>
    intro x _ _ _ v hv
    rcases ScopeTable.knows_record hv with ⟨rfl, rfl⟩ | hv
    · exact .inr ⟨a, List.mem_cons_self, stored, .inl parameters⟩
    · exact .inl hv
  | @object s s₁ code code₁ w y kind _ ih =>
    intro x hx hl hd v hv
    have hl' := (ScopeTable.isLocal_congr (s.scopes.kind?_push y x)).mpr hl
    exact (ih x hx hl' hd v hv).imp_left ScopeTable.knows_push
  | @block s s₁ w parent kind rest loc opened chain own _ ih =>
    intro x hx hl hd v hv
    have henter := s.enters_enterBlock loc parent
    have hl' := (ScopeTable.isLocal_congr (henter.old hx)).mpr hl
    have hd' : x ∉ Draft.defined ⟨s.enterBlock loc parent, []⟩ := fun hm =>
      hd (Compilation.mem_defined_of_enterBlock (Frame.blocks_ne_nil_of_isOpen opened) hx hm)
    rcases ih x (henter.lt_next hx) hl' hd' v hv with h | ⟨a, ha, hs, hp⟩
    · exact .inl (henter.knows x v h)
    · refine .inr ⟨a, ha, hs, ?_⟩
      exact hp.imp (fun hp => hp.trans (s.parameters_enterBlock loc parent))
        fun hp => hp.mono henter.next_le
  | @function s s₁ w _ code definition params body loc _ _ _ ih =>
    intro x hx hl hd v hv
    have henter := s.enters_spend definition params loc []
    have hl' := (ScopeTable.isLocal_congr (henter.old hx)).mpr hl
    have hd' : x ∉ Draft.defined ⟨s.spend.enter definition params loc [], []⟩ := by
      intro hm
      have hle : ((s.scopes.next + 1 : Nat) : Int) ≤ x := Compilation.le_of_mem_defined_enter hm
      have hx : x < (s.scopes.next : Int) := hx
      omega
    rcases ih x (henter.lt_next hx) hl' hd' v hv with h | ⟨a, ha, hs, hp⟩
    · exact .inl (henter.knows x v h)
    · refine .inr ⟨a, ha, hs, .inr ?_⟩
      rcases hp with hp | hp
      · exact ⟨_, _, hp, by show (s.scopes.next : Int) ≤ (s.scopes.next + 1 : Nat); omega⟩
      · exact hp.mono henter.next_le
  | _ => exact fun x _ _ _ v h => .inl h

def ScopeTable.Interned (t : ScopeTable) : Prop :=
  ∀ entry ∈ t.constants, entry.2.id < (t.next : Int)

theorem ScopeTable.Interned.mono {t t' : ScopeTable} (h : t.Interned)
    (constants : t'.constants = t.constants) (next : t.next ≤ t'.next) : t'.Interned := by
  intro entry he
  rw [constants] at he
  exact Int.lt_of_lt_of_le (h entry he) (Int.ofNat_le.mpr next)

theorem Run.interned (h : Run loose d w d') (hd : d.state.scopes.Interned) :
    d'.state.scopes.Interned := by
  induction h with
  | trans _ _ ih ih₁ => exact ih₁ (ih hd)
  | call s code loc callee operands _ _ _ => exact hd.mono rfl (Nat.le_succ _)
  | constant s code key literal type _ =>
    have hold : s.scopes.fresh.2.Interned := hd.mono rfl (Nat.le_succ _)
    exact List.forall_mem_cons.mpr ⟨Int.ofNat_lt.mpr (Nat.lt_succ_self _), hold⟩
  | create s code loc kind literals _ => exact hd.mono rfl (Nat.le_succ _)
  | object _ _ ih => exact ih hd
  | @block s s₁ w parent kind rest loc opened chain own inner ih =>
    exact ih (hd.mono rfl (s.enters_enterBlock loc parent).next_le)
  | @function s s₁ w _ code definition params body loc _ _ inner ih =>
    exact ih (hd.mono rfl (s.enters_spend definition params loc []).next_le)
  | _ => exact hd

/-- The state of affairs in which statements and expressions are lowered. -/
structure Ready (d : Draft) : Prop where
  sound : d.state.scopes.Sound
  blocks : d.state.frame.blocks ≠ []
  parameters : d.state.frame.parameters ≠ []
  plain : ∀ p ∈ d.state.frame.parameters, d.state.scopes.kind? p.id = none
  defined : ∀ x : Int, x ∈ d.defined → x < d.state.scopes.next
  environment : ∃ x kind rest, d.state.scopes.chain = (x, kind) :: rest ∧ x ∈ d.defined ∧
    d.state.scopes.IsLocal x
  constants : ∀ entry ∈ d.state.scopes.constants, entry.2.IsTyped
  interned : d.state.scopes.Interned
  tame : ∀ x v, d.state.scopes.Knows x v → d.state.Tame v
  cache : ∀ x ∈ d.defined, d.state.scopes.IsLocal x → ∀ v, d.state.scopes.Knows x v →
    d.Has v ∨ d.Borrows v

theorem ScopeTable.Tame.mono {t t' : ScopeTable} {v : Value} (h : t.Tame v) (ht : t.Sound)
    (next : t.next ≤ t'.next) (kinds : ∀ x : Int, x < t.next → t'.kind? x = t.kind? x) :
    t'.Tame v := by
  cases v with
  | const c => trivial
  | scope id x =>
    rcases h with h | h
    · exact .inl ((kinds x (ht.ids x _ h)).trans h)
    · exact .inr ((kinds x (ht.ids x _ h)).trans h)
  | ref id => exact ⟨Int.lt_of_lt_of_le h.1 (Int.ofNat_le.mpr next), (kinds id h.1).trans h.2⟩
  | func id link =>
    obtain ⟨⟨hi, hk⟩, hl⟩ := h
    exact ⟨⟨Int.lt_of_lt_of_le hi (Int.ofNat_le.mpr next), (kinds id hi).trans hk⟩, hl⟩

theorem getElem?_of_prefix {functions others : List Function} (hp : functions <+: others)
    {position : Nat} {f : Function} (h : functions[position]? = some f) :
    others[position]? = some f := by
  obtain ⟨hlt, rfl⟩ := List.getElem?_eq_some_iff.mp h
  exact List.prefix_iff_getElem?.mp hp position hlt

theorem Value.Proper.mono {file : String} {functions others : List Function} {v : Value}
    (h : v.Proper file functions) (hp : functions <+: others) : v.Proper file others := by
  cases v with
  | const c => exact h
  | scope id x => trivial
  | ref id => trivial
  | func id link =>
    obtain ⟨name, position, f, hl, hf, hd⟩ := h
    exact ⟨name, position, f, hl, getElem?_of_prefix hp hf, hd⟩

theorem Compilation.Tame.mono {s s' : Compilation} {v : Value} (h : s.Tame v)
    (hs : s.scopes.Sound) (file : s'.file = s.file) (functions : s.functions <+: s'.functions)
    (next : s.scopes.next ≤ s'.scopes.next)
    (kinds : ∀ x : Int, x < s.scopes.next → s'.scopes.kind? x = s.scopes.kind? x) : s'.Tame v where
  proper := file ▸ h.proper.mono functions
  scope := h.scope.mono hs next kinds
  bound := Int.lt_of_lt_of_le h.bound (Int.ofNat_le.mpr next)

theorem ScopeTable.Knows.kind? {t : ScopeTable} {x : Id} {v : Value} (h : t.Knows x v) :
    ∃ kind, t.kind? x = some kind := by
  obtain ⟨scope, _, _, hs, _, _⟩ := h
  exact ⟨scope.kind, kind?_of_scope? hs⟩

theorem Ready.knows_lt (hr : Ready d) {x : Int} {v : Value} (h : d.state.scopes.Knows x v) :
    x < d.state.scopes.next := by
  obtain ⟨kind, hk⟩ := h.kind?
  exact hr.sound.ids x kind hk

theorem Ready.local_lt (hr : Ready d) {x : Int} (h : d.state.scopes.IsLocal x) :
    x < d.state.scopes.next := by
  obtain ⟨kind, hk⟩ := h.kind?
  exact hr.sound.ids x kind hk

theorem Ready.parameter_lt (hr : Ready d) {p : Parameter} (h : p ∈ d.state.frame.parameters) :
    p.id < (d.state.scopes.next : Int) :=
  hr.defined p.id (Draft.mem_defined.mpr (.inl ⟨p, h, rfl⟩))

theorem Ready.usable_of_lookup? {d : Draft} (hr : Ready d) {name : String} {owner : Scope}
    {declared : Variable} {assignment : Assignment} {v : Value}
    (hl : d.state.scopes.lookup? name = some (owner, declared, 0))
    (ha : owner.assigned? name = some assignment) (hv : assignment.value = some v) :
    d.Usable v := by
  obtain ⟨howner, -⟩ := ScopeTable.lookup?_eq_some hl
  obtain ⟨x, kind, rest, hc, hx, hlocal⟩ := hr.environment
  obtain ⟨scope, hscope, rfl, -⟩ := ScopeTable.environment?_of_chain hc
  rw [ScopeTable.environment?, List.head?_eq_getElem?, howner] at hscope
  cases hscope
  have hknown := ScopeTable.scope?_of_mem_environments (List.mem_of_getElem? howner)
  have hknows : d.state.scopes.Knows owner.id v := ⟨_, name, assignment, hknown, ha, hv⟩
  exact ⟨hr.cache _ hx hlocal v hknows, (hr.tame _ v hknows).proper, (hr.tame _ v hknows).bound⟩

namespace Extends

theorem has (he : Extends d d') (hr : Ready d) {v : Value} (h : d.Has v) : d'.Has v :=
  h.imp_right fun h => he.defined hr.blocks h

theorem source (he : Extends d d') (hr : Ready d) {v : Value} (h : d.Has v ∨ d.Borrows v) :
    d'.Has v ∨ d'.Borrows v := by
  rcases h with h | ⟨a, ha, hs, hp⟩
  · exact .inl (he.has hr h)
  · exact .inr ⟨a, he.accesses.subset ha, hs, by rw [he.parameters]; exact hp⟩

theorem usable (he : Extends d d') (hr : Ready d) {v : Value} (h : d.Usable v) : d'.Usable v where
  source := he.source hr h.source
  proper := he.file ▸ h.proper.mono he.functions
  bound := Int.lt_of_lt_of_le h.bound (Int.ofNat_le.mpr he.next)

theorem tame (he : Extends d d') (hr : Ready d) {v : Value} (h : d.state.Tame v) :
    d'.state.Tame v :=
  h.mono hr.sound he.file he.functions he.next he.kinds

theorem chain (he : Extends d d') (hr : Ready d) :
    d'.state.scopes.chain = d.state.scopes.chain := by
  apply ScopeTable.chain_congr he.stack
  intro x hx
  obtain ⟨kind, hk⟩ := hr.sound.stack x hx
  exact he.kinds x (hr.sound.ids x kind hk)

end Extends

/-- What a run leaves to show: its own scopes have ids in range, and what was recorded is
fit to be used. -/
theorem Run.ready_of (h : Run loose d w d') (hr : Ready d)
    (ids : ∀ (x : Int) (kind : ScopeKind), d'.state.scopes.kind? x = some kind →
      x < d'.state.scopes.next)
    (constants : ∀ entry ∈ d'.state.scopes.constants, entry.2.IsTyped)
    (tame : ∀ x v, d'.state.scopes.Knows x v → d'.state.Tame v)
    (cache : ∀ x ∈ d'.defined, d'.state.scopes.IsLocal x → ∀ v, d'.state.scopes.Knows x v →
      d'.Has v ∨ d'.Borrows v) : Ready d' where
  sound := by
    refine ⟨ids, fun x hx => ?_⟩
    rw [h.extends.stack] at hx
    obtain ⟨kind, hk⟩ := hr.sound.stack x hx
    exact ⟨kind, (h.extends.kinds x (hr.sound.ids x kind hk)).trans hk⟩
  blocks := h.extends.blocks hr.blocks
  parameters := by
    rw [h.extends.parameters]
    exact hr.parameters
  plain := by
    intro p hp
    rw [h.extends.parameters] at hp
    exact (h.extends.kinds p.id (hr.parameter_lt hp)).trans (hr.plain p hp)
  defined := by
    intro x hx
    rcases h.defined_new x hx with hx | hx
    · exact Int.lt_of_lt_of_le (hr.defined x hx) (Int.ofNat_le.mpr h.extends.next)
    · exact hx.2
  environment := by
    obtain ⟨x, kind, rest, hc, hx, hl⟩ := hr.environment
    refine ⟨x, kind, rest, (h.extends.chain hr).trans hc, h.extends.defined hr.blocks hx, ?_⟩
    exact (ScopeTable.isLocal_congr (h.extends.kinds x (hr.local_lt hl))).mpr hl
  constants := constants
  interned := h.interned hr.interned
  tame := tame
  cache := cache

theorem Run.ready_of_knows (h : Run loose d w d') (hr : Ready d)
    (ids : ∀ (x : Int) (kind : ScopeKind), d'.state.scopes.kind? x = some kind →
      x < d'.state.scopes.next)
    (constants : ∀ entry ∈ d'.state.scopes.constants, entry.2.IsTyped)
    (knows : ∀ x v, d'.state.scopes.Knows x v →
      d.state.scopes.Knows x v ∨ d.state.Tame v ∧ d.Has v) : Ready d' := by
  have he := h.extends
  refine h.ready_of hr ids constants ?_ ?_
  · intro x v hv
    rcases knows x v hv with hv | ⟨ht, _⟩
    · exact he.tame hr (hr.tame x v hv)
    · exact he.tame hr ht
  · intro x hx hl v hv
    rcases knows x v hv with hv | ⟨_, hh⟩
    · have hn := hr.knows_lt hv
      have hd : x ∈ d.defined := 
        (h.defined_new x hx).resolve_right fun h => Int.not_le.mpr hn h.1
      exact he.source hr (hr.cache x hd ((ScopeTable.isLocal_congr (he.kinds x hn)).mp hl) v hv)
    · exact .inl (he.has hr hh)

theorem Ready.push {s : Compilation} {code : List Instruction} {x : Id}
    (hr : Ready ⟨s, code⟩) (hx : s.scopes.kind? x = some .object) :
    Ready ⟨{ s with scopes := s.scopes.push x }, code⟩ where
  sound := {
    ids := fun y kind hk => hr.sound.ids y kind ((s.scopes.kind?_push x y).symm.trans hk)
    stack := fun y hy => by
      rcases List.mem_cons.mp hy with rfl | hy
      · exact ⟨_, (s.scopes.kind?_push y y).trans hx⟩
      · obtain ⟨kind, hk⟩ := hr.sound.stack y hy
        exact ⟨kind, (s.scopes.kind?_push x y).trans hk⟩ }
  blocks := hr.blocks
  parameters := hr.parameters
  plain p hp := (s.scopes.kind?_push x p.id).trans (hr.plain p hp)
  defined := hr.defined
  environment := by
    obtain ⟨y, kind, rest, hc, hy, hl⟩ := hr.environment
    exact ⟨y, kind, rest, (ScopeTable.chain_push_object hx).trans hc, hy,
      (ScopeTable.isLocal_congr (s.scopes.kind?_push x y)).mpr hl⟩
  constants := hr.constants
  interned := hr.interned
  tame y v hv := (hr.tame y v (ScopeTable.knows_push hv)).mono hr.sound rfl (List.prefix_refl _)
    (Nat.le_refl _) fun z _ => s.scopes.kind?_push x z
  cache y hy hl v hv := hr.cache y hy
    ((ScopeTable.isLocal_congr (s.scopes.kind?_push x y)).mp hl) v (ScopeTable.knows_push hv)

theorem Ready.enterBlock {s : Compilation} (hr : Ready ⟨s, []⟩) (loc : Location) (parent : Id) :
    Ready ⟨s.enterBlock loc parent, []⟩ := by
  have henter := s.enters_enterBlock loc parent
  have hb : s.frame.blocks ≠ [] := hr.blocks
  have hdefined := s.defined_enterBlock loc parent hb
  exact {
    sound := henter.sound hr.sound
    blocks := s.blocks_enterBlock_ne_nil loc parent
    parameters := by
      rw [s.parameters_enterBlock]
      exact hr.parameters
    plain := fun p hp => by
      rw [s.parameters_enterBlock] at hp
      exact (henter.old (hr.parameter_lt hp)).trans (hr.plain p hp)
    defined := fun x hx => by
      show x < (s.scopes.next + 2 : Nat)
      rcases (Compilation.mem_defined_enterBlock hb).mp hx with h | h
      · have hx : x < (s.scopes.next : Int) := hr.defined x h
        omega
      · omega
    environment := by
      refine ⟨s.scopes.next, .block, s.scopes.chain, henter.chain hr.sound rfl, ?_, .inr henter.new⟩
      rw [hdefined]
      exact List.mem_append_right _ List.mem_cons_self
    constants := hr.constants
    interned := hr.interned.mono rfl henter.next_le
    tame := fun x v hv => (hr.tame x v (henter.knows x v hv)).mono hr.sound rfl
      (List.prefix_refl _) henter.next_le fun _ => henter.old
    cache := fun (x : Int) hx hl v hv => by
      have hv := henter.knows x v hv
      have hn : x < (s.scopes.next : Int) := hr.knows_lt hv
      have hd := Compilation.mem_defined_of_enterBlock hb hn hx
      have hl := (ScopeTable.isLocal_congr (henter.old hn)).mp hl
      refine (hr.cache x hd hl v hv).imp (Or.imp_right fun h => ?_) fun ⟨a, ha, hs, hp⟩ =>
        ⟨a, ha, hs, by rw [s.parameters_enterBlock]; exact hp⟩
      rw [hdefined]
      exact List.mem_append_left _ h }

theorem kind?_parameter_enter {s : Compilation} (hs : s.scopes.Sound)
    (definition : FunctionDefinition) (params : List Node) (loc : Location) (before : List Block)
    {p : Parameter} (hp : p ∈ (s.enter definition params loc before).frame.parameters) :
    (s.enter definition params loc before).scopes.kind? p.id = none := by
  have hscope : s.enteredScope params = s.scopes.next + 1 + params.length := rfl
  have hbounds : (s.scopes.next : Int) ≤ p.id ∧ p.id < (s.enteredScope params : Int) := by
    rcases List.mem_cons.mp hp with rfl | hp
    · show (s.scopes.next : Int) ≤ s.scopes.next ∧ (s.scopes.next : Int) < s.enteredScope params
      omega
    · have hp := mem_parametersFrom hp
      unfold Id at *
      omega
  have hkinds := (s.enters_enter definition params loc before).kinds p.id
  refine hkinds.trans ((if_neg (Int.ne_of_lt hbounds.2)).trans ?_)
  cases hk : s.scopes.kind? p.id with
  | none => rfl
  | some kind => exact absurd (hs.ids p.id kind hk) (Int.not_lt.mpr hbounds.1)

theorem ready_enter {s : Compilation} (definition : FunctionDefinition) (params : List Node)
    (loc : Location) (before : List Block) (sound : s.scopes.Sound)
    (constants : ∀ entry ∈ s.scopes.constants, entry.2.IsTyped) (interned : s.scopes.Interned)
    (tame : ∀ x v, s.scopes.Knows x v → s.Tame v)
    (blocks : ∀ block ∈ before, ∀ i ∈ block.instructions, ∀ x : Int, i.defined? = some x →
      x < s.scopes.next)
    (fresh : ∀ x ∈ Draft.defined ⟨s.enter definition params loc before, []⟩,
      ¬ s.scopes.IsLocal x) :
    Ready ⟨s.enter definition params loc before, []⟩ := by
  have henter := s.enters_enter definition params loc before
  exact {
    sound := henter.sound sound
    blocks := List.cons_ne_nil _ _
    parameters := List.cons_ne_nil _ _
    plain := fun p hp => kind?_parameter_enter sound definition params loc before hp
    defined := fun x hx => by
      rcases Compilation.of_mem_defined_enter hx with ⟨block, hb, y, hy, hd⟩ | hx
      · exact henter.lt_next (blocks block hb y hy x hd)
      · exact hx.2
    environment := by
      refine ⟨s.enteredScope params, .function, s.scopes.chain, henter.chain sound rfl, ?_,
        .inl henter.new⟩
      rw [s.defined_enter]
      exact List.mem_append_right _ List.mem_cons_self
    constants := constants
    interned := interned.mono rfl henter.next_le
    tame := fun x v hv => (tame x v (henter.knows x v hv)).mono sound rfl (List.prefix_refl _)
      henter.next_le fun _ => henter.old
    cache := fun x hx hl v hv => by
      obtain ⟨kind, hk⟩ := (henter.knows x v hv).kind?
      exact absurd ((ScopeTable.isLocal_congr (henter.old (sound.ids x kind hk))).mp hl)
        (fresh x hx) }

/-- Back in the outer function its names are known as before, except for what inner
functions assigned. -/
theorem Run.ready_leave {s s₁ : Compilation} {w' : Work} {code : List Instruction}
    {definition : FunctionDefinition} {params : List Node} {loc : Location} {id : Id}
    {link : FunctionLink}
    (h : Run loose ⟨s, code⟩ w' ⟨s₁.leave loc (s.frame.addClosure id link),
      code ++ [.apply loc s.scopes.next .newObject []]⟩)
    (inner : Run loose ⟨s.spend.enter definition params loc [], []⟩ w ⟨s₁, []⟩)
    (hr : Ready ⟨s, code⟩) (hr₁ : Ready ⟨s₁, []⟩) :
    Ready ⟨s₁.leave loc (s.frame.addClosure id link),
      code ++ [.apply loc s.scopes.next .newObject []]⟩ := by
  refine h.ready_of hr hr₁.sound.ids hr₁.constants (fun x v hv => ?_) ?_
  · have ht := hr₁.tame x v hv
    exact ⟨ht.proper.mono (List.prefix_append _ _), ht.scope, ht.bound⟩
  intro (x : Int) hx hl v hv
  have henter := s.enters_spend definition params loc []
  rw [s.defined_leave, List.mem_append, List.mem_singleton] at hx
  have hscope : s.spend.enteredScope params = s.scopes.next + 2 + params.length := rfl
  have hle : x ≤ s.scopes.next := by
    rcases hx with hd | rfl
    · exact Int.le_of_lt (hr.defined x hd)
    · exact Int.le_refl _
  have hne : x ≠ s.spend.enteredScope params := by omega
  have hlt : x < (s.spend.enter definition params loc []).scopes.next :=
    Int.lt_of_le_of_lt (by omega) henter.bound
  have hlocal : (s.spend.enter definition params loc []).scopes.IsLocal x :=
    (ScopeTable.isLocal_congr (inner.extends.kinds x hlt)).mp hl
  have houter : s.scopes.IsLocal x :=
    (ScopeTable.isLocal_congr ((henter.kinds x).trans (if_neg hne))).mp hlocal
  have hn : x < (s.scopes.next : Int) := hr.local_lt houter
  have hd : x ∈ Draft.defined ⟨s, code⟩ := hx.resolve_right (Int.ne_of_lt hn)
  have hnot : x ∉ Draft.defined ⟨s.spend.enter definition params loc [], []⟩ := by
    intro hm
    have hle : ((s.scopes.next + 1 : Nat) : Int) ≤ x := Compilation.le_of_mem_defined_enter hm
    omega
  rcases inner.knows_outer x hlt hlocal hnot v hv with hk | ⟨a, ha, hs, hp⟩
  · exact h.extends.source hr (hr.cache x hd houter v (henter.knows x v hk))
  · refine .inr ⟨a, ha, hs, fun heq => ?_⟩
    -- The writing function was entered later, so it has another implicit parameter.
    obtain ⟨p, rest, hframe⟩ := List.exists_cons_of_ne_nil hr.parameters
    have hmem : p ∈ s.frame.parameters := hframe ▸ List.mem_cons_self
    have hpn : p.id < (s.scopes.next : Int) := hr.parameter_lt hmem
    have hap : a.parameters = p :: rest := heq.trans hframe
    rcases hp with hp | hp
    · have hpar : p :: rest = (⟨(s.scopes.next + 1 : Nat), parentName, loc⟩ ::
          parametersFrom (s.scopes.next + 1 + 1) params) := hap.symm.trans hp
      rw [(List.cons.inj hpar).1] at hpn
      have hpn : ((s.scopes.next + 1 : Nat) : Int) < s.scopes.next := hpn
      omega
    · obtain ⟨q, _, hq, hge⟩ := hp.mono henter.next_le
      rw [(List.cons.inj (hap.symm.trans hq)).1] at hpn
      exact absurd hpn (Int.not_lt.mpr hge)

theorem Ready.ids_succ (hr : Ready d) (x : Int) (kind : ScopeKind)
    (h : d.state.scopes.kind? x = some kind) : x < (d.state.scopes.next + 1 : Nat) :=
  Int.lt_trans (hr.sound.ids x kind h) (Int.ofNat_lt.mpr (Nat.lt_succ_self _))

theorem Ready.enter {s : Compilation} {code : List Instruction} (hr : Ready ⟨s, code⟩)
    (definition : FunctionDefinition) (params : List Node) (loc : Location) :
    Ready ⟨s.spend.enter definition params loc [], []⟩ := by
  refine ready_enter definition params loc [] ⟨hr.ids_succ, hr.sound.stack⟩ hr.constants
    (hr.interned.mono rfl (Nat.le_succ _)) ?_ (by simp) ?_
  · exact fun x v hv => (hr.tame x v hv).mono hr.sound rfl (List.prefix_refl _) (Nat.le_succ _)
      fun _ _ => rfl
  · intro (x : Int) hx hl
    have hlt : x < (s.scopes.next : Int) := hr.local_lt hl
    have hge : ((s.scopes.next + 1 : Nat) : Int) ≤ x := Compilation.le_of_mem_defined_enter hx
    omega

theorem Run.ready (h : Run loose d w d') (hr : Ready d) : Ready d' := by
  induction h with
  | refl d => exact hr
  | trans _ _ ih ih₁ => exact ih₁ (ih hr)
  | report s code event =>
    have h : Run loose _ _ _ := .report s code event
    exact h.ready_of_knows hr hr.sound.ids hr.constants fun _ _ hv => .inl hv
  | call s code loc callee operands form usable links =>
    have h : Run loose _ _ _ := .call s code loc callee operands form usable links
    exact h.ready_of_knows hr hr.ids_succ hr.constants fun _ _ hv => .inl hv
  | constant s code key literal type typed =>
    have h : Run loose _ _ _ := .constant s code key literal type typed
    exact h.ready_of_knows hr hr.ids_succ (List.forall_mem_cons.mpr ⟨typed, hr.constants⟩)
      fun _ _ hv => .inl hv
  | create s code loc kind literals plain =>
    have h : Run loose _ _ _ := .create s code loc kind literals plain
    refine h.ready_of_knows hr (fun x k hk => ?_) hr.constants fun _ _ hv =>
      .inl (ScopeTable.knows_create hv)
    by_cases hx : x = (s.scopes.next : Int)
    · exact hx ▸ Int.ofNat_lt.mpr (Nat.lt_succ_self _)
    · exact hr.ids_succ x k (((s.scopes.kind?_create kind x).trans (if_neg hx)).symm.trans hk)
  | declare s code x name =>
    have h : Run loose _ _ _ := .declare s code x name
    exact h.ready_of_knows hr
      (fun y kind hk => hr.sound.ids y kind ((s.scopes.kind?_declare x y name).symm.trans hk))
      hr.constants fun _ _ hv => .inl (ScopeTable.knows_declare hv)
  | assign s code x name value has tame target =>
    have h : Run loose _ _ _ := .assign s code x name value has tame target
    refine h.ready_of_knows hr
      (fun y kind hk => hr.sound.ids y kind ((s.scopes.kind?_record x y name value).symm.trans hk))
      hr.constants fun _ v hv => ?_
    rcases ScopeTable.knows_record hv with ⟨_, rfl⟩ | hv
    · exact .inr ⟨tame, has⟩
    · exact .inl hv
  | read s code a parameters chain emitted stored addressed =>
    have h : Run loose _ _ _ := .read s code a parameters chain emitted stored addressed
    exact h.ready_of_knows hr hr.sound.ids hr.constants fun _ _ hv => .inl hv
  | write s code a owner value has tame parameters chain emitted stored addressed =>
    have h : Run loose _ _ _ :=
      .write s code a owner value has tame parameters chain emitted stored addressed
    refine h.ready_of_knows hr
      (fun y kind hk =>
        hr.sound.ids y kind ((s.scopes.kind?_record owner y a.name value).symm.trans hk))
      hr.constants fun _ v hv => ?_
    rcases ScopeTable.knows_record hv with ⟨_, rfl⟩ | hv
    · exact .inr ⟨tame, has⟩
    · exact .inl hv
  | object kind inner ih =>
    have hr₁ := ih (hr.push kind)
    exact (Run.object kind inner).ready_of hr hr₁.sound.ids hr₁.constants
      (fun x v hv => have ht := hr₁.tame x v hv; ⟨ht.proper, ht.scope, ht.bound⟩) hr₁.cache
  | @block s s₁ w parent kind rest loc opened chain own inner ih =>
    have hr₁ := ih (hr.enterBlock loc parent)
    refine (Run.block loc opened chain own inner).ready_of hr hr₁.sound.ids hr₁.constants
      (fun x v hv => have ht := hr₁.tame x v hv; ⟨ht.proper, ht.scope, ht.bound⟩)
      fun x hx hl v hv => ?_
    rw [Compilation.defined_leaveBlock] at hx
    show _ ∨ Borrowed s₁.accesses _ v
    simpa [Draft.Has, Draft.Borrows] using hr₁.cache x hx hl v hv
  | @function s s₁ w _ code definition params body loc named settled inner ih =>
    exact Run.ready_leave (.function code definition params body loc named settled inner) inner hr
      (ih (hr.enter definition params loc))
  | start s code scope loc closed some here =>
    have h : Run loose _ _ _ := .start s code scope loc closed some here
    exact h.ready_of_knows hr hr.sound.ids hr.constants fun _ _ hv => .inl hv
  | place s code opened =>
    have h : Run loose _ _ _ := .place s code opened
    exact h.ready_of_knows hr hr.sound.ids hr.constants fun _ _ hv => .inl hv
  | ret s code loc value opened has tame =>
    have h : Run loose _ _ _ := .ret s code loc value opened has tame
    exact h.ready_of_knows hr hr.sound.ids hr.constants fun _ _ hv => .inl hv

end ScopeIR
