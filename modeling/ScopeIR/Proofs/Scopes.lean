import ScopeIR.Scope.Table

/-! What the operations on a table of scopes do to the kinds of its scopes, to the values
known of their names and to the chain of entered environments. -/
namespace ScopeIR

theorem Names.lookup_set {α : Type} (names : Names α) (name other : String) (item : α) :
    (names.set name item).lookup other =
      if other = name then some item else names.lookup other := by
  induction names with
  | nil =>
    by_cases h : other = name
    · simp [Names.set, h]
    · have hb : (other == name) = false := by simpa using h
      simp [Names.set, List.lookup_cons, h, hb]
  | cons entry rest ih =>
    obtain ⟨key, old⟩ := entry
    unfold Names.set
    by_cases hk : key = name
    · subst hk
      by_cases h : other = key
      · simp [h]
      · have hb : (other == key) = false := by simpa using h
        simp [List.lookup_cons, h, hb]
    · by_cases h : other = key
      · subst h
        simp [hk]
      · have hb : (other == key) = false := by simpa using h
        simp [List.lookup_cons, hk, hb, ih]

theorem lookup_cons_ite {α β : Type} [BEq α] [LawfulBEq α] [DecidableEq α] (key a : α) (b : β)
    (entries : List (α × β)) :
    ((a, b) :: entries).lookup key = if key = a then some b else entries.lookup key := by
  by_cases h : key = a
  · simp [h]
  · have hb : (key == a) = false := by simpa using h
    simp [List.lookup_cons, h, hb]

theorem mem_of_lookup {α β : Type} [BEq α] [LawfulBEq α] {key : α} {b : β}
    {entries : List (α × β)} (h : entries.lookup key = some b) : (key, b) ∈ entries := by
  obtain ⟨_, _, hsplit, -⟩ := List.lookup_eq_some_iff.mp h
  exact hsplit ▸ List.mem_append_right _ List.mem_cons_self

namespace ScopeTable

def kind? (t : ScopeTable) (x : Id) : Option ScopeKind := (t.scope? x).map (·.kind)

def Knows (t : ScopeTable) (x : Id) (value : Value) : Prop :=
  ∃ scope name assignment, t.scope? x = some scope ∧
    scope.assigned? name = some assignment ∧ assignment.value = some value

/-- The entered environments by id and kind, innermost first. -/
def chain (t : ScopeTable) : List (Id × ScopeKind) := t.environments.map fun e => (e.id, e.kind)

theorem scope?_id {t : ScopeTable} {x : Id} {scope : Scope} (h : t.scope? x = some scope) :
    scope.id = x := t.arena.idOf_of_get? h

theorem scope?_empty (x : Id) : ({} : ScopeTable).scope? x = none := Slots.get?_empty x

theorem kind?_empty (x : Id) : ({} : ScopeTable).kind? x = none := by
  rw [kind?, scope?_empty]
  rfl

theorem kind?_of_scope? {t : ScopeTable} {x : Id} {scope : Scope} (h : t.scope? x = some scope) :
    t.kind? x = some scope.kind := by
  simp [kind?, h]

theorem scope?_of_kind? {t : ScopeTable} {x : Id} {kind : ScopeKind}
    (h : t.kind? x = some kind) : ∃ scope, t.scope? x = some scope ∧ scope.kind = kind := by
  simpa [kind?] using h

theorem chain_eq (t : ScopeTable) :
    t.chain = t.stack.filterMap fun x =>
      (t.kind? x).bind fun k => if k.isEnvironment then some (x, k) else none := by
  unfold chain environments entered
  induction t.stack with
  | nil => rfl
  | cons x rest ih =>
    cases h : t.scope? x with
    | none =>
      have hk : t.kind? x = none := by simp [kind?, h]
      simpa [h, hk] using ih
    | some scope =>
      have hk := kind?_of_scope? h
      by_cases he : scope.kind.isEnvironment
      · simp [h, hk, he, scope?_id h, ih]
      · simp [h, hk, he, ih]

theorem chain_congr {t t' : ScopeTable} (hs : t'.stack = t.stack)
    (hk : ∀ x ∈ t.stack, t'.kind? x = t.kind? x) : t'.chain = t.chain := by
  rw [chain_eq, chain_eq, hs]
  revert hk
  generalize t.stack = stack
  induction stack with
  | nil => simp
  | cons x rest ih =>
    intro hk
    have hx := hk x List.mem_cons_self
    have hr := ih fun y hy => hk y (List.mem_cons_of_mem x hy)
    simp only [List.filterMap_cons, hx, hr]

theorem scope?_create (t : ScopeTable) (kind : ScopeKind) (x : Id) :
    (t.create kind).2.scope? x =
      if x = t.next then some { id := t.next, kind } else t.scope? x :=
  t.arena.get?_put (a := { id := t.next, kind }) (Int.natCast_nonneg t.next) x

theorem items_create {t : ScopeTable} (h : t.arena.items.length ≤ t.next) (kind : ScopeKind) :
    (t.create kind).2.arena.items = t.arena.items ++
      (List.replicate (t.next - t.arena.items.length) none ++
        [some { id := t.next, kind }]) :=
  t.arena.items_put_of_length_le (a := { id := t.next, kind }) (Int.ofNat_le.mpr h)

theorem scopes_create {t : ScopeTable} (h : t.arena.items.length ≤ t.next) (kind : ScopeKind) :
    (t.create kind).2.scopes = { id := t.next, kind } :: t.scopes := by
  rw [scopes, Slots.toList, items_create h]
  simp [scopes, Slots.toList]

theorem length_create {t : ScopeTable} (h : t.arena.items.length ≤ t.next) (kind : ScopeKind) :
    (t.create kind).2.arena.items.length ≤ t.next + 1 := by
  rw [items_create h]
  simp only [List.length_append, List.length_replicate, List.length_singleton]
  omega

theorem kind?_create (t : ScopeTable) (kind : ScopeKind) (x : Id) :
    (t.create kind).2.kind? x = if x = t.next then some kind else t.kind? x := by
  unfold kind?
  rw [scope?_create]
  split <;> rfl

theorem knows_create {t : ScopeTable} {kind : ScopeKind} {x : Id} {value : Value}
    (h : (t.create kind).2.Knows x value) : t.Knows x value := by
  obtain ⟨scope, name, assignment, hs, ha, hv⟩ := h
  rw [scope?_create] at hs
  split at hs
  · cases hs
    simp [Scope.assigned?] at ha
  · exact ⟨scope, name, assignment, hs, ha, hv⟩

theorem scope?_modifyScope (t : ScopeTable) (i x : Id) (f : Scope → Scope)
    (hf : ∀ s, (f s).id = s.id) :
    (t.modifyScope i f).scope? x = (t.scope? x).map fun s => if s.id = i then f s else s :=
  t.arena.get?_modify hf i x

theorem kind?_modifyScope (t : ScopeTable) (i x : Id) (f : Scope → Scope)
    (hf : ∀ s, (f s).id = s.id) (hk : ∀ s, (f s).kind = s.kind) :
    (t.modifyScope i f).kind? x = t.kind? x := by
  unfold kind?
  rw [scope?_modifyScope t i x f hf, Option.map_map]
  apply congrArg (fun g => Option.map g (t.scope? x))
  funext s
  by_cases h : s.id = i <;> simp [h, hk]

/-- Declares a name if need be and records a value for it. -/
def record (t : ScopeTable) (i : Id) (name : String) (value : Value) : ScopeTable :=
  t.modifyScope i fun s => (s.declare name).assign (s.variableOf name) (some value)

theorem kind?_assign (t : ScopeTable) (i x : Id) (v : Scope → Variable) (value : Value) :
    (t.modifyScope i fun s => (s.withVariable (v s)).assign (v s) (some value)).kind? x =
      t.kind? x :=
  kind?_modifyScope t i x _ (fun _ => rfl) (fun _ => rfl)

theorem kind?_record (t : ScopeTable) (i x : Id) (name : String) (value : Value) :
    (t.record i name value).kind? x = t.kind? x :=
  kind?_assign t i x (·.variableOf name) value

theorem kind?_declare (t : ScopeTable) (i x : Id) (name : String) :
    (t.modifyScope i (·.declare name)).kind? x = t.kind? x :=
  kind?_modifyScope t i x _ (fun _ => rfl) (fun _ => rfl)

theorem knows_declare {t : ScopeTable} {i x : Id} {name : String} {value : Value}
    (h : (t.modifyScope i (·.declare name)).Knows x value) : t.Knows x value := by
  obtain ⟨scope, key, assignment, hs, ha, hv⟩ := h
  rw [scope?_modifyScope t i x (·.declare name) (fun _ => rfl)] at hs
  obtain ⟨old, ho, rfl⟩ := Option.map_eq_some_iff.mp hs
  refine ⟨old, key, assignment, ho, ?_, hv⟩
  split at ha <;> exact ha

theorem knows_assign {t : ScopeTable} {i x : Id} {v : Scope → Variable} {value known : Value}
    (h : (t.modifyScope i fun s => (s.withVariable (v s)).assign (v s) (some value)).Knows x
      known) : x = i ∧ known = value ∨ t.Knows x known := by
  obtain ⟨scope, key, assignment, hs, ha, hv⟩ := h
  have hm := scope?_modifyScope t i x
    (fun s => (s.withVariable (v s)).assign (v s) (some value)) (fun _ => rfl)
  obtain ⟨old, ho, rfl⟩ := Option.map_eq_some_iff.mp (hm.symm.trans hs)
  split at ha
  · rename_i hi
    unfold Scope.assigned? Scope.assign at ha
    rw [Names.lookup_set] at ha
    split at ha
    · left
      cases ha
      cases hv
      exact ⟨(scope?_id ho).symm.trans hi, rfl⟩
    · exact .inr ⟨old, key, assignment, ho, ha, hv⟩
  · exact .inr ⟨old, key, assignment, ho, ha, hv⟩

theorem knows_record {t : ScopeTable} {i x : Id} {name : String} {value known : Value}
    (h : (t.record i name value).Knows x known) : x = i ∧ known = value ∨ t.Knows x known :=
  knows_assign h

theorem kind?_push (t : ScopeTable) (i x : Id) : (t.push i).kind? x = t.kind? x := rfl

theorem knows_push {t : ScopeTable} {i x : Id} {value : Value} (h : (t.push i).Knows x value) :
    t.Knows x value := h

theorem chain_push_object {t : ScopeTable} {x : Id} (h : t.kind? x = some .object) :
    (t.push x).chain = t.chain := by
  have hk : (t.push x).kind? = t.kind? := funext (kind?_push t x)
  rw [chain_eq, chain_eq, hk]
  simp [push, h, ScopeKind.isEnvironment]

/-- The scopes have ids that were handed out, and those entered are scopes of the table. -/
structure Sound (t : ScopeTable) : Prop where
  ids : ∀ (x : Int) (kind : ScopeKind), t.kind? x = some kind → x < t.next
  stack : ∀ x ∈ t.stack, ∃ kind, t.kind? x = some kind

/-- A new scope is entered; nothing else happens to the scopes there are. -/
structure Enters (t t' : ScopeTable) (x : Int) (kind : ScopeKind) : Prop where
  kinds : ∀ y, t'.kind? y = if y = x then some kind else t.kind? y
  knows : ∀ y value, t'.Knows y value → t.Knows y value
  stack : t'.stack = x :: t.stack
  fresh : t.next ≤ x
  bound : x < t'.next

namespace Enters

variable {t t' : ScopeTable} {x : Int} {kind : ScopeKind}

theorem new (h : t.Enters t' x kind) : t'.kind? x = some kind := (h.kinds x).trans (if_pos rfl)

theorem old (h : t.Enters t' x kind) {y : Int} (hy : y < t.next) : t'.kind? y = t.kind? y :=
  (h.kinds y).trans (if_neg (Int.ne_of_lt (Int.lt_of_lt_of_le hy h.fresh)))

theorem next_le (h : t.Enters t' x kind) : t.next ≤ t'.next := by
  have hf := h.fresh
  have hb := h.bound
  omega

theorem lt_next (h : t.Enters t' x kind) {y : Int} (hy : y < t.next) : y < t'.next :=
  Int.lt_of_lt_of_le hy (Int.ofNat_le.mpr h.next_le)

theorem sound (h : t.Enters t' x kind) (ht : t.Sound) : t'.Sound where
  ids y k hk := by
    by_cases hy : y = x
    · exact hy ▸ h.bound
    · exact h.lt_next (ht.ids y k (((h.kinds y).trans (if_neg hy)).symm.trans hk))
  stack y hy := by
    rw [h.stack] at hy
    rcases List.mem_cons.mp hy with rfl | hy
    · exact ⟨_, h.new⟩
    · obtain ⟨k, hk⟩ := ht.stack y hy
      exact ⟨k, (h.old (ht.ids y k hk)).trans hk⟩

theorem chain (h : t.Enters t' x kind) (ht : t.Sound) (he : kind.isEnvironment) :
    t'.chain = ((x : Id), kind) :: t.chain := by
  have hrest : { t' with stack := t.stack }.chain = t.chain := by
    refine chain_congr (t := t) rfl fun y hy => ?_
    obtain ⟨k, hk⟩ := ht.stack y hy
    exact h.old (ht.ids y k hk)
  rw [chain_eq] at hrest
  rw [chain_eq, h.stack, List.filterMap_cons, h.new, ← hrest]
  simp only [Option.bind_some, he, if_true]
  rfl

end Enters

/-- No environment was entered twice, and one was entered. -/
structure Nested (t : ScopeTable) : Prop where
  ne_nil : t.chain ≠ []
  nodup : (t.chain.map Prod.fst).Nodup

theorem Sound.chain_lt {t : ScopeTable} (h : t.Sound) {x : Int} (hx : x ∈ t.chain.map Prod.fst) : x < t.next := by
  obtain ⟨entry, he, rfl⟩ := List.mem_map.mp hx
  rw [chain_eq] at he
  obtain ⟨y, -, hy⟩ := List.mem_filterMap.mp he
  obtain ⟨kind, hk, hy⟩ := Option.bind_eq_some_iff.mp hy
  split at hy
  · cases hy
    exact h.ids y kind hk
  · cases hy

theorem Nested.enters {t t' : ScopeTable} {x : Int} {kind : ScopeKind} (h : t.Nested)
    (henter : t.Enters t' x kind) (hs : t.Sound) (he : kind.isEnvironment) : t'.Nested := by
  have hchain := henter.chain hs he
  refine ⟨hchain ▸ List.cons_ne_nil _ _, ?_⟩
  rw [hchain, List.map_cons, List.nodup_cons]
  refine ⟨fun hx => ?_, h.nodup⟩
  exact Int.lt_irrefl x (Int.lt_of_lt_of_le (hs.chain_lt hx) henter.fresh)

theorem Nested.of_chain {t t' : ScopeTable} (h : t.Nested) (hc : t'.chain = t.chain) : t'.Nested :=
  ⟨hc ▸ h.ne_nil, hc ▸ h.nodup⟩

theorem enters_create_push (t : ScopeTable) (kind : ScopeKind) {n m : Nat} (hn : t.next ≤ n)
    (hm : n < m) :
    t.Enters { ({ t with next := n }.create kind).2.push n with next := m } n kind where
  kinds y := (kind?_push _ n y).trans (kind?_create { t with next := n } kind y)
  knows _ _ h := knows_create (t := { t with next := n }) (knows_push (i := n) h)
  stack := rfl
  fresh := Int.ofNat_le.mpr hn
  bound := Int.ofNat_lt.mpr hm

theorem chain_of_stack {t : ScopeTable} {x : Id} {rest : List Id} {kind : ScopeKind}
    (hs : t.stack = x :: rest) (hk : t.kind? x = some kind) (he : kind.isEnvironment) :
    ∃ others, t.chain = (x, kind) :: others := by
  rw [chain_eq, hs]
  simp [hk, he]

theorem current?_of_stack {t : ScopeTable} {x : Id} {rest : List Id} {scope : Scope}
    (hs : t.stack = x :: rest) (hx : t.scope? x = some scope) : t.current? = some scope := by
  simp [current?, entered, hs, hx]

theorem environment?_of_chain {t : ScopeTable} {x : Id} {kind : ScopeKind}
    {rest : List (Id × ScopeKind)} (h : t.chain = (x, kind) :: rest) :
    ∃ scope, t.environment? = some scope ∧ scope.id = x ∧ scope.kind = kind := by
  unfold chain at h
  unfold environment?
  cases he : t.environments with
  | nil => simp [he] at h
  | cons scope others =>
    simp only [he, List.map_cons, List.cons.injEq, Prod.mk.injEq] at h
    exact ⟨scope, rfl, h.1.1, h.1.2⟩

theorem scope?_of_mem_environments {t : ScopeTable} {scope : Scope} (h : scope ∈ t.environments) :
    t.scope? scope.id = some scope := by
  obtain ⟨h, _⟩ := List.mem_filter.mp h
  obtain ⟨x, _, hx⟩ := List.mem_filterMap.mp h
  rw [scope?_id hx]
  exact hx

theorem scope?_of_registered {t : ScopeTable} {x : Id} {scope : Scope}
    (h : (t.registry.get? x).bind t.scope? = some scope) : t.scope? x = some scope := by
  obtain ⟨y, hy, hscope⟩ := Option.bind_eq_some_iff.mp h
  obtain rfl : y = x := t.registry.idOf_of_get? hy
  exact hscope

theorem scope?_of_scopeOf? {t : ScopeTable} {value : Value} {scope : Scope}
    (h : t.scopeOf? value = some scope) : t.scope? scope.id = some scope := by
  cases value with
  | const c => cases h
  | scope id x => exact (scope?_id h).symm ▸ h
  | ref id =>
    have h := scope?_of_registered h
    exact (scope?_id h).symm ▸ h
  | func id link =>
    have h := scope?_of_registered h
    exact (scope?_id h).symm ▸ h

/-- The first scope of a list that declares a name, with its position. -/
theorem findSome?_declared {scopes : List Scope} {name : String} {owner : Scope} {v : Variable}
    {first links : Nat}
    (h : (scopes.zipIdx first).findSome? (fun (s, links) =>
      (s.declared? name).map fun v => (s, v, links)) = some (owner, v, links)) :
    ∃ i, links = first + i ∧ scopes[i]? = some owner ∧
      scopes.findIdx? (fun s => (s.declared? name).isSome) = some i := by
  induction scopes generalizing first with
  | nil => simp at h
  | cons s rest ih =>
    rw [List.zipIdx_cons, List.findSome?_cons] at h
    cases hd : s.declared? name with
    | some v' =>
      simp only [hd, Option.map_some, Option.some.injEq, Prod.mk.injEq] at h
      obtain ⟨rfl, -, rfl⟩ := h
      exact ⟨0, rfl, rfl, by simp [List.findIdx?_cons, hd]⟩
    | none =>
      simp only [hd, Option.map_none] at h
      obtain ⟨i, rfl, ho, hi⟩ := ih h
      exact ⟨i + 1, by omega, ho, by simp [List.findIdx?_cons, hd, hi]⟩

theorem lookup?_eq_some {t : ScopeTable} {name : String} {owner : Scope} {v : Variable}
    {links : Nat} (h : t.lookup? name = some (owner, v, links)) :
    t.environments[links]? = some owner ∧
      t.environments.findIdx? (fun s => (s.declared? name).isSome) = some links := by
  obtain ⟨i, hi, ho, hf⟩ := findSome?_declared h
  rw [Nat.zero_add] at hi
  subst hi
  exact ⟨ho, hf⟩

theorem lookup?_eq_none {t : ScopeTable} {name : String} (h : t.lookup? name = none) :
    t.environments.findIdx? (fun s => (s.declared? name).isSome) = none := by
  rw [List.findIdx?_eq_none_iff]
  intro s hs
  unfold lookup? at h
  rw [List.findSome?_eq_none_iff] at h
  obtain ⟨i, hi⟩ := List.mem_iff_getElem?.mp hs
  have hm : (s, i) ∈ t.environments.zipIdx := by
    rw [List.mem_zipIdx_iff_getElem?]
    exact hi
  simpa using h (s, i) hm

variable {t : ScopeTable} {kind : TypeKind} {literal : Literal}

theorem constant_of_some {c : Constant}
    (h : t.constants.lookup (kind, literal.canonicalText) = some c) :
    t.constant kind literal = (c, t) := by
  simp only [constant, h]

theorem constant_of_none
    (h : t.constants.lookup (kind, literal.canonicalText) = none) :
    t.constant kind literal = (⟨t.next, literal, .ofKind kind⟩, { t.fresh.2 with
      constants := ((kind, literal.canonicalText), ⟨t.next, literal, .ofKind kind⟩) ::
        t.constants }) := by
  simp only [constant, h]
  rfl

theorem literalScope_of_some {x : Id} (h : t.literals.lookup kind = some x) :
    t.literalScope kind = (x, false, t) := by
  simp only [literalScope, h]

theorem literalScope_of_none (h : t.literals.lookup kind = none) :
    t.literalScope kind = ((t.next : Id), true, { (t.create .literal).2 with
      literals := (kind, (t.next : Id)) :: t.literals }) := by
  simp only [literalScope, h]
  rfl

end ScopeTable

end ScopeIR
