import ScopeIR.Proofs.LiteralTexts
import ScopeIR.Proofs.Scopes

/-! What a table of scopes answers to any series of requests: no id is handed out twice, a scope
is found by its id ever after, constants are the same exactly if their literals are, and the
constants of a kind share one scope. -/
namespace ScopeIR.ScopeTable

inductive Request where
  | fresh
  | create (kind : ScopeKind)
  | push (scope : Id)
  | pop
  | constant (kind : TypeKind) (literal : Literal)
  | literalScope (kind : TypeKind)
deriving Repr

inductive Reply where
  | id (id : Id)
  | scope (scope : Id)
  | entered
  | left (scope : Option Id)
  | constant (constant : Constant)
  | literalScope (scope : Id) (created : Bool)
deriving Repr

def serve (t : ScopeTable) : Request → Reply × ScopeTable
  | .fresh => (.id t.fresh.1, t.fresh.2)
  | .create kind => (.scope (t.create kind).1.id, (t.create kind).2)
  | .push scope => (.entered, t.push scope)
  | .pop => (.left (t.current?.map (·.id)), t.pop)
  | .constant kind literal => (.constant (t.constant kind literal).1, (t.constant kind literal).2)
  | .literalScope kind =>
    (.literalScope (t.literalScope kind).1 (t.literalScope kind).2.1, (t.literalScope kind).2.2)

/-- A request with its reply. Histories are lists of them, newest first. -/
structure Exchange where
  request : Request
  reply : Reply
deriving Repr

namespace Exchange

def created? : Exchange → Option (Id × ScopeKind)
  | ⟨.create kind, .scope x⟩ => some (x, kind)
  | ⟨.literalScope _, .literalScope x true⟩ => some (x, .literal)
  | _ => none

def enters (x : Id) : Exchange → Bool
  | ⟨.push y, _⟩ => y == x
  | _ => false

def constant? : Exchange → Option Constant
  | ⟨_, .constant c⟩ => some c
  | _ => none

def literalScope? (kind : TypeKind) : Exchange → Option (Id × Bool)
  | ⟨.literalScope other, .literalScope x created⟩ =>
    if other = kind then some (x, created) else none
  | _ => none

/-- The id that was handed out and is new. That of a constant is, unless a constant of the past
has it. -/
def newId? (past : List Exchange) : Exchange → Option Id
  | ⟨_, .id x⟩ | ⟨_, .scope x⟩ | ⟨_, .literalScope x true⟩ => some x
  | ⟨_, .constant c⟩ =>
    if past.any (·.constant?.any (·.id == c.id)) then none else some c.id
  | ⟨_, .literalScope _ false⟩ | ⟨_, .entered⟩ | ⟨_, .left _⟩ => none

end Exchange

def newIds : List Exchange → List Id
  | [] => []
  | e :: past => (e.newId? past).toList ++ newIds past

def createdKind? (history : List Exchange) (x : Id) : Option ScopeKind :=
  (history.filterMap Exchange.created?).lookup x

def wasEntered (history : List Exchange) (x : Id) : Bool := history.any (Exchange.enters x)

def scopeFrom (history : List Exchange) (x : Id) : Option Scope :=
  (createdKind? history x).map fun kind => { id := x, kind }

/-- Only scopes of the table are entered, and constants have a literal of their kind. -/
def Request.Allowed (history : List Exchange) : Request → Prop
  | .push x => (createdKind? history x).isSome
  | .constant kind literal => kind.Admits literal
  | .fresh | .create _ | .pop | .literalScope _ => True

/-- The table was empty and has served these requests. -/
inductive Served : List Exchange → ScopeTable → Prop
  | start : Served [] {}
  | step {history : List Exchange} {t : ScopeTable} (request : Request) :
      Served history t → request.Allowed history →
      Served (⟨request, (t.serve request).1⟩ :: history) (t.serve request).2

variable {history : List Exchange} {t : ScopeTable}

theorem createdKind?_of_none {e : Exchange} (h : e.created? = none) (x : Id) :
    createdKind? (e :: history) x = createdKind? history x := by
  rw [createdKind?, List.filterMap_cons_none h]
  rfl

theorem createdKind?_of_some {e : Exchange} {y : Id} {kind : ScopeKind}
    (h : e.created? = some (y, kind)) (x : Id) :
    createdKind? (e :: history) x = if x = y then some kind else createdKind? history x := by
  rw [createdKind?, List.filterMap_cons_some h, lookup_cons_ite]
  rfl

theorem wasEntered_cons (e : Exchange) (x : Id) :
    wasEntered (e :: history) x = (e.enters x || wasEntered history x) := List.any_cons

structure Remembers (history : List Exchange) (t : ScopeTable) : Prop where
  scopes : ∀ x, t.scope? x = scopeFrom history x
  listed : t.scopes.map (fun s => (s.id, s.kind)) = history.filterMap Exchange.created?
  registered : ∀ x, t.registry.get? x = if wasEntered history x then some x else none
  bound : ∀ x : Int, (createdKind? history x).isSome → 0 ≤ x ∧ x < t.next
  length : t.arena.items.length ≤ t.next
  entered : ∀ x, wasEntered history x → (createdKind? history x).isSome

namespace Remembers

variable {t' : ScopeTable} {e : Exchange}

theorem idle (h : Remembers history t) (hc : e.created? = none) (he : ∀ x, e.enters x = false)
    (harena : t'.arena = t.arena) (hregistry : t'.registry = t.registry)
    (hnext : t.next ≤ t'.next) : Remembers (e :: history) t' where
  scopes x := by
    rw [scopeFrom, createdKind?_of_none hc, scope?, harena]
    exact h.scopes x
  listed := by
    rw [List.filterMap_cons_none hc, ScopeTable.scopes, harena]
    exact h.listed
  registered x := by
    rw [wasEntered_cons, he, Bool.false_or, hregistry]
    exact h.registered x
  bound x hx := by
    rw [createdKind?_of_none hc] at hx
    have hlt := h.bound x hx
    omega
  length := by
    rw [harena]
    exact Nat.le_trans h.length hnext
  entered x hx := by
    rw [wasEntered_cons, he, Bool.false_or] at hx
    rw [createdKind?_of_none hc]
    exact h.entered x hx

theorem create (h : Remembers history t) {kind : ScopeKind}
    (hc : e.created? = some ((t.next : Id), kind)) (he : ∀ x, e.enters x = false)
    (harena : t'.arena = (t.create kind).2.arena) (hregistry : t'.registry = t.registry)
    (hnext : t'.next = t.next + 1) : Remembers (e :: history) t' where
  scopes x := by
    have hx := scope?_create t kind x
    rw [scope?, ← harena, h.scopes] at hx
    rw [scopeFrom, createdKind?_of_some hc, scope?, hx]
    by_cases hxn : x = t.next
    · simp [hxn]
    · simp [hxn, scopeFrom]
  listed := by
    rw [List.filterMap_cons_some hc, ScopeTable.scopes, harena, ← ScopeTable.scopes,
      scopes_create h.length, List.map_cons, h.listed]
  registered x := by
    rw [wasEntered_cons, he, Bool.false_or, hregistry]
    exact h.registered x
  bound x hx := by
    rw [createdKind?_of_some hc] at hx
    split at hx
    · have hxn : (x : Int) = t.next := ‹_›
      omega
    · have hlt := h.bound x hx
      omega
  length := by
    rw [harena, hnext]
    exact length_create h.length kind
  entered x hx := by
    rw [wasEntered_cons, he, Bool.false_or] at hx
    rw [createdKind?_of_some hc]
    split
    · rfl
    · exact h.entered x hx

theorem push (h : Remembers history t) {y : Id} (hy : (createdKind? history y).isSome)
    (reply : Reply) : Remembers (⟨.push y, reply⟩ :: history) (t.push y) where
  scopes x := by
    rw [scopeFrom, createdKind?_of_none rfl]
    exact h.scopes x
  listed := by
    rw [List.filterMap_cons_none rfl]
    exact h.listed
  registered x := by
    have hput := t.registry.get?_put (a := y) (h.bound y hy).1 x
    rw [wasEntered_cons]
    refine hput.trans ?_
    by_cases hx : x = y
    · simp [Exchange.enters, hx]
    · have hb : (y == x) = false := by simpa using Ne.symm hx
      rw [if_neg hx, h.registered, Exchange.enters, hb, Bool.false_or]
  bound x hx := by
    rw [createdKind?_of_none rfl] at hx
    exact h.bound x hx
  length := h.length
  entered x hx := by
    rw [wasEntered_cons, Bool.or_eq_true] at hx
    rw [createdKind?_of_none rfl]
    rcases hx with hx | hx
    · cases eq_of_beq hx
      exact hy
    · exact h.entered x hx

end Remembers

theorem Served.remembers (h : Served history t) : Remembers history t := by
  induction h with
  | start =>
    refine ⟨scope?_empty, rfl, fun x => ?_, ?_, Nat.le_refl 0, ?_⟩
    · exact Slots.get?_empty x
    · simp [createdKind?]
    · simp [wasEntered]
  | step request _ hr ih =>
    cases request with
    | fresh => exact ih.idle rfl (fun _ => rfl) rfl rfl (Nat.le_succ _)
    | create kind => exact ih.create rfl (fun _ => rfl) rfl rfl rfl
    | push y => exact ih.push hr _
    | pop => exact ih.idle rfl (fun _ => rfl) rfl rfl (Nat.le_refl _)
    | constant kind literal =>
      refine ih.idle rfl (fun _ => rfl) ?_ ?_ ?_ <;> simp only [serve, constant] <;> split
      · rfl
      · rfl
      · rfl
      · rfl
      · exact Nat.le_refl _
      · exact Nat.le_succ _
    | literalScope kind =>
      simp only [serve, literalScope]
      split
      · exact ih.idle rfl (fun _ => rfl) rfl rfl (Nat.le_refl _)
      · exact ih.create rfl (fun _ => rfl) rfl rfl rfl

structure Interns (history : List Exchange) (t : ScopeTable) : Prop where
  answered : ∀ kind literal c, ⟨.constant kind literal, .constant c⟩ ∈ history →
    kind.Admits literal ∧ t.constants.lookup (kind, literal.canonicalText) = some c
  asked : ∀ key c, t.constants.lookup key = some c → ∃ e ∈ history, e.constant? = some c
  bound : ∀ e ∈ history, ∀ c ∈ e.constant?, c.id < t.next
  apart : ∀ key key' c c', t.constants.lookup key = some c →
    t.constants.lookup key' = some c' → c.id = c'.id → key = key'

namespace Interns

variable {t' : ScopeTable} {e : Exchange}

theorem idle (h : Interns history t) (he : e.constant? = none)
    (hconstants : t'.constants = t.constants) (hnext : t.next ≤ t'.next) :
    Interns (e :: history) t' where
  answered kind literal c hc := by
    rw [hconstants]
    rcases List.mem_cons.mp hc with rfl | hc
    · cases he
    · exact h.answered kind literal c hc
  asked key c hc := by
    rw [hconstants] at hc
    obtain ⟨e', he', hc'⟩ := h.asked key c hc
    exact ⟨e', List.mem_cons_of_mem e he', hc'⟩
  bound e' he' c hc := by
    rcases List.mem_cons.mp he' with rfl | he'
    · rw [he] at hc
      cases hc
    · exact Int.lt_of_lt_of_le (h.bound e' he' c hc) (Int.ofNat_le.mpr hnext)
  apart := by
    rw [hconstants]
    exact h.apart

variable {kind : TypeKind} {literal : Literal}

theorem found (h : Interns history t) (ha : kind.Admits literal) {c : Constant}
    (hc : t.constants.lookup (kind, literal.canonicalText) = some c) :
    Interns (⟨.constant kind literal, .constant c⟩ :: history) t where
  answered kind' literal' c' hc' := by
    rcases List.mem_cons.mp hc' with heq | hc'
    · cases heq
      exact ⟨ha, hc⟩
    · exact h.answered kind' literal' c' hc'
  asked key c' hc' := by
    obtain ⟨e', he', hc'⟩ := h.asked key c' hc'
    exact ⟨e', List.mem_cons_of_mem _ he', hc'⟩
  bound e' he' c' hc' := by
    rcases List.mem_cons.mp he' with rfl | he'
    · obtain ⟨e', he', hc⟩ := h.asked _ c hc
      cases hc'
      exact h.bound e' he' c hc
    · exact h.bound e' he' c' hc'
  apart := h.apart

theorem added (h : Interns history t) (ha : kind.Admits literal)
    (hn : t.constants.lookup (kind, literal.canonicalText) = none) :
    Interns (⟨.constant kind literal, .constant ⟨t.next, literal, .ofKind kind⟩⟩ :: history)
      { t.fresh.2 with constants :=
          ((kind, literal.canonicalText), ⟨t.next, literal, .ofKind kind⟩) :: t.constants } where
  answered kind' literal' c' hc' := by
    rw [lookup_cons_ite]
    rcases List.mem_cons.mp hc' with heq | hc'
    · cases heq
      exact ⟨ha, if_pos rfl⟩
    · obtain ⟨ha', hc'⟩ := h.answered kind' literal' c' hc'
      refine ⟨ha', ?_⟩
      split
      · rename_i heq
        rw [heq, hn] at hc'
        cases hc'
      · exact hc'
  asked key c' hc' := by
    rw [lookup_cons_ite] at hc'
    split at hc'
    · cases hc'
      exact ⟨_, List.mem_cons_self, rfl⟩
    · obtain ⟨e', he', hc'⟩ := h.asked key c' hc'
      exact ⟨e', List.mem_cons_of_mem _ he', hc'⟩
  bound e' he' c' hc' := by
    rcases List.mem_cons.mp he' with rfl | he'
    · cases hc'
      exact Int.ofNat_lt.mpr (Nat.lt_succ_self _)
    · exact Int.lt_of_lt_of_le (h.bound e' he' c' hc') (Int.ofNat_le.mpr (Nat.le_succ _))
  apart key key' c c' hc hc' hid := by
    -- The id of the new constant is above those of the others.
    have hold : ∀ key c, t.constants.lookup key = some c → c.id ≠ t.next := fun key c hc => by
      obtain ⟨e', he', hc⟩ := h.asked key c hc
      exact Int.ne_of_lt (h.bound e' he' c hc)
    rw [lookup_cons_ite] at hc hc'
    split at hc <;> split at hc'
    · rename_i hkey hkey'
      exact hkey.trans hkey'.symm
    · cases hc
      exact absurd hid.symm (hold key' c' hc')
    · cases hc'
      exact absurd hid (hold key c hc)
    · exact h.apart key key' c c' hc hc' hid

end Interns

theorem Served.interns (h : Served history t) : Interns history t := by
  induction h with
  | start =>
    refine ⟨?_, ?_, ?_, ?_⟩
    · rintro _ _ _ ⟨⟩
    · rintro _ _ ⟨⟩
    · rintro _ ⟨⟩
    · rintro _ _ _ _ ⟨⟩
  | @step history t request _ hr ih =>
    cases request with
    | fresh => exact ih.idle rfl rfl (Nat.le_succ _)
    | create kind => exact ih.idle rfl rfl (Nat.le_succ _)
    | push y => exact ih.idle rfl rfl (Nat.le_refl _)
    | pop => exact ih.idle rfl rfl (Nat.le_refl _)
    | constant kind literal =>
      cases hc : t.constants.lookup (kind, literal.canonicalText) with
      | some c =>
        rw [serve, constant_of_some hc]
        exact ih.found hr hc
      | none =>
        rw [serve, constant_of_none hc]
        exact ih.added hr hc
    | literalScope kind =>
      simp only [serve, literalScope]
      split
      · exact ih.idle rfl rfl (Nat.le_refl _)
      · exact ih.idle rfl rfl (Nat.le_succ _)

theorem any_constant_eq_true {c : Constant} (h : ∃ e ∈ history, e.constant? = some c) :
    history.any (·.constant?.any (·.id == c.id)) = true := by
  obtain ⟨e, he, hc⟩ := h
  exact List.any_eq_true.mpr ⟨e, he, by simp [hc]⟩

theorem Interns.any_constant_next (h : Interns history t) :
    history.any (·.constant?.any (·.id == (t.next : Id))) = false := by
  refine List.any_eq_false.mpr fun e he => ?_
  cases hc : e.constant? with
  | none => simp
  | some c => simpa using Int.ne_of_lt (h.bound e he c hc)

/-- New ids count up from zero. -/
theorem Served.newIds_eq (h : Served history t) :
    newIds history = (List.range t.next).reverse.map fun n : Nat => (n : Id) := by
  induction h with
  | start => rfl
  | @step history t request hs hr ih =>
    have hnext : (List.range (t.next + 1)).reverse.map (fun n : Nat => (n : Id)) =
        (t.next : Id) :: newIds history := by
      rw [List.range_succ, List.reverse_append, ih]
      rfl
    cases request with
    | fresh => exact hnext.symm
    | create kind => exact hnext.symm
    | push y => exact ih
    | pop => exact ih
    | constant kind literal =>
      cases hc : t.constants.lookup (kind, literal.canonicalText) with
      | some c =>
        rw [serve, constant_of_some hc, newIds, Exchange.newId?,
          if_pos (any_constant_eq_true (hs.interns.asked _ c hc))]
        exact ih
      | none =>
        rw [serve, constant_of_none hc, newIds, Exchange.newId?,
          if_neg (Bool.eq_false_iff.mp hs.interns.any_constant_next)]
        exact hnext.symm
    | literalScope kind =>
      simp only [serve, literalScope]
      split
      · exact ih
      · exact hnext.symm

theorem Served.nodup_newIds (h : Served history t) : (newIds history).Nodup := by
  rw [h.newIds_eq]
  exact (List.nodup_reverse.mpr List.nodup_range).map fun _ _ => Int.ofNat.inj

def literalScopes (history : List Exchange) (kind : TypeKind) : List (Id × Bool) :=
  history.filterMap (Exchange.literalScope? kind)

/-- A kind has a scope once it was asked for, which was created the first time. -/
inductive Shares (t : ScopeTable) (kind : TypeKind) : List (Id × Bool) → Prop
  | unasked : t.literals.lookup kind = none → Shares t kind []
  | shared {x : Id} : t.literals.lookup kind = some x → (repeats : Nat) →
      Shares t kind (List.replicate repeats (x, false) ++ [(x, true)])

namespace Shares

variable {kind : TypeKind} {replies : List (Id × Bool)}

theorem congr {t' : ScopeTable} (h : Shares t kind replies)
    (ht : t'.literals.lookup kind = t.literals.lookup kind) : Shares t' kind replies := by
  cases h with
  | unasked hn => exact .unasked (ht.trans hn)
  | shared hx repeats => exact .shared (ht.trans hx) repeats

theorem again (h : Shares t kind replies) {x : Id} (hx : t.literals.lookup kind = some x) :
    Shares t kind ((x, false) :: replies) := by
  cases h with
  | unasked hn =>
    rw [hn] at hx
    cases hx
  | shared hx' repeats =>
    cases hx'.symm.trans hx
    exact .shared hx' (repeats + 1)

theorem first (h : Shares t kind replies) (hn : t.literals.lookup kind = none) {t' : ScopeTable}
    {x : Id} (hx : t'.literals.lookup kind = some x) : Shares t' kind ((x, true) :: replies) := by
  cases h with
  | unasked => exact .shared hx 0
  | shared hx' =>
    rw [hn] at hx'
    cases hx'

end Shares

theorem Served.shares (h : Served history t) (kind : TypeKind) :
    Shares t kind (literalScopes history kind) := by
  induction h with
  | start => exact .unasked rfl
  | @step history t request _ _ ih =>
    cases request with
    | fresh | create | push | pop => exact ih.congr rfl
    | constant kind' literal =>
      refine ih.congr ?_
      simp only [serve, constant]
      split <;> rfl
    | literalScope other =>
      by_cases hk : other = kind
      · subst hk
        have hcons : ∀ x created, literalScopes (⟨.literalScope other, .literalScope x created⟩ ::
            history) other = (x, created) :: literalScopes history other := fun x created =>
          List.filterMap_cons_some (if_pos rfl)
        cases hx : t.literals.lookup other with
        | some x =>
          simp only [serve, literalScope, hx, hcons]
          exact ih.again hx
        | none =>
          simp only [serve, literalScope, hx, hcons]
          exact ih.first hx (lookup_cons_ite other other _ _ |>.trans (if_pos rfl))
      · rw [literalScopes, List.filterMap_cons_none (by exact if_neg hk)]
        refine ih.congr ?_
        simp only [serve, literalScope]
        split
        · rfl
        · exact (lookup_cons_ite kind other _ _).trans (if_neg (Ne.symm hk))

structure Consistent (history : List Exchange) (t : ScopeTable) : Prop where
  /-- No id is handed out twice. -/
  ids : (newIds history).Nodup
  /-- A scope reference denotes the scope that was created with its scope id, if one was. -/
  references : ∀ i x, t.scopeOf? (.scope i x) = scopeFrom history x
  /-- Any other value that is no constant denotes the scope of its id from the first time that it
  was entered on. -/
  values : ∀ v : Value, v.isConstant = false → (∀ i x, v ≠ .scope i x) →
    t.scopeOf? v = if wasEntered history v.id then scopeFrom history v.id else none
  entered : ∀ x, wasEntered history x → (scopeFrom history x).isSome
  /-- The scopes of the table are those that were created, in the order in which they were. -/
  listed : t.scopes.map (fun s => (s.id, s.kind)) = history.filterMap Exchange.created?
  /-- Constants are the same exactly if their kinds and literals are, and have different ids
  otherwise. -/
  constants : ∀ kind literal c kind' literal' c',
    ⟨.constant kind literal, .constant c⟩ ∈ history →
    ⟨.constant kind' literal', .constant c'⟩ ∈ history →
    (c = c' ↔ kind = kind' ∧ literal.Same literal') ∧ (c.id = c'.id → c = c')
  /-- The scope of a kind is created when it is asked for first, and the same ever after. -/
  literals : ∀ kind, literalScopes history kind = [] ∨ ∃ x repeats,
    literalScopes history kind = List.replicate repeats (x, false) ++ [(x, true)]

/-- Constants are told apart by their ids, and by what they were asked for. -/
theorem Interns.eq_iff (h : Interns history t) {kind kind' : TypeKind} {literal literal' : Literal}
    {c c' : Constant} (hc : ⟨.constant kind literal, .constant c⟩ ∈ history)
    (hc' : ⟨.constant kind' literal', .constant c'⟩ ∈ history) :
    (c = c' ↔ kind = kind' ∧ literal.Same literal') ∧ (c.id = c'.id → c = c') := by
  obtain ⟨ha, hlookup⟩ := h.answered kind literal c hc
  obtain ⟨ha', hlookup'⟩ := h.answered kind' literal' c' hc'
  have hkey : c.id = c'.id → kind = kind' ∧ literal.canonicalText = literal'.canonicalText :=
    fun hid => Prod.mk.inj (h.apart _ _ c c' hlookup hlookup' hid)
  have heq : kind = kind' ∧ literal.canonicalText = literal'.canonicalText → c = c' := by
    rintro ⟨rfl, htext⟩
    rw [htext] at hlookup
    exact Option.some.inj (hlookup.symm.trans hlookup')
  refine ⟨⟨?_, ?_⟩, fun hid => heq (hkey hid)⟩
  · rintro rfl
    obtain ⟨rfl, htext⟩ := hkey rfl
    exact ⟨rfl, (Literal.canonicalText_eq_iff ha ha').mp htext⟩
  · rintro ⟨rfl, hsame⟩
    exact heq ⟨rfl, (Literal.canonicalText_eq_iff ha ha').mpr hsame⟩

theorem Remembers.scopeOf?_eq (h : Remembers history t) (x : Id) :
    (t.registry.get? x).bind t.scope? =
      if wasEntered history x then scopeFrom history x else none := by
  rw [h.registered]
  split
  · exact h.scopes x
  · rfl

/-- Whatever a table is asked, its answers fit together. -/
theorem served_consistent (h : Served history t) : Consistent history t where
  ids := h.nodup_newIds
  references _ x := h.remembers.scopes x
  values v hv hs := by
    cases v with
    | const c => cases hv
    | scope i x => exact absurd rfl (hs i x)
    | ref x => exact h.remembers.scopeOf?_eq x
    | func x link => exact h.remembers.scopeOf?_eq x
  entered x hx := by
    rw [scopeFrom, Option.isSome_map]
    exact h.remembers.entered x hx
  listed := h.remembers.listed
  constants _ _ _ _ _ _ hc hc' := h.interns.eq_iff hc hc'
  literals kind := by
    have hshares := h.shares kind
    generalize literalScopes history kind = replies at hshares
    cases hshares with
    | unasked => exact .inl rfl
    | shared _ repeats => exact .inr ⟨_, repeats, rfl⟩

theorem served_consistent_revisited : ∃ history t, Served history t ∧ Consistent history t ∧
    newIds history = [4, 3, 2, 1, 0] ∧ t.stack = [] ∧
    t.scopeOf? (.ref 1) = some { id := 1, kind := .function } ∧
    t.scopeOf? (.ref 4) = none ∧ literalScopes history .number = [(4, false), (4, true)] := by
  have h := Served.start
    |>.step .fresh trivial
    |>.step (.create .function) trivial
    |>.step (.push 1) rfl
    |>.step (.constant .string (.str "1")) (.string "1")
    |>.step (.push 1) rfl
    |>.step (.constant .number (.num .one)) (.number .one)
    |>.step .pop trivial
    |>.step (.literalScope .number) trivial
    |>.step (.constant .number (.num .one)) (.number .one)
    |>.step (.literalScope .number) trivial
    |>.step .pop trivial
  exact ⟨_, _, h, served_consistent h, rfl, rfl, rfl, rfl, rfl⟩

end ScopeIR.ScopeTable
