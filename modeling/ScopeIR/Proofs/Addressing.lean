import ScopeIR.Proofs.Accesses
import ScopeIR.Proofs.Links

/-! Lexical addressing. The code of an access follows the parent links that the output
stores, one for each environment between the innermost and the one that declares the name. -/
namespace ScopeIR

variable {loose : Prop} {d d' : Draft} {w : Work} {n : Nat} {x : Id} {kind : ScopeKind}
  {inner outer : List (Id × ScopeKind)}

def Function.Activates (f : Function) (x : Id) : Prop := ∃ loc, .scope loc x ∈ f.code

/-- An environment made since so many ids is linked: a block to the environment around it, an
activation record to the implicit parameter of its function. -/
structure Draft.LinkedTo (d : Draft) (n : Nat) (x : Id) (kind : ScopeKind)
    (outer : List (Id × ScopeKind)) : Prop where
  made : (n : Int) ≤ x
  isKind : d.state.scopes.kind? x = some kind
  linked : (kind = .block ∧ ∃ next, outer.head? = some next ∧ d.links x = [.ofScope next.1]) ∨
    (kind = .function ∧ ∃ f ∈ d.state.functions, f.Activates x ∧
      ∃ p, f.parameters.head? = some p ∧ d.links x = [p.value])

def Draft.Linked (d : Draft) (n : Nat) :
    List (Id × ScopeKind) → List (Id × ScopeKind) → Prop
  | [], _ => True
  | (x, kind) :: inner, outer => d.LinkedTo n x kind (inner ++ outer) ∧ d.Linked n inner outer

namespace Draft

theorem linked_append {more : List (Id × ScopeKind)} :
    d.Linked n (inner ++ more) outer ↔
      d.Linked n inner (more ++ outer) ∧ d.Linked n more outer := by
  induction inner with
  | nil => simp [Linked]
  | cons entry inner ih => simp [Linked, ih, and_assoc]

theorem Linked.imp {m : Nat} (h : d.Linked n inner outer)
    (himp : ∀ x kind outer, d.LinkedTo n x kind outer → d'.LinkedTo m x kind outer) :
    d'.Linked m inner outer := by
  induction inner with
  | nil => trivial
  | cons entry inner ih => exact ⟨himp _ _ _ h.1, ih h.2⟩

theorem LinkedTo.isLocal (h : d.LinkedTo n x kind outer) : d.state.scopes.IsLocal x := by
  rcases h.linked with ⟨hb, -⟩ | ⟨hf, -⟩
  · exact .inr (hb ▸ h.isKind)
  · exact .inl (hf ▸ h.isKind)

theorem LinkedTo.mono {m : Nat} (h : d.LinkedTo n x kind outer) (hm : m ≤ n) :
    d.LinkedTo m x kind outer :=
  ⟨Int.le_trans (Int.ofNat_le.mpr hm) h.made, h.isKind, h.linked⟩

theorem LinkedTo.keep (h : d.LinkedTo n x kind outer)
    (kinds : d'.state.scopes.kind? x = d.state.scopes.kind? x)
    (functions : d.state.functions ⊆ d'.state.functions) (links : d'.links x = d.links x) :
    d'.LinkedTo n x kind outer where
  made := h.made
  isKind := kinds.trans h.isKind
  linked := by
    rw [links]
    exact h.linked.imp_right fun ⟨hk, f, hf, h⟩ => ⟨hk, f, functions hf, h⟩

end Draft

theorem ScopeTable.IsLocal.ne {t : ScopeTable} (h : t.IsLocal x) :
    t.kind? x ≠ some .object ∧ t.kind? x ≠ some .global := by
  rcases h with h | h <;> simp [h]

theorem Run.linkedTo (h : Run loose d w d') (hl : ¬ loose) (hr : Ready d)
    (hx : d.LinkedTo n x kind outer) : d'.LinkedTo n x kind outer := by
  have hlt := hr.local_lt hx.isLocal
  exact hx.keep (h.extends.kinds x hlt) h.extends.functions.subset
    (h.links_eq hl hr x (.inl hlt) hx.isLocal.ne)

theorem linkedTo_enterBlock {s : Compilation} {parent : Id} {rest : List (Id × ScopeKind)}
    (hb : s.frame.blocks ≠ []) (hc : Draft.Clean ⟨s, []⟩)
    (hchain : s.scopes.chain = (parent, kind) :: rest) (loc : Location) :
    Draft.LinkedTo ⟨s.enterBlock loc parent, []⟩ s.scopes.next s.scopes.next .block
      s.scopes.chain where
  made := Int.le_refl _
  isKind := (s.enters_enterBlock loc parent).new
  linked := by
    refine .inl ⟨rfl, (parent, kind), by rw [hchain]; rfl, ?_⟩
    have hold : Draft.links ⟨s, []⟩ s.scopes.next = [] := hc s.scopes.next (Int.le_refl _)
    rw [s.links_enterBlock loc parent _ hb, hold, if_pos rfl, List.nil_append]

theorem Run.activates {s s₁ : Compilation} {definition : FunctionDefinition}
    {params : List Node} {loc : Location} {before : List Block}
    (h : Run loose ⟨s.enter definition params loc before, []⟩ w ⟨s₁, []⟩) (file : String) :
    (s₁.frame.finish file loc).Activates (s.enteredScope params) := by
  have hpiece : Draft.Contains ⟨s.enter definition params loc before, []⟩
      [.scope loc (s.enteredScope params)] :=
    .inr ⟨_, List.mem_cons_self, (List.prefix_append [_] [_]).isInfix⟩
  obtain ⟨block, hblock, hc⟩ := Draft.Contains.finish
    (h.extends.contains (List.cons_ne_nil _ _) _ hpiece)
    (h.extends.blocks (List.cons_ne_nil _ _)) file loc
  exact ⟨loc, List.mem_flatMap.mpr ⟨block, hblock, hc.subset List.mem_cons_self⟩⟩

theorem Run.activation {s s₁ : Compilation} {definition : FunctionDefinition}
    {params : List Node} {loc : Location} {before : List Block}
    (h : Run loose ⟨s.enter definition params loc before, []⟩ w ⟨s₁, []⟩) (hl : ¬ loose)
    (hr : Ready ⟨s.enter definition params loc before, []⟩)
    (hfunctions : parentsStored (s.enteredScope params) (s.functions.flatMap Function.code) = [])
    (hbefore : parentsStored (s.enteredScope params)
      (before.reverse.flatMap (·.instructions)) = []) (file : String) :
    s₁.scopes.kind? (s.enteredScope params) = some .function ∧
      (s₁.frame.finish file loc).Activates (s.enteredScope params) ∧
      ∃ p, (s₁.frame.finish file loc).parameters.head? = some p ∧
        Draft.links ⟨s₁, []⟩ (s.enteredScope params) = [p.value] := by
  have hkind : (s.enter definition params loc before).scopes.kind? (s.enteredScope params) =
      some .function := (s.enters_enter definition params loc before).new
  have hlt := hr.sound.ids _ _ hkind
  have hlinks := h.links_eq hl hr _ (.inl hlt) (ScopeTable.IsLocal.ne (.inl hkind))
  rw [s.links_enter, hfunctions, hbefore, if_pos rfl] at hlinks
  refine ⟨(h.extends.kinds _ hlt).trans hkind, h.activates file, ⟨s.scopes.next, parentName, loc⟩,
    ?_, hlinks⟩
  show s₁.frame.parameters.head? = _
  rw [h.extends.parameters]
  rfl

def Access.Sound (a : Access) : Prop :=
  (a.stored = none → Parameter.declared? a.name a.parameters = none) → a.Addressed

/-- The accesses that a run records are addressed, and their environments linked. -/
theorem Run.linked (h : Run loose d w d') (hl : ¬ loose) (hr : Ready d) (hc : d.Clean) :
    ∀ a ∈ d'.state.accesses, a ∈ d.state.accesses ∨ a.Sound ∧
      ∃ inner, a.scopes.chain = inner ++ d.state.scopes.chain ∧
        d'.Linked d.state.scopes.next inner d.state.scopes.chain := by
  induction h with
  | @trans d d₁ d₂ w w₁ h h₁ ih ih₁ =>
    intro a ha
    have hr₁ := h.ready hr
    rcases ih₁ hr₁ (h.clean hl hr hc) a ha with ha | ⟨hs, inner, hchain, hlinked⟩
    · refine (ih hr hc a ha).imp_right fun ⟨hs, inner, hchain, hlinked⟩ => ⟨hs, inner, hchain, ?_⟩
      exact hlinked.imp fun _ _ _ hx => h₁.linkedTo hl hr₁ hx
    · rw [h.extends.chain hr] at hchain hlinked
      exact .inr ⟨hs, inner, hchain, hlinked.imp fun _ _ _ hx => hx.mono h.extends.next⟩
  | read s code a _ chain _ stored addressed =>
    intro a' ha
    rcases List.mem_cons.mp ha with rfl | ha
    · exact .inr ⟨fun hp => addressed (hp stored), [], chain, trivial⟩
    · exact .inl ha
  | write s code a owner value _ _ _ chain _ _ addressed =>
    intro a' ha
    rcases List.mem_cons.mp ha with rfl | ha
    · exact .inr ⟨fun _ => addressed, [], chain, trivial⟩
    · exact .inl ha
  | @object s s₁ code code₁ w y kind inner ih =>
    intro a ha
    have hchain := ScopeTable.chain_push_object kind
    refine (ih (hr.push kind) hc a ha).imp_right fun ⟨hs, env, henv, hlinked⟩ => ⟨hs, env, ?_, ?_⟩
    · exact henv.trans (congrArg (env ++ ·) hchain)
    · refine Draft.Linked.imp (hchain ▸ hlinked) fun x _ _ hx => ?_
      exact hx.keep rfl (List.Subset.refl _) rfl
  | @block s s₁ w parent kind rest loc opened chain own run ih =>
    intro a ha
    have hr' := hr.enterBlock loc parent
    refine (ih hr' (hc.enterBlock hr.blocks loc parent) a ha).imp_right
      fun ⟨hs, env, henv, hlinked⟩ => ?_
    rw [(s.enters_enterBlock loc parent).chain hr.sound rfl] at henv hlinked
    have hnew := run.linkedTo hl hr' (linkedTo_enterBlock hr.blocks hc chain loc)
    refine ⟨hs, env ++ [((s.scopes.next : Id), ScopeKind.block)], by simpa using henv, ?_⟩
    refine Draft.linked_append.mpr
      ⟨?_, hnew.keep rfl (List.Subset.refl _) (s₁.links_leaveBlock loc parent _), trivial⟩
    refine Draft.Linked.imp hlinked fun x _ _ hx => ?_
    exact (hx.mono (Nat.le_add_right _ 2)).keep rfl (List.Subset.refl _)
      (s₁.links_leaveBlock loc parent x)
  | @function s s₁ w _ code definition params body loc _ _ run ih =>
    intro a ha
    have hr' := hr.enter definition params loc
    have hscope : s.spend.enteredScope params = s.scopes.next + 2 + params.length := rfl
    have hle : (s.scopes.next : Int) ≤ s.spend.enteredScope params := by omega
    refine (ih hr' (hc.enter definition params loc) a ha).imp_right
      fun ⟨hs, env, henv, hlinked⟩ => ?_
    have hchain : (s.spend.enter definition params loc []).scopes.chain =
        ((s.spend.enteredScope params : Id), .function) :: s.scopes.chain :=
      (s.enters_spend definition params loc []).chain hr.sound rfl
    rw [hchain] at henv hlinked
    obtain ⟨hkind, hact, p, hp, hlinks⟩ := run.activation hl hr' (hc.functions hle).1 rfl s₁.file
    -- The function around it links none of the scopes made inside.
    have hleave : ∀ x : Int, s.scopes.next ≤ x → Draft.links ⟨s₁.leave loc
        (s.frame.addClosure s.scopes.next ⟨definition, some s₁.functions.length⟩),
        code ++ [.apply loc s.scopes.next .newObject []]⟩ x = Draft.links ⟨s₁, []⟩ x := by
      intro x hx
      rw [s.links_leave, (hc.functions hx).2, List.append_nil]
    refine ⟨hs, env ++ [((s.spend.enteredScope params : Id), ScopeKind.function)],
      by simpa using henv, ?_⟩
    refine Draft.linked_append.mpr ⟨?_, ⟨hle, hkind, .inr ⟨rfl, _, ?_, hact, p, hp, ?_⟩⟩, trivial⟩
    · refine Draft.Linked.imp hlinked fun x _ _ hx => ?_
      have hx := hx.mono (s.enters_spend definition params loc []).next_le
      exact hx.keep rfl (List.subset_append_left _ _) (hleave x hx.made)
    · exact List.mem_append_right _ List.mem_cons_self
    · exact (hleave _ hle).trans hlinks
  | _ => exact fun _ ha => .inl ha

/-- The environment is linked in the output to the ones around it: a block to the next one,
an activation record to the implicit parameter of its function. The global one is the last. -/
def Scope.LinkedIn (e : Scope) (functions : List Function) (outer : List Scope) : Prop :=
  match e.kind with
  | .block => ∃ next, outer.head? = some next ∧
      parentsStored e.id (functions.flatMap Function.code) = [next.value]
  | .function => ∃ f ∈ functions, f.Activates e.id ∧ ∃ p, f.parameters.head? = some p ∧
      parentsStored e.id (functions.flatMap Function.code) = [p.value]
  | .global => outer = []
  | _ => False

theorem Scope.linkedIn_of {e : Scope} {functions : List Function} {outer : List Scope}
    (h : (e.kind = .block ∧ ∃ next, (outer.map fun o => (o.id, o.kind)).head? = some next ∧
        parentsStored e.id (functions.flatMap Function.code) = [.ofScope next.1]) ∨
      (e.kind = .function ∧ ∃ f ∈ functions, f.Activates e.id ∧ ∃ p, f.parameters.head? = some p ∧
        parentsStored e.id (functions.flatMap Function.code) = [p.value]) ∨
      (e.kind = .global ∧ outer = [])) : e.LinkedIn functions outer := by
  unfold LinkedIn
  rcases h with ⟨hk, next, hn, hp⟩ | ⟨hk, hf⟩ | ⟨hk, ho⟩
  · rw [List.head?_map] at hn
    obtain ⟨o, ho, rfl⟩ := Option.map_eq_some_iff.mp hn
    rw [hk]
    exact ⟨o, ho, hp⟩
  · rw [hk]
    exact hf
  · rw [hk]
    exact ho

theorem Draft.Linked.getElem? (h : d.Linked n inner outer) {i : Nat}
    (hi : inner[i]? = some (x, kind)) : d.LinkedTo n x kind ((inner ++ outer).drop (i + 1)) := by
  induction inner generalizing i with
  | nil => simp at hi
  | cons entry inner ih =>
    cases i with
    | zero =>
      cases hi
      exact h.1
    | succ i => exact ih h.2 hi

namespace ProgramRun

variable {file : String} {hosts : List String} {node : Node} {functions : List Function}
  {result : Compilation}

theorem linkedIn (p : ProgramRun loose file hosts node functions result) (hl : ¬ loose) {a : Access}
    (ha : a ∈ result.accesses) : a.Sound ∧ a.environments.getLast?.map (·.kind) = some .global ∧
      ∀ (i : Nat) (e : Scope), a.environments[i]? = some e →
        e.LinkedIn functions (a.environments.drop (i + 1)) := by
  have hstart : (p.seeded.enterMain file p.loc p.prologue).accesses = [] := p.seeds.accesses
  have hchain : (p.seeded.enterMain file p.loc p.prologue).scopes.chain =
      [((p.seeded.enteredScope [] : Id), .function), (0, .global)] :=
    ((p.seeded.enters_enter _ _ _ _).chain p.seeds.sound rfl).trans (congrArg _ p.seeds.chain)
  rcases p.run.linked hl p.seeds.ready p.seeds.clean a (p.accesses ▸ ha) with
    ha | ⟨hs, inner, hinner, hlinked⟩
  · simp [hstart] at ha
  rw [hchain] at hinner hlinked
  have hmain : (p.seeded.enteredScope [] : Id) ≠ 0 := by
    show ((p.seeded.scopes.next + 1 + 0 : Nat) : Int) ≠ 0
    omega
  obtain ⟨hfunctions, hbefore⟩ := p.seeds.links_enterMain hmain
  obtain ⟨-, hact, q, hq, hlinks⟩ :=
    p.run.activation hl p.seeds.ready hfunctions hbefore file
  have henv : a.environments.map (fun o => (o.id, o.kind)) =
      inner ++ [((p.seeded.enteredScope [] : Id), .function), (0, .global)] := hinner
  have hlast : a.environments.getLast?.map (fun o => (o.id, o.kind)) =
      some ((0 : Id), ScopeKind.global) := by
    rw [← List.getLast?_map, henv]
    simp
  refine ⟨hs, by simpa using congrArg (Option.map Prod.snd) hlast, fun i e he =>
    Scope.linkedIn_of ?_⟩
  have hi : (inner ++ [((p.seeded.enteredScope [] : Id), .function), (0, .global)])[i]? =
      some (e.id, e.kind) := by
    rw [← henv, List.getElem?_map, he]
    rfl
  rw [List.map_drop, henv, p.parentsStored_eq]
  rw [List.getElem?_append] at hi
  split at hi
  · rcases (hlinked.getElem? hi).linked with ⟨hk, h⟩ | ⟨hk, f, hf, h⟩
    · exact .inl ⟨hk, h⟩
    · exact .inr (.inl ⟨hk, f, p.mem_functions.mpr (.inl hf), h⟩)
  -- Past the environments that were entered since: the main record, then the global one.
  · rename_i hlt
    obtain ⟨k, rfl⟩ := Nat.exists_eq_add_of_le (Nat.le_of_not_lt hlt)
    rw [Nat.add_sub_cancel_left] at hi
    match k, hi with
    | 0, hi =>
      simp only [List.getElem?_cons_zero, Option.some.injEq, Prod.mk.injEq] at hi
      refine .inr (.inl ⟨hi.2.symm, _, p.mem_functions.mpr (.inr rfl), ?_⟩)
      rw [← hi.1]
      exact ⟨hact, q, hq, hlinks⟩
    | 1, hi =>
      simp only [List.getElem?_cons_succ, List.getElem?_cons_zero, Option.some.injEq,
        Prod.mk.injEq] at hi
      refine .inr (.inr ⟨hi.2.symm, List.drop_eq_nil_of_le ?_⟩)
      exact Nat.le_of_eq (by simpa using congrArg List.length henv)

end ProgramRun

/-- Names are addressed lexically in programs that do not name the parent field. Every name
that is read or written is recorded. The code of a recorded access stands in a function with
the parameters that it was lowered under. Unless it reads a parameter, it follows one parent
link for each environment between the innermost and the first that declares the name, and
these are the links that the output stores. -/
theorem accesses_addressed {file : String} {hosts : List String} {node : Node}
    {functions : List Function} {s : Compilation}
    (h : Lower.program hosts node (.start file) = .ok functions s)
    (hq : ¬ node.Mentions parentName) :
    (∀ name ref loc s₀ e s₁, Lower.identifier name ref loc s₀ = .ok e s₁ →
      ⟨name, none, loc, s₀.frame.parameters, s₀.scopes, e.code⟩ ∈ s₁.accesses) ∧
    (∀ name value ref loc s₀ code s₁, Lower.assignIdentifier name value ref loc s₀ = .ok code s₁ →
      ⟨name, some value, loc, s₀.frame.parameters, s₀.scopes, code⟩ ∈ s₁.accesses) ∧
    ∀ a ∈ s.accesses,
      (∃ f ∈ functions, f.parameters = a.parameters ∧
        ∃ block ∈ f.blocks, a.code <:+: block.instructions) ∧
      ((a.stored = none → Parameter.declared? a.name a.parameters = none) → a.Addressed) ∧
      a.environments.getLast?.map (·.kind) = some .global ∧
      ∀ (i : Nat) (e : Scope), a.environments[i]? = some e →
        e.LinkedIn functions (a.environments.drop (i + 1)) := by
  refine ⟨fun _ _ _ _ _ _ => Lower.identifier_recorded,
    fun _ _ _ _ _ _ _ => Lower.assignIdentifier_recorded, fun a ha => ?_⟩
  have hquiet : Quiet (node.Mentions parentName) node := id
  obtain ⟨p⟩ := Lower.program_eq_ok hquiet h
  obtain ⟨f, hf, hown⟩ := p.exists_owner a ha
  exact ⟨⟨f, hf, hown.parameters.symm, hown.code⟩, p.linkedIn hq ha⟩

/-- `var x; function g(a) { { x = a; } }` -/
def distantWrite : Node :=
  .program {} "script" [
    .variableDeclaration {} "var" [.variableDeclarator {} (.identifier {} "x") .missing],
    .functionDeclaration {} (.identifier {} "g") [.identifier {} "a"] (.blockStatement {} [
      .blockStatement {} [.expressionStatement {} (.assignment {} "=" (.identifier {} "x")
        (.identifier {} "a"))]])]

theorem not_mentions_distantWrite : ¬ distantWrite.Mentions parentName := by
  unfold distantWrite
  repeat' first
    | refine Node.not_mentions (by simp [parentName]) ?_
    | refine List.forall_mem_cons.mpr ⟨?_, ?_⟩
    | exact List.forall_mem_nil _

theorem distantWrite_addressed : ¬ distantWrite.Mentions parentName ∧ ∃ functions s,
    Lower.program [] distantWrite (.start "f.js") = .ok functions s ∧
      ∃ a ∈ s.accesses, a.name = "x" ∧ a.distance = 2 ∧ a.Addressed ∧
        ∀ (i : Nat) (e : Scope), a.environments[i]? = some e →
          e.LinkedIn functions (a.environments.drop (i + 1)) := by
  obtain ⟨functions, s, h, hs⟩ := Lower.exists_program_ok "f.js" [] distantWrite
    (fun _ s => s.accesses.map fun a => (a.name, a.stored.isSome, a.distance))
    (b := [("x", true, 2), ("a", false, 1)]) (by decide +kernel)
  obtain ⟨-, -, hall⟩ := accesses_addressed h not_mentions_distantWrite
  obtain ⟨a, ha, hdata⟩ : ∃ a ∈ s.accesses,
      (a.name, a.stored.isSome, a.distance) = ("x", true, 2) :=
    List.mem_map.mp (hs ▸ List.mem_cons_self)
  simp only [Prod.mk.injEq, Option.isSome_iff_ne_none] at hdata
  obtain ⟨-, haddr, -, hlinked⟩ := hall a ha
  exact ⟨not_mentions_distantWrite, functions, s, h, a, ha, hdata.1, hdata.2.2,
    haddr fun hnone => absurd hnone hdata.2.1, hlinked⟩

end ScopeIR
