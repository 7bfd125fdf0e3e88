import ScopeIR.Proofs.Programs

/-! Parent links in the output. Each environment of a function gets one when it is made, and
code of a program that does not name the parent field adds no other. -/
namespace ScopeIR

variable {loose : Prop} {s s' : Compilation} {code : List Instruction} {d d' : Draft} {w : Work}

/-- The value that an instruction stores in the parent field of a scope, addressed by its
canonical reference. -/
def Instruction.parentStored? (x : Id) : Instruction → Option Value
  | .call _ _ _ callee [some (.scope id y), some value] =>
    if callee = .setField parentName ∧ id = x ∧ y = x then some value else none
  | _ => none

def parentsStored (x : Id) (code : List Instruction) : List Value :=
  code.filterMap (·.parentStored? x)

@[simp] theorem parentsStored_nil (x : Id) : parentsStored x [] = [] := rfl

@[simp] theorem parentsStored_append (x : Id) (code added : List Instruction) :
    parentsStored x (code ++ added) = parentsStored x code ++ parentsStored x added :=
  List.filterMap_append

theorem parentStored?_apply {x : Id} {loc : Location} {n : Id} {callee : FunctionDefinition}
    {operands : List Value} {v : Value} :
    (Instruction.apply loc n callee operands).parentStored? x = some v ↔
      callee = .setField parentName ∧ operands = [.ofScope x, v] := by
  match operands with
  | [.scope id y, value] =>
    simp only [Instruction.apply, List.map_cons, List.map_nil, Instruction.parentStored?]
    constructor
    · intro h
      split at h
      · rename_i hc
        obtain ⟨hcallee, rfl, rfl⟩ := hc
        cases h
        exact ⟨hcallee, rfl⟩
      · cases h
    · rintro ⟨hcallee, ho⟩
      cases ho
      rw [if_pos ⟨hcallee, rfl, rfl⟩]
  | [] => simp [Instruction.apply, Instruction.parentStored?]
  | [_] => simp [Instruction.apply, Instruction.parentStored?]
  | .const _ :: _ :: _ => simp [Instruction.apply, Instruction.parentStored?, Value.ofScope]
  | .ref _ :: _ :: _ => simp [Instruction.apply, Instruction.parentStored?, Value.ofScope]
  | .func _ _ :: _ :: _ => simp [Instruction.apply, Instruction.parentStored?, Value.ofScope]
  | .scope _ _ :: _ :: _ :: _ => simp [Instruction.apply, Instruction.parentStored?]

theorem parentsStored_apply {x : Id} {loc : Location} {n : Id} {callee : FunctionDefinition}
    {operands : List Value}
    (h : ∀ v, callee = .setField parentName → operands ≠ [.ofScope x, v]) :
    parentsStored x [.apply loc n callee operands] = [] := by
  have hnone : (Instruction.apply loc n callee operands).parentStored? x = none := by
    cases ho : (Instruction.apply loc n callee operands).parentStored? x with
    | none => rfl
    | some v =>
      obtain ⟨hc, ho⟩ := parentStored?_apply.mp ho
      exact absurd ho (h v hc)
  simp [parentsStored, hnone]

theorem parentsStored_newObject (x : Id) (loc : Location) (n : Id) :
    parentsStored x [.apply loc n .newObject []] = [] :=
  parentsStored_apply (by simp)

theorem parentsStored_parentLink (x : Id) (loc : Location) (n scope : Id) (parent : Value) :
    parentsStored x [parentLink loc n scope parent] = if scope = x then [parent] else [] := by
  split
  · rename_i hx
    subst hx
    have hsome : (parentLink loc n scope parent).parentStored? scope = some parent :=
      parentStored?_apply.mpr ⟨rfl, rfl⟩
    simp [parentsStored, hsome]
  · rename_i hx
    exact parentsStored_apply fun v _ ho => by cases ho; exact hx rfl

theorem parentsStored_finish (x : Id) (f : Frame) (file : String) (loc : Location) :
    parentsStored x (f.finish file loc).code = parentsStored x f.code := by
  rw [Frame.code_finish, parentsStored_append]
  split <;> simp [parentsStored, Instruction.parentStored?]

/-- The parents stored for a scope in all functions so far. -/
def Draft.links (d : Draft) (x : Id) : List Value :=
  parentsStored x (d.state.functions.flatMap Function.code) ++ parentsStored x d.body

theorem Draft.links_eq {x : Id} {added : List Instruction}
    (functions : d'.state.functions = d.state.functions) (body : d'.body = d.body ++ added)
    (h : parentsStored x added = []) : d'.links x = d.links x := by
  rw [links, links, functions, body, parentsStored_append, h, List.append_nil]

theorem Compilation.links_enterBlock (loc : Location) (parent x : Id)
    (hb : s.frame.blocks ≠ []) : Draft.links ⟨s.enterBlock loc parent, []⟩ x =
      Draft.links ⟨s, []⟩ x ++ if (s.scopes.next : Id) = x then [.ofScope parent] else [] := by
  have hlink := parentsStored_parentLink x loc (s.scopes.next + 1 : Nat) s.scopes.next
    (.ofScope parent)
  rw [Draft.links, Draft.links, s.body_enterBlock loc parent hb, parentsStored_append,
    List.append_assoc, ← hlink]
  rfl

theorem Compilation.links_enter (definition : FunctionDefinition) (params : List Node)
    (loc : Location) (before : List Block) (x : Id) :
    Draft.links ⟨s.enter definition params loc before, []⟩ x =
      parentsStored x (s.functions.flatMap Function.code) ++
        (parentsStored x (before.reverse.flatMap (·.instructions)) ++
          if (s.enteredScope params : Id) = x then [.ref s.scopes.next] else []) := by
  have hlink := parentsStored_parentLink x loc (s.enteredScope params + 1 : Nat)
    (s.enteredScope params) (.ref s.scopes.next)
  rw [Draft.links, s.body_enter, parentsStored_append, ← hlink]
  rfl

theorem Compilation.links_leave {s₁ : Compilation} {id : Id} {link : FunctionLink}
    (loc : Location) (x : Id) :
    Draft.links ⟨s₁.leave loc (s.frame.addClosure id link),
        code ++ [.apply loc s.scopes.next .newObject []]⟩ x =
      Draft.links ⟨s₁, []⟩ x ++ parentsStored x (Draft.body ⟨s, code⟩) := by
  have hbody : Draft.body ⟨s₁.leave loc (s.frame.addClosure id link),
        code ++ [.apply loc s.scopes.next .newObject []]⟩ =
      Draft.body ⟨s, code⟩ ++ [.apply loc s.scopes.next .newObject []] := Draft.body_append rfl _
  rw [Draft.links, Draft.links, hbody, parentsStored_append, parentsStored_newObject]
  simp [Compilation.leave, parentsStored_finish, Draft.body]

theorem Compilation.links_leaveBlock (s : Compilation) (loc : Location) (parent x : Id) :
    Draft.links ⟨s.leaveBlock loc parent, []⟩ x = Draft.links ⟨s, []⟩ x := by
  obtain ⟨branches, hb, hall⟩ := s.body_leaveBlock loc parent
  refine Draft.links_eq rfl hb (List.filterMap_eq_nil_iff.mpr fun i hi => ?_)
  obtain ⟨target, rfl⟩ := hall i hi
  rfl

/-- A run links no scope but objects and those that it makes. -/
theorem Run.links_eq (h : Run loose d w d') (hl : ¬ loose) (hr : Ready d) (x : Int)
    (hx : x < d.state.scopes.next ∨ d'.state.scopes.next ≤ x)
    (hk : d.state.scopes.kind? x ≠ some .object ∧ d.state.scopes.kind? x ≠ some .global) :
    d'.links x = d.links x := by
  induction h with
  | refl d => rfl
  | @trans d d₁ d₂ w w₁ h h₁ ih ih₁ =>
    have hn := h.extends.next
    have hn₁ := h₁.extends.next
    have hr₁ := h.ready hr
    have hk₁ : d₁.state.scopes.kind? x ≠ some .object ∧ d₁.state.scopes.kind? x ≠ some .global := by
      rcases hx with hx | hx
      · rwa [h.extends.kinds x hx]
      · constructor <;> intro hc <;> have := hr₁.sound.ids x _ hc <;> omega
    exact (ih₁ hr₁ (by omega) hk₁).trans (ih hr (by omega) hk)
  | report s code event => rfl
  | call s code loc callee operands _ _ links =>
    refine Draft.links_eq rfl (Draft.body_append rfl _) (parentsStored_apply fun v hc ho => ?_)
    exact hl (links ⟨x, v, hc, ho, hk⟩)
  | constant s code key literal type _ => rfl
  | create s code loc kind literals _ =>
    exact Draft.links_eq rfl (Draft.body_append rfl _) (parentsStored_newObject _ _ _)
  | declare s code y name => rfl
  | assign s code y name value _ _ _ => rfl
  | read s code a _ _ _ _ _ => rfl
  | write s code a owner value _ _ _ _ _ _ _ => rfl
  | @object s s₁ code code₁ w y kind _ ih =>
    have hk' := s.scopes.kind?_push y x
    exact ih (hr.push kind) hx (by rwa [hk'])
  | @block s s₁ w parent kind rest loc opened chain own inner ih =>
    have hn : s.scopes.next + 2 ≤ s₁.scopes.next := inner.extends.next
    have hx : x < s.scopes.next ∨ s₁.scopes.next ≤ x := hx
    have hne : (s.scopes.next : Int) ≠ x := by omega
    have hk' : (s.enterBlock loc parent).scopes.kind? x = s.scopes.kind? x :=
      ((s.enters_enterBlock loc parent).kinds x).trans (if_neg hne.symm)
    have hlinks := s.links_enterBlock loc parent x hr.blocks
    rw [if_neg hne, List.append_nil] at hlinks
    rw [s₁.links_leaveBlock]
    refine (ih (hr.enterBlock loc parent) (hx.imp_left fun hx => ?_) (by rwa [hk'])).trans hlinks
    show x < (s.scopes.next + 2 : Nat)
    omega
  | @function s s₁ w _ code definition params body loc _ _ inner ih =>
    have hscope : s.spend.enteredScope params = s.scopes.next + 2 + params.length := rfl
    have hn : s.spend.enteredScope params + 2 ≤ s₁.scopes.next := inner.extends.next
    have hx : x < s.scopes.next ∨ s₁.scopes.next ≤ x := hx
    have hne : (s.spend.enteredScope params : Int) ≠ x := by omega
    have hk' : (s.spend.enter definition params loc []).scopes.kind? x = s.scopes.kind? x :=
      ((s.enters_spend definition params loc []).kinds x).trans (if_neg hne.symm)
    have hlinks := s.spend.links_enter definition params loc [] x
    rw [if_neg hne] at hlinks
    have ih := ih (hr.enter definition params loc) (hx.imp_left fun hx => ?_) (by rwa [hk'])
    · rw [s.links_leave, ih, hlinks]
      simp [Draft.links, Compilation.spend]
    · show x < (s.spend.enteredScope params + 2 : Nat)
      omega
  | start s code scope loc _ _ _ =>
    exact Draft.links_eq rfl (by rw [Draft.body_start, List.append_nil]) rfl
  | place s code opened =>
    exact Draft.links_eq rfl (by rw [Draft.body_place hr.blocks, List.append_nil]) rfl
  | ret s code loc value opened _ _ => exact Draft.links_eq rfl (Draft.body_ret hr.blocks loc _) rfl

def Draft.Clean (d : Draft) : Prop := ∀ x : Int, d.state.scopes.next ≤ x → d.links x = []

theorem Run.clean (h : Run loose d w d') (hl : ¬ loose) (hr : Ready d) (hc : d.Clean) :
    d'.Clean := by
  intro x hx
  have hn := h.extends.next
  have hd : (d.state.scopes.next : Int) ≤ x := by omega
  refine (h.links_eq hl hr x (.inr hx) ?_).trans (hc x hd)
  constructor <;> exact fun hk => absurd (hr.sound.ids x _ hk) (Int.not_lt.mpr hd)

theorem Draft.Clean.enterBlock (hc : Draft.Clean ⟨s, []⟩) (hb : s.frame.blocks ≠ [])
    (loc : Location) (parent : Id) : Draft.Clean ⟨s.enterBlock loc parent, []⟩ := by
  intro x (hx : ((s.scopes.next + 2 : Nat) : Int) ≤ x)
  have hold : Draft.links ⟨s, []⟩ x = [] := hc x (by simp only; omega)
  have hne : (s.scopes.next : Int) ≠ x := by omega
  rw [s.links_enterBlock loc parent x hb, hold, if_neg hne, List.append_nil]

theorem Draft.Clean.functions (hc : Draft.Clean ⟨s, code⟩) {x : Int} (hx : s.scopes.next ≤ x) :
    parentsStored x (s.functions.flatMap Function.code) = [] ∧
      parentsStored x (Draft.body ⟨s, code⟩) = [] :=
  List.append_eq_nil_iff.mp (hc x hx)

theorem Draft.Clean.enter (hc : Draft.Clean ⟨s, code⟩) (definition : FunctionDefinition)
    (params : List Node) (loc : Location) :
    Draft.Clean ⟨s.spend.enter definition params loc [], []⟩ := by
  have hscope : s.spend.enteredScope params = s.scopes.next + 2 + params.length := rfl
  intro x (hx : ((s.spend.enteredScope params + 2 : Nat) : Int) ≤ x)
  have hold := (hc.functions (show (s.scopes.next : Int) ≤ x by omega)).1
  have hne : (s.spend.enteredScope params : Int) ≠ x := by omega
  rw [s.spend.links_enter, if_neg hne]
  exact List.append_eq_nil_iff.mpr ⟨hold, rfl⟩

theorem Prologue.parentsStored_eq_nil {loc : Location} {n : Nat} {hosted : List Constant}
    (h : Prologue loc n hosted code) {x : Id} (hx : x ≠ 0) : parentsStored x code = [] := by
  induction h with
  | scope => rfl
  | host name _ ih => exact ih
  | seed name value _ _ ih =>
    rw [parentsStored_append, ih]
    exact parentsStored_apply fun v _ ho => by cases ho; exact hx rfl

theorem Seeded.links_enterMain {file : String} {loc : Location} {hosted : List Constant}
    (h : Seeded file loc hosted s code) {x : Id} (hx : x ≠ 0) :
    parentsStored x (s.functions.flatMap Function.code) = [] ∧
      parentsStored x ([⟨0, 0, code ++ [.branch loc (some (.own 1))], loc⟩].reverse.flatMap
        Block.instructions) = [] := by
  rw [h.functions]
  refine ⟨rfl, ?_⟩
  rw [List.reverse_singleton, List.flatMap_singleton, parentsStored_append,
    h.prologue.parentsStored_eq_nil hx]
  rfl

theorem Seeded.clean {file : String} {loc : Location} {hosted : List Constant}
    (h : Seeded file loc hosted s code) :
    Draft.Clean ⟨s.enterMain file loc code, []⟩ := by
  intro x (hx : ((s.enteredScope [] + 2 : Nat) : Int) ≤ x)
  have hne : (s.enteredScope [] : Int) ≠ x := by omega
  have hzero : x ≠ 0 := by omega
  obtain ⟨hf, hb⟩ := h.links_enterMain hzero
  rw [Compilation.enterMain, s.links_enter, if_neg hne, hf, hb]
  rfl

theorem ProgramRun.parentsStored_eq {file : String} {hosts : List String} {node : Node}
    {functions : List Function} {result : Compilation}
    (p : ProgramRun loose file hosts node functions result) (x : Id) :
    parentsStored x (functions.flatMap Function.code) = Draft.links ⟨p.final, []⟩ x := by
  have hout := congrArg (fun fs => parentsStored x (fs.flatMap Function.code)) p.output
  simpa [parentsStored_finish, Draft.links, Draft.body] using hout

end ScopeIR
