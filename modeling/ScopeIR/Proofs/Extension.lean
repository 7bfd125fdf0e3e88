import ScopeIR.Proofs.Run

/-! A run only adds to a draft: ids keep their meaning, scopes their kind, and the current
function its parameters and the code it has so far. -/
namespace ScopeIR

/-- The piece of code stands in one block, or it will. -/
def Draft.Contains (d : Draft) (piece : List Instruction) : Prop :=
  piece <:+: d.code ∨ ∃ block ∈ d.state.frame.blocks, piece <:+: block.instructions

/-- The second draft is reached from the first: the stack is the same and nothing is lost. -/
structure Extends (d d' : Draft) : Prop where
  stack : d'.state.scopes.stack = d.state.scopes.stack
  next : d.state.scopes.next ≤ d'.state.scopes.next
  kinds : ∀ x : Int, x < d.state.scopes.next →
    d'.state.scopes.kind? x = d.state.scopes.kind? x
  file : d'.state.file = d.state.file
  definition : d'.state.frame.definition = d.state.frame.definition
  parameters : d'.state.frame.parameters = d.state.frame.parameters
  blocks : d.state.frame.blocks ≠ [] → d'.state.frame.blocks ≠ []
  defined : d.state.frame.blocks ≠ [] → d.defined ⊆ d'.defined
  contains : d.state.frame.blocks ≠ [] → ∀ piece, d.Contains piece → d'.Contains piece
  accesses : d.state.accesses <:+ d'.state.accesses
  functions : d.state.functions <+: d'.state.functions

namespace Extends

theorem refl (d : Draft) : Extends d d :=
  ⟨rfl, Nat.le_refl _, fun _ _ => rfl, rfl, rfl, rfl, id, fun _ => List.Subset.refl _,
    fun _ _ h => h, List.suffix_refl _, List.prefix_refl _⟩

theorem trans {d d₁ d₂ : Draft} (h : Extends d d₁) (h₁ : Extends d₁ d₂) : Extends d d₂ where
  stack := h₁.stack.trans h.stack
  next := Nat.le_trans h.next h₁.next
  kinds x hx := by
    have hn := h.next
    rw [h₁.kinds x (by omega), h.kinds x hx]
  file := h₁.file.trans h.file
  definition := h₁.definition.trans h.definition
  parameters := h₁.parameters.trans h.parameters
  blocks hb := h₁.blocks (h.blocks hb)
  defined hb := List.Subset.trans (h.defined hb) (h₁.defined (h.blocks hb))
  contains hb piece hp := h₁.contains (h.blocks hb) piece (h.contains hb piece hp)
  accesses := h.accesses.trans h₁.accesses
  functions := h.functions.trans h₁.functions

theorem of_code {s s' : Compilation} {code code' : List Instruction} (added : code <+: code')
    (stack : s'.scopes.stack = s.scopes.stack) (next : s.scopes.next ≤ s'.scopes.next)
    (kinds : ∀ x : Int, x < s.scopes.next → s'.scopes.kind? x = s.scopes.kind? x)
    (file : s'.file = s.file) (definition : s'.frame.definition = s.frame.definition)
    (parameters : s'.frame.parameters = s.frame.parameters)
    (blocks : s'.frame.blocks = s.frame.blocks)
    (accesses : s.accesses <:+ s'.accesses) (functions : s.functions <+: s'.functions) :
    Extends ⟨s, code⟩ ⟨s', code'⟩ where
  stack := stack
  next := next
  kinds := kinds
  file := file
  definition := definition
  parameters := parameters
  blocks := by simp [blocks]
  defined := by
    intro _ id hid
    simp only [Draft.defined, Draft.body, Frame.code, parameters, blocks, List.filterMap_append,
      List.mem_append] at hid ⊢
    exact hid.imp_right fun h => h.imp_right fun h => (added.filterMap _).subset h
  contains := by
    intro _ piece hp
    unfold Draft.Contains
    rw [blocks]
    exact hp.imp_left fun h => h.trans added.isInfix
  accesses := accesses
  functions := functions

theorem of_scopes {s : Compilation} {scopes : ScopeTable} {code code' : List Instruction}
    (added : code <+: code') (stack : scopes.stack = s.scopes.stack)
    (next : s.scopes.next ≤ scopes.next)
    (kinds : ∀ x : Int, x < s.scopes.next → scopes.kind? x = s.scopes.kind? x) :
    Extends ⟨s, code⟩ ⟨{ s with scopes }, code'⟩ :=
  of_code added stack next kinds rfl rfl rfl rfl (List.suffix_refl _) (List.prefix_refl _)

theorem of_frame {s : Compilation} {frame : Frame} {code code' : List Instruction}
    (definition : frame.definition = s.frame.definition)
    (parameters : frame.parameters = s.frame.parameters)
    (blocks : s.frame.blocks ≠ [] → frame.blocks ≠ [])
    (body : s.frame.blocks ≠ [] → s.frame.code ++ code <+: frame.code ++ code')
    (pending : s.frame.blocks ≠ [] → Draft.Contains ⟨{ s with frame }, code'⟩ code)
    (kept : ∀ block ∈ s.frame.blocks, ∃ grown ∈ frame.blocks, block.Grows grown) :
    Extends ⟨s, code⟩ ⟨{ s with frame }, code'⟩ where
  stack := rfl
  next := Nat.le_refl _
  kinds _ _ := rfl
  file := rfl
  definition := definition
  parameters := parameters
  blocks := blocks
  defined := by
    intro hb id hid
    simp only [Draft.defined, Draft.body, parameters, List.mem_append] at hid ⊢
    exact hid.imp_right fun h => (List.IsPrefix.filterMap _ (body hb)).subset h
  contains := by
    rintro hb piece (hp | ⟨block, hblock, hp⟩)
    · exact (pending hb).imp hp.trans fun ⟨block, hblock, hc⟩ => ⟨block, hblock, hp.trans hc⟩
    · obtain ⟨grown, hg, hc⟩ := kept block hblock
      exact .inr ⟨grown, hg, hp.trans hc.code.isInfix⟩
  accesses := List.suffix_refl _
  functions := List.prefix_refl _

end Extends

namespace Draft

variable {s s' : Compilation} {code : List Instruction}

theorem body_place (h : s.frame.blocks ≠ []) :
    body ⟨{ s with frame := s.frame.extend code }, []⟩ = body ⟨s, code⟩ := by
  simp [body, Frame.code_extend h]

theorem body_ret (h : s.frame.blocks ≠ []) (loc : Location) (value : Option Value) :
    body ⟨{ s with frame := s.frame.extend (code ++ [.ret loc value]) }, []⟩ =
      body ⟨s, code⟩ ++ [.ret loc value] := by
  simp [body, Frame.code_extend h]

theorem body_start (scope : Id) (loc : Location) :
    body ⟨{ s with frame := s.frame.start scope loc }, code⟩ = body ⟨s, code⟩ := by
  simp [body]

theorem body_append (blocks : s'.frame.blocks = s.frame.blocks) (x : Instruction) :
    body ⟨s', code ++ [x]⟩ = body ⟨s, code⟩ ++ [x] := by
  simp [body, Frame.code, blocks]

theorem defined_apply {loc : Location} {n : Id} {callee : FunctionDefinition}
    {operands : List Value} (parameters : s'.frame.parameters = s.frame.parameters)
    (blocks : s'.frame.blocks = s.frame.blocks) :
    defined ⟨s', code ++ [.apply loc n callee operands]⟩ = defined ⟨s, code⟩ ++ [n] := by
  simp [defined, body_append blocks, parameters, Instruction.apply, Instruction.defined?]

theorem defined_place (h : s.frame.blocks ≠ []) :
    defined ⟨{ s with frame := s.frame.extend code }, []⟩ = defined ⟨s, code⟩ := by
  simp [defined, body_place h]

theorem defined_ret (h : s.frame.blocks ≠ []) (loc : Location) (value : Option Value) :
    defined ⟨{ s with frame := s.frame.extend (code ++ [.ret loc value]) }, []⟩ =
      defined ⟨s, code⟩ := by
  simp [defined, body_ret h, Instruction.defined?]

theorem defined_start (scope : Id) (loc : Location) :
    defined ⟨{ s with frame := s.frame.start scope loc }, code⟩ = defined ⟨s, code⟩ := by
  rw [defined, body_start]
  rfl

end Draft

namespace Compilation

variable (s : Compilation) (definition : FunctionDefinition) (params : List Node) (loc : Location)
  (before : List Block)

def enteredScope : Nat := s.scopes.next + 1 + params.length

theorem next_enter : (s.enter definition params loc before).scopes.next =
    s.enteredScope params + 2 := rfl

theorem enters_enter : s.scopes.Enters (s.enter definition params loc before).scopes
    (s.enteredScope params) .function :=
  s.scopes.enters_create_push .function (Nat.le_trans (Nat.le_succ _) (Nat.le_add_right _ _))
    (Nat.lt_add_of_pos_right Nat.two_pos)

theorem enters_spend : s.scopes.Enters (s.spend.enter definition params loc before).scopes
    (s.spend.enteredScope params) .function :=
  { s.spend.enters_enter definition params loc before with
    fresh := Int.le_trans (Int.ofNat_le.mpr (Nat.le_succ _))
      (s.spend.enters_enter definition params loc before).fresh }

theorem body_enter : Draft.body ⟨s.enter definition params loc before, []⟩ =
    before.reverse.flatMap (·.instructions) ++ [.scope loc (s.enteredScope params),
      parentLink loc (s.enteredScope params + 1 : Nat) (s.enteredScope params)
        (.ref s.scopes.next)] := by
  simp [Draft.body, enter, Frame.code, enteredScope]

theorem defined_enter : Draft.defined ⟨s.enter definition params loc before, []⟩ =
    (s.scopes.next : Id) :: (parametersFrom (s.scopes.next + 1) params).map (·.id) ++
      (before.reverse.flatMap (·.instructions)).filterMap Instruction.defined? ++
      [(s.enteredScope params : Id), (s.enteredScope params + 1 : Nat)] := by
  rw [Draft.defined, body_enter, List.filterMap_append, ← List.append_assoc]
  rfl

theorem defined_leave (s₁ : Compilation) {code : List Instruction} {n id : Id}
    {link : FunctionLink} {callee : FunctionDefinition} {operands : List Value} :
    Draft.defined ⟨s₁.leave loc (s.frame.addClosure id link),
      code ++ [.apply loc n callee operands]⟩ = Draft.defined ⟨s, code⟩ ++ [n] :=
  Draft.defined_apply rfl rfl

variable (parent : Id)

theorem enters_enterBlock :
    s.scopes.Enters (s.enterBlock loc parent).scopes s.scopes.next .block :=
  s.scopes.enters_create_push .block (Nat.le_refl _) (Nat.lt_add_of_pos_right Nat.two_pos)

theorem blocks_enterBlock_ne_nil : (s.enterBlock loc parent).frame.blocks ≠ [] :=
  Frame.blocks_extend_ne_nil (Frame.blocks_advance_ne_nil _ _ _) _

theorem exists_block_enterBlock {block : Block} (h : block ∈ s.frame.blocks) :
    ∃ grown ∈ (s.enterBlock loc parent).frame.blocks, block.Grows grown := by
  obtain ⟨grown, hg, hp⟩ := Frame.exists_block_advance h s.scopes.next loc
  obtain ⟨last, hl, hq⟩ := Frame.exists_block_extend hg [.apply loc s.scopes.next .newObject [],
    parentLink loc (s.scopes.next + 1 : Nat) s.scopes.next (.ofScope parent)]
  exact ⟨last, hl, hp.trans hq⟩

theorem code_enterBlock (h : s.frame.blocks ≠ []) : (s.enterBlock loc parent).frame.code =
    s.frame.code ++ [.branch loc (some (.own s.frame.blocks.length)),
      .apply loc s.scopes.next .newObject [],
      parentLink loc (s.scopes.next + 1 : Nat) s.scopes.next (.ofScope parent)] := by
  simp only [enterBlock, Frame.code_extend (Frame.blocks_advance_ne_nil _ _ _),
    Frame.code_advance h, List.append_assoc, List.cons_append, List.nil_append]

theorem body_enterBlock (h : s.frame.blocks ≠ []) : Draft.body ⟨s.enterBlock loc parent, []⟩ =
    Draft.body ⟨s, []⟩ ++ [.branch loc (some (.own s.frame.blocks.length)),
      .apply loc s.scopes.next .newObject [],
      parentLink loc (s.scopes.next + 1 : Nat) s.scopes.next (.ofScope parent)] := by
  simp [Draft.body, s.code_enterBlock loc parent h]

theorem definition_enterBlock :
    (s.enterBlock loc parent).frame.definition = s.frame.definition := by
  simp [enterBlock]

@[simp] theorem parameters_enterBlock :
    (s.enterBlock loc parent).frame.parameters = s.frame.parameters := by
  simp [enterBlock]

theorem closures_enterBlock :
    (s.enterBlock loc parent).frame.closures = s.frame.closures := by
  simp [enterBlock]

theorem defined_enterBlock (h : s.frame.blocks ≠ []) :
    Draft.defined ⟨s.enterBlock loc parent, []⟩ =
      Draft.defined ⟨s, []⟩ ++ [(s.scopes.next : Id), (s.scopes.next + 1 : Nat)] := by
  rw [Draft.defined, s.body_enterBlock loc parent h, List.filterMap_append, ← List.append_assoc,
    s.parameters_enterBlock]
  rfl

end Compilation

namespace Compilation

variable {s : Compilation} (loc : Location) (parent : Id)

theorem frame_leaveBlock (s : Compilation) :
    (s.leaveBlock loc parent).frame = s.frame ∨
      s.frame.isOpen ∧ (s.leaveBlock loc parent).frame = s.frame.advance parent loc := by
  by_cases ho : s.frame.isOpen
  · exact .inr ⟨ho, if_pos ho⟩
  · exact .inl (if_neg ho)

@[simp] theorem definition_leaveBlock :
    (s.leaveBlock loc parent).frame.definition = s.frame.definition := by
  rcases s.frame_leaveBlock loc parent with h | ⟨_, h⟩ <;> simp [h]

@[simp] theorem parameters_leaveBlock :
    (s.leaveBlock loc parent).frame.parameters = s.frame.parameters := by
  rcases s.frame_leaveBlock loc parent with h | ⟨_, h⟩ <;> simp [h]

theorem closures_leaveBlock :
    (s.leaveBlock loc parent).frame.closures = s.frame.closures := by
  rcases s.frame_leaveBlock loc parent with h | ⟨_, h⟩ <;> simp [h]

theorem blocks_leaveBlock_ne_nil (hb : s.frame.blocks ≠ []) :
    (s.leaveBlock loc parent).frame.blocks ≠ [] := by
  rcases s.frame_leaveBlock loc parent with h | ⟨_, h⟩
  · rwa [h]
  · rw [h]
    exact Frame.blocks_advance_ne_nil _ _ _

theorem body_leaveBlock (s : Compilation) : ∃ branches : List Instruction,
    Draft.body ⟨s.leaveBlock loc parent, []⟩ = Draft.body ⟨s, []⟩ ++ branches ∧
      ∀ x ∈ branches, ∃ target, x = .branch loc target := by
  rcases s.frame_leaveBlock loc parent with h | ⟨ho, h⟩
  · exact ⟨[], by simp [Draft.body, h], by simp⟩
  · refine ⟨[.branch loc (some (.own s.frame.blocks.length))], ?_, by simp⟩
    simp [Draft.body, h, Frame.code_advance (Frame.blocks_ne_nil_of_isOpen ho)]

@[simp] theorem defined_leaveBlock :
    Draft.defined ⟨s.leaveBlock loc parent, []⟩ = Draft.defined ⟨s, []⟩ := by
  obtain ⟨branches, hb, hall⟩ := s.body_leaveBlock loc parent
  have hnone : branches.filterMap Instruction.defined? = [] := by
    refine List.filterMap_eq_nil_iff.mpr fun x hx => ?_
    obtain ⟨target, rfl⟩ := hall x hx
    rfl
  simp [Draft.defined, hb, hnone]

theorem exists_block_leaveBlock {block : Block} (hb : block ∈ s.frame.blocks) :
    ∃ grown ∈ (s.leaveBlock loc parent).frame.blocks, block.Grows grown := by
  rcases s.frame_leaveBlock loc parent with h | ⟨ho, h⟩
  · exact ⟨block, h ▸ hb, .refl _⟩
  · rw [h]
    exact Frame.exists_block_advance hb parent loc

theorem contains_leaveBlock {piece : List Instruction} (hp : Draft.Contains ⟨s, []⟩ piece) :
    Draft.Contains ⟨s.leaveBlock loc parent, []⟩ piece := by
  refine hp.imp_right fun ⟨block, hb, hc⟩ => ?_
  obtain ⟨grown, hg, hgrow⟩ := exists_block_leaveBlock loc parent hb
  exact ⟨grown, hg, hc.trans hgrow.code.isInfix⟩

end Compilation

namespace Extends

open Compilation

variable {s s₁ : Compilation} {code code₁ : List Instruction}

theorem of_object {x : Id} (h : Extends ⟨{ s with scopes := s.scopes.push x }, code⟩ ⟨s₁, code₁⟩) :
    Extends ⟨s, code⟩ ⟨{ s₁ with scopes := s₁.scopes.pop }, code₁⟩ where
  stack := congrArg List.tail h.stack
  next := h.next
  kinds y hy := (h.kinds y hy).trans (s.scopes.kind?_push x y)
  file := h.file
  definition := h.definition
  parameters := h.parameters
  blocks := h.blocks
  defined := h.defined
  contains := h.contains
  accesses := h.accesses
  functions := h.functions

theorem of_block {loc : Location} {parent : Id} (opened : s.frame.isOpen)
    (h : Extends ⟨s.enterBlock loc parent, []⟩ ⟨s₁, []⟩) :
    Extends ⟨s, []⟩ ⟨s₁.leaveBlock loc parent, []⟩ := by
  have henter := s.enters_enterBlock loc parent
  have hblocks := s.blocks_enterBlock_ne_nil loc parent
  exact {
    stack := congrArg List.tail h.stack
    next := Nat.le_trans henter.next_le h.next
    kinds := fun y hy => (h.kinds y (henter.lt_next hy)).trans (henter.old hy)
    file := h.file
    definition := by
      rw [definition_leaveBlock, ← s.definition_enterBlock loc parent]
      exact h.definition
    parameters := by
      rw [parameters_leaveBlock, ← s.parameters_enterBlock loc parent]
      exact h.parameters
    blocks := fun _ => blocks_leaveBlock_ne_nil loc parent (h.blocks hblocks)
    defined := fun _ => by
      rw [defined_leaveBlock]
      refine List.Subset.trans ?_ (h.defined hblocks)
      rw [s.defined_enterBlock loc parent (Frame.blocks_ne_nil_of_isOpen opened)]
      exact List.subset_append_left _ _
    contains := fun _ piece hp => by
      refine contains_leaveBlock loc parent (h.contains hblocks piece ?_)
      refine hp.imp_right fun ⟨old, hold, hc⟩ => ?_
      obtain ⟨grown, hg, hpre⟩ := s.exists_block_enterBlock loc parent hold
      exact ⟨grown, hg, hc.trans hpre.code.isInfix⟩
    accesses := h.accesses
    functions := h.functions }

theorem of_function {definition : FunctionDefinition} {params : List Node} {loc : Location}
    {id : Id} {link : FunctionLink}
    (h : Extends ⟨s.spend.enter definition params loc [], []⟩ ⟨s₁, []⟩) :
    Extends ⟨s, code⟩ ⟨s₁.leave loc (s.frame.addClosure id link),
      code ++ [.apply loc s.scopes.next .newObject []]⟩ := by
  have henter := s.enters_spend definition params loc []
  exact {
    stack := congrArg List.tail h.stack
    next := Nat.le_trans henter.next_le h.next
    kinds := fun y hy => (h.kinds y (henter.lt_next hy)).trans (henter.old hy)
    file := h.file
    definition := rfl
    parameters := rfl
    blocks := fun hb => hb
    defined := fun _ => by
      rw [s.defined_leave]
      exact List.subset_append_left _ _
    contains := fun _ piece hp => hp.imp_left fun hp => hp.trans (List.prefix_append _ _).isInfix
    accesses := h.accesses
    functions := h.functions.trans (List.prefix_append _ _) }

end Extends

theorem Draft.Contains.finish {s : Compilation} {piece : List Instruction}
    (h : Draft.Contains ⟨s, []⟩ piece) (hb : s.frame.blocks ≠ []) (file : String)
    (loc : Location) : ∃ block ∈ (s.frame.finish file loc).blocks,
      piece <:+: block.instructions := by
  -- Empty code stands in any block.
  have hin : ∃ block ∈ s.frame.blocks, piece <:+: block.instructions := by
    rcases h with hc | hc
    · obtain ⟨block, hblock⟩ := List.exists_mem_of_ne_nil _ hb
      refine ⟨block, hblock, ?_⟩
      rw [List.eq_nil_of_infix_nil hc]
      exact List.nil_infix
    · exact hc
  obtain ⟨block, hblock, hc⟩ := hin
  obtain ⟨grown, hg, hgrow⟩ := Frame.exists_block_finish hblock file loc
  exact ⟨grown, hg, hc.trans hgrow.code.isInfix⟩

theorem Run.extends {loose : Prop} {d d' : Draft} {w : Work} (h : Run loose d w d') :
    Extends d d' := by
  induction h with
  | refl d => exact .refl d
  | trans _ _ ih ih₁ => exact ih.trans ih₁
  | report s code event =>
    exact .of_code (List.prefix_refl _) rfl (Nat.le_refl _) (fun _ _ => rfl) rfl rfl rfl rfl
      (List.suffix_refl _) (List.prefix_refl _)
  | call s code loc callee operands _ _ _ =>
    exact .of_scopes (List.prefix_append _ _) rfl (Nat.le_succ _) fun _ _ => rfl
  | constant s code key literal type _ =>
    exact .of_scopes (List.prefix_refl _) rfl (Nat.le_succ _) fun _ _ => rfl
  | create s code loc kind literals _ =>
    refine .of_scopes (List.prefix_append _ _) rfl (Nat.le_succ _) fun x hx => ?_
    exact (s.scopes.kind?_create kind x).trans (if_neg (Int.ne_of_lt hx))
  | declare s code x name =>
    exact .of_scopes (List.prefix_refl _) rfl (Nat.le_refl _) fun y _ =>
      s.scopes.kind?_declare x y name
  | assign s code x name value _ _ _ =>
    exact .of_scopes (List.prefix_refl _) rfl (Nat.le_refl _) fun y _ =>
      s.scopes.kind?_record x y name value
  | read s code a _ _ _ _ _ =>
    exact .of_code (List.prefix_refl _) rfl (Nat.le_refl _) (fun _ _ => rfl) rfl rfl rfl rfl
      (List.suffix_cons _ _) (List.prefix_refl _)
  | write s code a owner value _ _ _ _ _ _ _ =>
    exact .of_code (List.prefix_refl _) rfl (Nat.le_refl _)
      (fun y _ => s.scopes.kind?_record owner y a.name value) rfl rfl rfl rfl
      (List.suffix_cons _ _) (List.prefix_refl _)
  | object _ _ ih => exact .of_object ih
  | block _ opened _ _ _ ih => exact .of_block opened ih
  | function _ _ _ _ _ _ _ _ ih => exact .of_function ih
  | start s code scope loc _ hb _ =>
    exact .of_frame rfl rfl (by simp [Frame.start]) (by simp) (fun _ => .inl (List.infix_refl _))
      fun old hold => ⟨old, List.mem_cons_of_mem _ hold, .refl _⟩
  | place s code opened =>
    have hb := Frame.blocks_ne_nil_of_isOpen opened
    obtain ⟨newest, hn, hc⟩ := Frame.exists_block_of_extend hb code
    exact .of_frame (by simp) (by simp) (fun h => Frame.blocks_extend_ne_nil h _)
      (by simp [Frame.code_extend hb]) (fun _ => .inr ⟨newest, hn, hc.isInfix⟩)
      fun _ hold => Frame.exists_block_extend hold code
  | ret s code loc value opened _ _ =>
    have hb := Frame.blocks_ne_nil_of_isOpen opened
    obtain ⟨newest, hn, hc⟩ := Frame.exists_block_of_extend hb (code ++ [.ret loc (some value)])
    exact .of_frame (by simp) (by simp) (fun h => Frame.blocks_extend_ne_nil h _)
      (by simp [Frame.code_extend hb])
      (fun _ => .inr ⟨newest, hn, (List.prefix_append _ _).isInfix.trans hc.isInfix⟩)
      fun _ hold => Frame.exists_block_extend hold _

theorem Run.closures_subset {loose : Prop} {d d' : Draft} {w : Work} (h : Run loose d w d') :
    d.state.frame.closures ⊆ d'.state.frame.closures := by
  induction h with
  | trans _ _ ih ih₁ => exact List.Subset.trans ih ih₁
  | object _ _ ih => exact ih
  | @block s s₁ w parent kind rest loc opened chain own inner ih =>
    rw [Compilation.closures_leaveBlock]
    rwa [Compilation.closures_enterBlock] at ih
  | function code definition params body loc _ _ inner ih => exact List.subset_append_left _ _
  | place s code opened => rw [Frame.closures_extend]; exact List.Subset.refl _
  | ret s code loc value opened => rw [Frame.closures_extend]; exact List.Subset.refl _
  | _ => exact List.Subset.refl _

end ScopeIR
