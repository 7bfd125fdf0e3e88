import Mathlib.Data.List.Infix
import ScopeIR.Proofs.Ready

/-! Blocks belong to environments: code goes to a block of the environment that is innermost
when it is lowered, and stays there. -/
namespace ScopeIR

variable {loose : Prop} {d d' : Draft} {w : Work} {x : Id} {piece : List Instruction}
  {i : Instruction}

namespace ScopeTable

variable {t t' : ScopeTable}

theorem Innermost.eq {y : Id} (h : t.Innermost x) (h' : t.Innermost y) : x = y := by
  obtain ⟨_, _, hx⟩ := h
  obtain ⟨_, _, hy⟩ := h'
  cases hx.symm.trans hy
  rfl

theorem Innermost.of_chain (h : t.Innermost x) (hc : t'.chain = t.chain) : t'.Innermost x := by
  unfold Innermost
  rw [hc]
  exact h

end ScopeTable

namespace Frame

variable {f : Frame} {block : Block} {code : List Instruction}

theorem blocks_extend {older : List Block} (h : f.blocks = block :: older) :
    (f.extend code).blocks = block.add code :: older := by
  simp [extend, h]

theorem mem_blocks_extend (h : block ∈ (f.extend code).blocks) :
    block ∈ f.blocks ∨ ∃ newest older, f.blocks = newest :: older ∧ block = newest.add code := by
  unfold extend at h
  split at h
  · exact .inl h
  · rename_i newest older hb
    rcases List.mem_cons.mp h with rfl | h
    · exact .inr ⟨newest, older, hb, rfl⟩
    · exact .inl (hb ▸ List.mem_cons_of_mem _ h)

theorem mem_of_extend (h : block ∈ (f.extend code).blocks) (hi : i ∈ block.instructions) :
    (∃ old ∈ f.blocks, old.scope = block.scope ∧ i ∈ old.instructions) ∨ i ∈ code := by
  rcases mem_blocks_extend h with h | ⟨newest, older, hb, rfl⟩
  · exact .inl ⟨block, h, rfl, hi⟩
  · refine (List.mem_append.mp hi).imp_left fun hi => ⟨newest, ?_, rfl, hi⟩
    rw [hb]
    exact List.mem_cons_self

theorem mem_of_advance {scope : Id} {loc : Location} (h : block ∈ (f.advance scope loc).blocks)
    (hi : i ∈ block.instructions) :
    (∃ old ∈ f.blocks, old.scope = block.scope ∧ i ∈ old.instructions) ∨
      ∃ target, i = .branch loc target := by
  rcases List.mem_cons.mp h with rfl | h
  · cases hi
  · exact (mem_of_extend h hi).imp_right fun hi => ⟨_, List.mem_singleton.mp hi⟩

theorem mem_of_finish {file : String} {loc : Location} (h : block ∈ (f.finish file loc).blocks)
    (hi : i ∈ block.instructions) :
    (∃ old ∈ f.blocks, old.scope = block.scope ∧ i ∈ old.instructions) ∨
      i = .ret loc (some .null) := by
  unfold finish at h
  rw [List.mem_reverse] at h
  split at h
  · exact (mem_of_extend h hi).imp_right List.mem_singleton.mp
  · exact .inl ⟨block, h, rfl, hi⟩

end Frame

namespace Compilation

variable {s : Compilation} {block : Block} {loc : Location} {parent : Id}

theorem mem_of_leaveBlock (h : block ∈ (s.leaveBlock loc parent).frame.blocks)
    (hi : i ∈ block.instructions) :
    (∃ old ∈ s.frame.blocks, old.scope = block.scope ∧ i ∈ old.instructions) ∨
      ∃ target, i = .branch loc target := by
  rcases s.frame_leaveBlock loc parent with hf | ⟨-, hf⟩
  · exact .inl ⟨block, hf ▸ h, rfl, hi⟩
  · exact Frame.mem_of_advance (hf ▸ h) hi

theorem mem_of_enterBlock (h : block ∈ (s.enterBlock loc parent).frame.blocks)
    (hi : i ∈ block.instructions) :
    (∃ old ∈ s.frame.blocks, old.scope = block.scope ∧ i ∈ old.instructions) ∨
      (∃ target, i = .branch loc target) ∨ i = .apply loc s.scopes.next .newObject [] ∨
      i = parentLink loc (s.scopes.next + 1 : Nat) s.scopes.next (.ofScope parent) := by
  rcases Frame.mem_of_extend h hi with ⟨old, hold, hscope, hi⟩ | hi
  · rcases Frame.mem_of_advance hold hi with ⟨older, holder, hscope', hi⟩ | hi
    · exact .inl ⟨older, holder, hscope'.trans hscope, hi⟩
    · exact .inr (.inl hi)
  · simp only [List.mem_cons, List.not_mem_nil, or_false] at hi
    exact .inr (.inr hi)

end Compilation

namespace Draft

/-- The piece of code stands in a block of the environment, or it will. -/
def Stands (d : Draft) (x : Id) (piece : List Instruction) : Prop :=
  (piece <:+: d.code ∧ d.state.scopes.Innermost x) ∨
    ∃ block ∈ d.state.frame.blocks, block.scope = x ∧ piece <:+: block.instructions

/-- An open block belongs to the innermost environment. -/
def Anchored (d : Draft) : Prop :=
  d.state.frame.isOpen → ∃ block older, d.state.frame.blocks = block :: older ∧
    d.state.scopes.Innermost block.scope

theorem Anchored.of_blocks (h : d.Anchored)
    (blocks : d'.state.frame.blocks = d.state.frame.blocks)
    (chain : d'.state.scopes.chain = d.state.scopes.chain) : d'.Anchored := by
  intro ho
  rw [Frame.isOpen, blocks] at ho
  obtain ⟨block, older, hb, hx⟩ := h ho
  exact ⟨block, older, blocks.trans hb, hx.of_chain chain⟩

theorem Anchored.extend {s : Compilation} {code added : List Instruction}
    (h : Anchored ⟨s, code⟩) (ho : s.frame.isOpen) :
    Anchored ⟨{ s with frame := s.frame.extend added }, []⟩ := by
  intro _
  obtain ⟨block, older, hb, hx⟩ := h ho
  exact ⟨block.add added, older, Frame.blocks_extend hb, hx⟩

theorem Stands.of_code (h : d.Stands x piece) (added : d.code <+: d'.code)
    (blocks : d'.state.frame.blocks = d.state.frame.blocks)
    (chain : d'.state.scopes.chain = d.state.scopes.chain) : d'.Stands x piece := by
  refine h.imp (fun ⟨hp, hx⟩ => ⟨hp.trans added.isInfix, hx.of_chain chain⟩) fun h => ?_
  rwa [blocks]

theorem Stands.of_grown (h : d.Stands x piece) (hpiece : ¬ piece <:+: d.code)
    (kept : ∀ block ∈ d.state.frame.blocks, ∃ grown ∈ d'.state.frame.blocks, block.Grows grown) :
    d'.Stands x piece := by
  obtain ⟨hc, -⟩ | ⟨block, hb, rfl, hc⟩ := h
  · exact absurd hc hpiece
  · obtain ⟨grown, hg, hgrow⟩ := kept block hb
    exact .inr ⟨grown, hg, hgrow.scope, hc.trans hgrow.code.isInfix⟩

theorem Stands.leaveBlock {s : Compilation} (h : Stands ⟨s, []⟩ x piece) (hne : piece ≠ [])
    (loc : Location) (parent : Id) : Stands ⟨s.leaveBlock loc parent, []⟩ x piece :=
  h.of_grown (fun h => hne (List.eq_nil_of_infix_nil h)) fun _ hb =>
    Compilation.exists_block_leaveBlock loc parent hb

theorem Stands.finish {s : Compilation} (h : Stands ⟨s, []⟩ x piece) (hne : piece ≠ [])
    (file : String) (loc : Location) : ∃ block ∈ (s.frame.finish file loc).blocks,
      block.scope = x ∧ piece <:+: block.instructions := by
  obtain ⟨hc, -⟩ | ⟨block, hb, rfl, hc⟩ := h
  · exact absurd (List.eq_nil_of_infix_nil hc) hne
  · obtain ⟨grown, hg, hgrow⟩ := Frame.exists_block_finish hb file loc
    exact ⟨grown, hg, hgrow.scope, hc.trans hgrow.code.isInfix⟩

theorem Stands.extend {s : Compilation} {code added : List Instruction}
    (h : Stands ⟨s, code⟩ x piece) (ha : Anchored ⟨s, code⟩) (ho : s.frame.isOpen)
    (hadded : code <+: added) :
    Stands ⟨{ s with frame := s.frame.extend added }, []⟩ x piece := by
  obtain ⟨hc, hx⟩ | ⟨block, hb, rfl, hc⟩ := h
  · obtain ⟨newest, older, hb, hn⟩ := ha ho
    refine .inr ⟨newest.add added, Frame.blocks_extend hb ▸ List.mem_cons_self, hn.eq hx, ?_⟩
    exact hc.trans (hadded.isInfix.trans (List.suffix_append _ _).isInfix)
  · obtain ⟨grown, hg, hgrow⟩ := Frame.exists_block_extend hb added
    exact .inr ⟨grown, hg, hgrow.scope, hc.trans hgrow.code.isInfix⟩

end Draft

theorem Run.chain_pop {s s₁ : Compilation} {code code₁ : List Instruction} {y : Id}
    (inner : Run loose ⟨{ s with scopes := s.scopes.push y }, code⟩ w ⟨s₁, code₁⟩)
    (kind : s.scopes.kind? y = some .object) (hr : Ready ⟨s, code⟩) :
    s₁.scopes.pop.chain = s₁.scopes.chain := by
  have hend : s₁.scopes.pop.chain = s.scopes.chain := (Run.object kind inner).extends.chain hr
  have hstart := inner.extends.chain (hr.push kind)
  exact hend.trans ((ScopeTable.chain_push_object kind).symm.trans hstart.symm)

theorem anchored_enter {s : Compilation} (definition : FunctionDefinition) (params : List Node)
    (loc : Location) (hs : s.scopes.Sound) :
    Draft.Anchored ⟨s.spend.enter definition params loc [], []⟩ :=
  fun _ => ⟨_, _, rfl, .function, s.scopes.chain,
    (s.enters_spend definition params loc []).chain hs rfl⟩

theorem anchored_enterBlock {s : Compilation} (loc : Location) (parent : Id)
    (hr : Ready ⟨s, []⟩) : Draft.Anchored ⟨s.enterBlock loc parent, []⟩ :=
  fun _ => ⟨_, _, Frame.blocks_extend rfl, .block, s.scopes.chain,
    (s.enters_enterBlock loc parent).chain hr.sound rfl⟩

theorem Run.anchored (h : Run loose d w d') (hr : Ready d) (hd : d.Anchored) : d'.Anchored := by
  have hchain := h.extends.chain hr
  induction h with
  | trans h h₁ ih ih₁ =>
    have hr₁ := h.ready hr
    exact ih₁ hr₁ (ih hr hd (h.extends.chain hr)) (h₁.extends.chain hr₁)
  | @object s s₁ code code₁ w y kind inner ih =>
    have hr' := hr.push kind
    exact (ih hr' (hd.of_blocks rfl (ScopeTable.chain_push_object kind))
      (inner.extends.chain hr')).of_blocks rfl (inner.chain_pop kind hr)
  | @block s s₁ w parent kind rest loc opened chain own inner ih =>
    intro ho
    by_cases ho₁ : s₁.frame.isOpen
    · have hf : (s₁.leaveBlock loc parent).frame = s₁.frame.advance parent loc := if_pos ho₁
      rw [hf]
      exact ⟨_, _, rfl, kind, rest, hchain.trans chain⟩
    · have hf : (s₁.leaveBlock loc parent).frame = s₁.frame := if_neg ho₁
      exact absurd (hf ▸ ho) ho₁
  | function code definition params body loc _ _ inner ih => exact hd.of_blocks rfl hchain
  | start s code scope loc _ _ here => exact fun _ => ⟨_, _, rfl, here⟩
  | place s code opened => exact hd.extend opened
  | ret s code loc value opened => exact hd.extend opened
  | _ => exact hd.of_blocks rfl hchain

/-- Code stays in the blocks of its environment. -/
theorem Run.stands (h : Run loose d w d') (hr : Ready d) (hd : d.Anchored) (hne : piece ≠ [])
    (hs : d.Stands x piece) : d'.Stands x piece := by
  have hchain := h.extends.chain hr
  induction h with
  | trans h h₁ ih ih₁ =>
    have hr₁ := h.ready hr
    exact ih₁ hr₁ (h.anchored hr hd) (ih hr hd hs (h.extends.chain hr)) (h₁.extends.chain hr₁)
  | call s code loc callee operands => exact hs.of_code (List.prefix_append _ _) rfl hchain
  | create s code loc kind literals => exact hs.of_code (List.prefix_append _ _) rfl hchain
  | @object s s₁ code code₁ w y kind inner ih =>
    have hpush := ScopeTable.chain_push_object kind
    have hr' := hr.push kind
    exact (ih hr' (hd.of_blocks rfl hpush) (hs.of_code (List.prefix_refl _) rfl hpush)
      (inner.extends.chain hr')).of_code (List.prefix_refl _) rfl (inner.chain_pop kind hr)
  | @block s s₁ w parent kind rest loc opened chain own inner ih =>
    have hr' := hr.enterBlock loc parent
    have henter : Draft.Stands ⟨s.enterBlock loc parent, []⟩ x piece :=
      hs.of_grown (fun h => hne (List.eq_nil_of_infix_nil h)) fun _ hb =>
        s.exists_block_enterBlock loc parent hb
    exact (ih hr' (anchored_enterBlock loc parent hr) henter
      (inner.extends.chain hr')).leaveBlock hne loc parent
  | function code definition params body loc _ _ inner ih =>
    exact hs.of_code (List.prefix_append _ _) rfl hchain
  | start s code scope loc _ _ here =>
    exact hs.imp_right fun ⟨old, hold, h⟩ => ⟨old, List.mem_cons_of_mem _ hold, h⟩
  | place s code opened => exact hs.extend hd opened (List.prefix_refl _)
  | ret s code loc value opened => exact hs.extend hd opened (List.prefix_append _ _)
  | _ => exact hs.of_code (List.prefix_refl _) rfl hchain

theorem Draft.stands_singleton : d.Stands x [i] ↔
    (i ∈ d.code ∧ d.state.scopes.Innermost x) ∨
      ∃ block ∈ d.state.frame.blocks, block.scope = x ∧ i ∈ block.instructions := by
  simp [Draft.Stands, List.singleton_infix_iff]

namespace Draft

variable {s s' : Compilation} {code added : List Instruction}

theorem of_stands_append {j : Instruction} (h : Stands ⟨s', code ++ [j]⟩ x [i])
    (blocks : s'.frame.blocks = s.frame.blocks) (chain : s'.scopes.chain = s.scopes.chain) :
    Stands ⟨s, code⟩ x [i] ∨ i = j ∧ s.scopes.Innermost x := by
  rw [stands_singleton] at h ⊢
  rcases h with ⟨hi, hx⟩ | h
  · have hx := hx.of_chain chain.symm
    rcases List.mem_append.mp hi with hi | hi
    · exact .inl (.inl ⟨hi, hx⟩)
    · exact .inr ⟨List.mem_singleton.mp hi, hx⟩
  · exact .inl (.inr (blocks ▸ h))

/-- What stands in a block after code was added to the newest stood there before, or is part
of that code. -/
theorem of_stands_extend (h : Stands ⟨{ s with frame := s.frame.extend added }, []⟩ x [i])
    (ha : Anchored ⟨s, code⟩) (ho : s.frame.isOpen) :
    Stands ⟨s, code⟩ x [i] ∨ i ∈ added ∧ s.scopes.Innermost x := by
  rw [stands_singleton] at h ⊢
  obtain ⟨hi, -⟩ | ⟨block, hb, rfl, hi⟩ := h
  · cases hi
  obtain ⟨newest, older, hblocks, hx⟩ := ha ho
  rw [Frame.blocks_extend hblocks] at hb
  rcases List.mem_cons.mp hb with rfl | hb
  · rcases List.mem_append.mp hi with hi | hi
    · exact .inl (.inr ⟨newest, hblocks ▸ List.mem_cons_self, rfl, hi⟩)
    · exact .inr ⟨hi, hx⟩
  · exact .inl (.inr ⟨block, hblocks ▸ List.mem_cons_of_mem _ hb, rfl, hi⟩)

theorem of_stands_start {scope : Id} {loc : Location}
    (h : Stands ⟨{ s with frame := s.frame.start scope loc }, code⟩ x [i]) :
    Stands ⟨s, code⟩ x [i] := by
  rw [stands_singleton] at h ⊢
  refine h.imp_right fun ⟨block, hb, hx, hi⟩ => ?_
  rcases List.mem_cons.mp hb with rfl | hb
  · cases hi
  · exact ⟨block, hb, hx, hi⟩

end Draft

namespace Frame

@[simp] theorem scopes_extend (f : Frame) (code : List Instruction) :
    (f.extend code).blocks.map (·.scope) = f.blocks.map (·.scope) := by
  unfold extend
  split
  · rfl
  · rename_i block older hb
    rw [hb]
    rfl

@[simp] theorem scopes_start (f : Frame) (scope : Id) (loc : Location) :
    (f.start scope loc).blocks.map (·.scope) = scope :: f.blocks.map (·.scope) := rfl

@[simp] theorem scopes_advance (f : Frame) (scope : Id) (loc : Location) :
    (f.advance scope loc).blocks.map (·.scope) = scope :: f.blocks.map (·.scope) := by
  simp [advance]

theorem scopes_finish (f : Frame) (file : String) (loc : Location) :
    (f.finish file loc).blocks.map (·.scope) = (f.blocks.map (·.scope)).reverse := by
  unfold finish
  split <;> simp

end Frame

end ScopeIR
