import ScopeIR.Lowering.Basic

/-! Functions under construction. All blocks but the newest are closed, each by a return or
by a branch to the next position, and terminators stand nowhere else. -/
namespace ScopeIR

def Function.code (f : Function) : List Instruction := f.blocks.flatMap (·.instructions)

namespace Instruction

def values : Instruction → List Value
  | .call _ _ receiver _ operands => (receiver :: operands).filterMap id
  | .ret _ value => value.toList
  | .branch .. | .scope .. => []

@[simp] theorem values_apply (loc : Location) (dest : Id) (callee : FunctionDefinition)
    (operands : List Value) : (apply loc dest callee operands).values = operands := by
  simp [apply, values, List.filterMap_map]

end Instruction

structure Block.Grows (block grown : Block) : Prop where
  scope : grown.scope = block.scope
  code : block.instructions <+: grown.instructions

namespace Block.Grows

theorem refl (block : Block) : block.Grows block := ⟨rfl, List.prefix_refl _⟩

theorem trans {block grown last : Block} (h : block.Grows grown) (h' : grown.Grows last) :
    block.Grows last :=
  ⟨h'.scope.trans h.scope, h.code.trans h'.code⟩

theorem add (block : Block) (code : List Instruction) : block.Grows (block.add code) :=
  ⟨rfl, List.prefix_append _ _⟩

end Block.Grows

namespace Frame

def code (f : Frame) : List Instruction := f.blocks.reverse.flatMap (·.instructions)

def isOpen (f : Frame) : Bool := f.blocks.head?.any fun block => !block.isTerminated

def extend (f : Frame) (code : List Instruction) : Frame :=
  match f.blocks with
  | [] => f
  | block :: older => { f with blocks := block.add code :: older }

def start (f : Frame) (scope : Id) (loc : Location) : Frame :=
  { f with blocks := { index := f.blocks.length, scope, location := loc } :: f.blocks }

def advance (f : Frame) (scope : Id) (loc : Location) : Frame :=
  (f.extend [.branch loc (some (.own f.blocks.length))]).start scope loc

def finish (f : Frame) (file : String) (loc : Location) : Function where
  file := file
  definition := f.definition
  parameters := f.parameters
  blocks := (if f.isOpen then f.extend [.ret loc (some .null)] else f).blocks.reverse
  closures := f.closures

@[simp] theorem parameters_extend (f : Frame) (code : List Instruction) :
    (f.extend code).parameters = f.parameters := by
  unfold extend
  split <;> rfl

@[simp] theorem definition_extend (f : Frame) (code : List Instruction) :
    (f.extend code).definition = f.definition := by
  unfold extend
  split <;> rfl

@[simp] theorem closures_extend (f : Frame) (code : List Instruction) :
    (f.extend code).closures = f.closures := by
  unfold extend
  split <;> rfl

@[simp] theorem length_blocks_extend (f : Frame) (code : List Instruction) :
    (f.extend code).blocks.length = f.blocks.length := by
  unfold extend
  split <;> simp_all

@[simp] theorem tail_blocks_extend (f : Frame) (code : List Instruction) :
    (f.extend code).blocks.tail = f.blocks.tail := by
  unfold extend
  split <;> simp_all

theorem blocks_extend_ne_nil {f : Frame} (h : f.blocks ≠ []) (code : List Instruction) :
    (f.extend code).blocks ≠ [] := by
  rw [← List.length_pos_iff] at h ⊢
  simpa using h

theorem exists_block_extend {f : Frame} {block : Block} (h : block ∈ f.blocks)
    (code : List Instruction) :
    ∃ grown ∈ (f.extend code).blocks, block.Grows grown := by
  unfold extend
  split
  · exact ⟨block, h, .refl _⟩
  · rename_i newest older hb
    rw [hb] at h
    rcases List.mem_cons.mp h with rfl | h
    · exact ⟨_, List.mem_cons_self, .add _ _⟩
    · exact ⟨block, List.mem_cons_of_mem _ h, .refl _⟩

theorem exists_block_of_extend {f : Frame} (h : f.blocks ≠ []) (code : List Instruction) :
    ∃ block ∈ (f.extend code).blocks, code <:+ block.instructions := by
  obtain ⟨block, older, hb⟩ := List.exists_cons_of_ne_nil h
  refine ⟨block.add code, ?_, List.suffix_append _ _⟩
  simp [extend, hb]

@[simp] theorem definition_advance (f : Frame) (scope : Id) (loc : Location) :
    (f.advance scope loc).definition = f.definition := by
  simp [advance, start]

@[simp] theorem closures_advance (f : Frame) (scope : Id) (loc : Location) :
    (f.advance scope loc).closures = f.closures := by
  simp [advance, start]

@[simp] theorem parameters_advance (f : Frame) (scope : Id) (loc : Location) :
    (f.advance scope loc).parameters = f.parameters := by
  simp [advance, start]

theorem exists_block_advance {f : Frame} {block : Block} (h : block ∈ f.blocks) (scope : Id)
    (loc : Location) :
    ∃ grown ∈ (f.advance scope loc).blocks, block.Grows grown := by
  obtain ⟨grown, hg, hp⟩ := exists_block_extend h [.branch loc (some (.own f.blocks.length))]
  exact ⟨grown, List.mem_cons_of_mem _ hg, hp⟩

theorem exists_block_finish {f : Frame} {block : Block} (h : block ∈ f.blocks) (file : String)
    (loc : Location) : ∃ grown ∈ (f.finish file loc).blocks, block.Grows grown := by
  unfold finish
  split
  · obtain ⟨grown, hg, hgrow⟩ := exists_block_extend h [.ret loc (some .null)]
    exact ⟨grown, List.mem_reverse.mpr hg, hgrow⟩
  · exact ⟨block, List.mem_reverse.mpr h, .refl _⟩

theorem blocks_ne_nil_of_isOpen {f : Frame} (h : f.isOpen) : f.blocks ≠ [] := by
  intro hb
  simp [isOpen, hb] at h

@[simp] theorem code_start (f : Frame) (scope : Id) (loc : Location) :
    (f.start scope loc).code = f.code := by
  simp [code, start]

theorem code_extend {f : Frame} (h : f.blocks ≠ []) (code : List Instruction) :
    (f.extend code).code = f.code ++ code := by
  obtain ⟨block, older, hb⟩ := List.exists_cons_of_ne_nil h
  simp [Frame.code, extend, hb, Block.add]

theorem code_advance {f : Frame} (h : f.blocks ≠ []) (scope : Id) (loc : Location) :
    (f.advance scope loc).code = f.code ++ [.branch loc (some (.own f.blocks.length))] := by
  rw [advance, code_start, code_extend h]

theorem code_finish (f : Frame) (file : String) (loc : Location) :
    (f.finish file loc).code = f.code ++ if f.isOpen then [.ret loc (some .null)] else [] := by
  by_cases ho : f.isOpen
  · have hc := code_extend (blocks_ne_nil_of_isOpen ho) [.ret loc (some .null)]
    simpa [Frame.code, Function.code, finish, ho] using hc
  · simp [Function.code, finish, ho, Frame.code]

theorem blocks_advance_ne_nil (f : Frame) (scope : Id) (loc : Location) :
    (f.advance scope loc).blocks ≠ [] := by
  simp [advance, start]

end Frame

def Straight (code : List Instruction) : Prop := ∀ x ∈ code, x.isTerminator = false

theorem Straight.append {code added : List Instruction} (h : Straight code)
    (ha : Straight added) : Straight (code ++ added) :=
  fun x hx => (List.mem_append.mp hx).elim (h x) (ha x)

theorem straight_apply (loc : Location) (id : Id) (callee : FunctionDefinition)
    (operands : List Value) : Straight [.apply loc id callee operands] :=
  List.forall_mem_singleton.mpr rfl

namespace Block

def EndsIn (block : Block) (last : Instruction) : Prop :=
  ∃ code, block.instructions = code ++ [last] ∧ Straight code

def Returns (block : Block) : Prop := ∃ loc value, block.EndsIn (.ret loc value)

/-- Control goes on from the given position to the next. -/
def FallsThrough (block : Block) (position : Nat) : Prop :=
  ∃ loc, block.EndsIn (.branch loc (some (.own (position + 1))))

theorem EndsIn.terminator? {block : Block} {last : Instruction} (h : block.EndsIn last)
    (ht : last.isTerminator) : block.terminator? = some last := by
  obtain ⟨code, hc, _⟩ := h
  simp [Block.terminator?, hc, ht]

theorem isTerminated_of_straight {block : Block} (h : Straight block.instructions) :
    block.isTerminated = false := by
  simp only [isTerminated, Block.terminator?, Option.isSome_eq_false_iff, Option.isNone_iff_eq_none,
    Option.filter_eq_none_iff]
  intro x hx
  simp [h x (List.mem_of_getLast? hx)]

theorem Returns.isTerminated {block : Block} (h : block.Returns) : block.isTerminated := by
  obtain ⟨loc, value, h⟩ := h
  simp [Block.isTerminated, h.terminator? rfl]

end Block

/-- Closed blocks, newest first, labelled by position; some return only if `returning`. -/
def Sealed (returning : Prop) : List Block → Prop
  | [] => True
  | block :: older => block.index = older.length ∧
      (block.FallsThrough older.length ∨ returning ∧ block.Returns) ∧ Sealed returning older

namespace Frame

def Shaped (returning : Prop) (f : Frame) : Prop :=
  ∃ block older, f.blocks = block :: older ∧ block.index = older.length ∧
    (Straight block.instructions ∨ returning ∧ block.Returns) ∧ Sealed returning older

variable {returning : Prop} {f : Frame} {code : List Instruction}

theorem Shaped.of_isOpen (h : f.Shaped returning) (ho : f.isOpen) :
    ∃ block older, f.blocks = block :: older ∧ block.index = older.length ∧
      Straight block.instructions ∧ Sealed returning older := by
  obtain ⟨block, older, hb, hi, hn, hs⟩ := h
  refine ⟨block, older, hb, hi, hn.resolve_right fun ⟨_, hr⟩ => ?_, hs⟩
  simp [isOpen, hb, hr.isTerminated] at ho

theorem Shaped.tail (h : f.Shaped returning) : Sealed returning f.blocks.tail := by
  obtain ⟨block, older, hb, _, _, hs⟩ := h
  rw [hb]
  exact hs

theorem Shaped.extend (h : f.Shaped returning) (ho : f.isOpen) (hc : Straight code) :
    (f.extend code).Shaped returning := by
  obtain ⟨block, older, hb, hi, hn, hs⟩ := h.of_isOpen ho
  exact ⟨block.add code, older, by simp [Frame.extend, hb], hi, .inl (hn.append hc), hs⟩

theorem Shaped.extend_ret (h : f.Shaped returning) (ho : f.isOpen) (hc : Straight code)
    (hr : returning) (loc : Location) (value : Option Value) :
    (f.extend (code ++ [.ret loc value])).Shaped returning := by
  obtain ⟨block, older, hb, hi, hn, hs⟩ := h.of_isOpen ho
  refine ⟨block.add (code ++ [.ret loc value]), older, by simp [Frame.extend, hb], hi,
    .inr ⟨hr, loc, value, block.instructions ++ code, ?_, hn.append hc⟩, hs⟩
  simp [Block.add]

theorem Shaped.start (h : f.Shaped returning) (ho : f.isOpen = false) (scope : Id)
    (loc : Location) : (f.start scope loc).Shaped returning := by
  obtain ⟨block, older, hb, hi, hn, hs⟩ := h
  have hr : returning ∧ block.Returns := hn.resolve_left fun hn => by
    simp [isOpen, hb, Block.isTerminated_of_straight hn] at ho
  exact ⟨_, f.blocks, rfl, rfl, .inl (by simp [Straight]), hb ▸ ⟨hi, .inr hr, hs⟩⟩

theorem Shaped.advance (h : f.Shaped returning) (ho : f.isOpen) (scope : Id) (loc : Location) :
    (f.advance scope loc).Shaped returning := by
  obtain ⟨block, older, hb, hi, hn, hs⟩ := h.of_isOpen ho
  refine ⟨_, _, rfl, rfl, .inl (by simp [Straight]), ?_⟩
  simp only [Frame.extend, hb]
  exact ⟨hi, .inl ⟨loc, block.instructions, rfl, hn⟩, hs⟩

theorem isOpen_advance (f : Frame) (scope : Id) (loc : Location) :
    (f.advance scope loc).isOpen := rfl

end Frame

end ScopeIR
