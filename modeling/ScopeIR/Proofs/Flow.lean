import ScopeIR.Proofs.Run

namespace ScopeIR

/-- Blocks in shape, and code that has yet to be placed. -/
structure Draft.Shaped (returning : Prop) (d : Draft) : Prop where
  code : Straight d.code
  frame : d.state.frame.Shaped returning

theorem Compilation.shaped_enter {returning : Prop} (s : Compilation)
    (definition : FunctionDefinition) (params : List Node) (loc : Location) {before : List Block}
    (h : Sealed returning before) :
    Draft.Shaped returning ⟨s.enter definition params loc before, []⟩ where
  code := by simp [Straight]
  frame := ⟨_, before, rfl, rfl, .inl (by
    simp [Straight, parentLink, Instruction.apply, Instruction.isTerminator]), h⟩

theorem Draft.Shaped.enterBlock {returning : Prop} {s : Compilation}
    (h : Draft.Shaped returning ⟨s, []⟩) (ho : s.frame.isOpen) (loc : Location) (parent : Id) :
    Draft.Shaped returning ⟨s.enterBlock loc parent, []⟩ where
  code := by simp [Straight]
  frame := (h.frame.advance ho _ loc).extend (Frame.isOpen_advance _ _ _)
    ((straight_apply _ _ _ _).append (straight_apply _ _ _ _))

theorem Draft.Shaped.leaveBlock {returning : Prop} {s : Compilation}
    (h : Draft.Shaped returning ⟨s, []⟩) (loc : Location) (parent : Id) :
    Draft.Shaped returning ⟨s.leaveBlock loc parent, []⟩ where
  code := h.code
  frame := by
    by_cases ho : s.frame.isOpen
    · simpa [Compilation.leaveBlock, ho] using h.frame.advance ho parent loc
    · simpa [Compilation.leaveBlock, ho] using h.frame

/-- Runs keep the blocks in shape; they close one by a return only as their work says. -/
theorem Run.shaped {loose returning : Prop} {d d' : Draft} {w : Work} (h : Run loose d w d')
    (hw : w.returns = true → returning) (hs : d.Shaped returning) : d'.Shaped returning := by
  induction h with
  | refl d => exact hs
  | trans _ _ ih ih₁ =>
    simp only [Work.returns_append, Bool.or_eq_true] at hw
    exact ih₁ (fun h => hw (.inr h)) (ih (fun h => hw (.inl h)) hs)
  | report s code event => exact ⟨hs.code, hs.frame⟩
  | call s code loc callee operands _ _ _ =>
    exact ⟨hs.code.append (straight_apply _ _ _ _), hs.frame⟩
  | constant s code key literal type _ => exact ⟨hs.code, hs.frame⟩
  | create s code loc kind literals _ =>
    exact ⟨hs.code.append (straight_apply _ _ _ _), hs.frame⟩
  | declare s code x name => exact ⟨hs.code, hs.frame⟩
  | assign s code x name value _ _ _ => exact ⟨hs.code, hs.frame⟩
  | read s code a _ _ _ _ _ => exact ⟨hs.code, hs.frame⟩
  | write s code a owner value _ _ _ _ _ _ _ => exact ⟨hs.code, hs.frame⟩
  | object _ _ ih =>
    have ih := ih hw ⟨hs.code, hs.frame⟩
    exact ⟨ih.code, ih.frame⟩
  | block loc opened _ _ _ ih =>
    exact (ih hw (hs.enterBlock opened loc _)).leaveBlock loc _
  | function code definition params body loc _ _ _ _ =>
    exact ⟨hs.code.append (straight_apply _ _ _ _), hs.frame⟩
  | start s code scope loc closed _ _ => exact ⟨hs.code, hs.frame.start closed scope loc⟩
  | place s code opened => exact ⟨by simp [Straight], hs.frame.extend opened hs.code⟩
  | ret s code loc value opened _ _ =>
    exact ⟨by simp [Straight], hs.frame.extend_ret opened hs.code (hw rfl) loc (some value)⟩

end ScopeIR
