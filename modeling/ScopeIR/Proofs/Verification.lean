import ScopeIR.Proofs.ControlFlow
import ScopeIR.Proofs.Identifiers
import ScopeIR.Proofs.Verifier

namespace ScopeIR

theorem dest?_sublist_defined? (code : List Instruction) :
    (code.filterMap Instruction.dest?).Sublist (code.filterMap Instruction.defined?) := by
  induction code with
  | nil => exact List.Sublist.refl _
  | cons x rest ih =>
    cases x with
    | call loc dest receiver callee operands => exact ih.cons_cons dest
    | ret => exact ih
    | branch => exact ih
    | scope loc id => exact ih.cons id

theorem defines_sublist_defined (functions : List Function) :
    (functions.flatMap Function.defines).Sublist (functions.flatMap Function.defined) := by
  induction functions with
  | nil => exact List.Sublist.refl _
  | cons f rest ih =>
    have hf : f.defines.Sublist f.defined := (dest?_sublist_defined? f.code).append_left _
    exact hf.append ih

theorem staysInside_own {count position : Nat} (h : position < count) :
    Verifier.staysInside count (some (.own position)) = true := by
  have hlt : (position : Int) < count := Int.ofNat_lt.mpr h
  simp [Verifier.staysInside, BlockLink.own, hlt]

theorem Function.Linear.exists_last {f : Function} (h : f.Linear True) {i : Nat} {block : Block}
    (hb : f.blocks[i]? = some block) :
    block.index = i ∧ ∃ last, block.EndsIn last ∧ last.isTerminator = true ∧
      ∀ loc target, last = .branch loc target →
        ∃ j < f.blocks.length, target = some (.own j) := by
  obtain ⟨hi, hc⟩ := h.getElem? hb
  refine ⟨hi, ?_⟩
  have hret : block.Returns → ∃ last, block.EndsIn last ∧ last.isTerminator = true ∧
      ∀ loc target, last = .branch loc target →
        ∃ j < f.blocks.length, target = some (.own j) := by
    rintro ⟨loc, value, he⟩
    exact ⟨_, he, rfl, nofun⟩
  rcases hc with ⟨-, hr⟩ | ⟨hlt, ⟨loc, he⟩ | ⟨-, hr⟩⟩
  · exact hret hr
  · refine ⟨_, he, rfl, ?_⟩
    rintro _ _ ⟨⟩
    exact ⟨i + 1, hlt, rfl⟩
  · exact hret hr

theorem Function.Linear.branch_own {f : Function} (h : f.Linear True) {block : Block}
    (hb : block ∈ f.blocks) {loc : Location} {target : Option BlockLink}
    (hx : .branch loc target ∈ block.instructions) :
    ∃ j < f.blocks.length, target = some (.own j) := by
  obtain ⟨i, hi⟩ := List.mem_iff_getElem?.mp hb
  obtain ⟨-, last, ⟨code, hc, hs⟩, -, hbranch⟩ := h.exists_last hi
  rw [hc] at hx
  rcases List.mem_append.mp hx with hx | hx
  · cases hs _ hx
  · exact hbranch loc target (List.mem_singleton.mp hx).symm

theorem Function.Linear.wellFormed {f : Function} (h : f.Linear True) : f.WellFormed := by
  intro i block hb
  obtain ⟨hi, last, hl, ht, -⟩ := h.exists_last hb
  refine ⟨hi, ⟨last, hl, ht⟩, ?_⟩
  rintro x hx loc target rfl
  obtain ⟨j, hj, rfl⟩ := h.branch_own (List.mem_of_getElem? hb) hx
  exact staysInside_own hj

/-- The verifier accepts what comes out of a lowering: no id is negative or has two meanings,
blocks are labelled by position and end in their only terminator, and each branch leads to a
block of its own function. -/
theorem verify_lower {file : String} {hosts : List String} {node : Node}
    {functions : List Function} (h : (lower file hosts node).1 = .ok functions) :
    verify functions = .ok () ∧
      (∀ id ∈ functions.flatMap Function.defines, 0 ≤ id) ∧
      (functions.flatMap Function.defines).Nodup ∧
      ∀ f ∈ functions, ∀ (i : Nat) (block : Block), f.blocks[i]? = some block →
        block.index = i ∧ ∃ last, block.EndsIn last ∧ last.isTerminator = true ∧
          ∀ loc target, last = .branch loc target →
            ∃ j < f.blocks.length, target = some (.own j) := by
  obtain ⟨_, ⟨p⟩⟩ := exists_programRun h
  have hsub := defines_sublist_defined functions
  have hnonneg : ∀ id ∈ functions.flatMap Function.defines, 0 ≤ id := fun id hid =>
    p.defined_nonneg (hsub.subset hid)
  have hnodup := hsub.nodup p.nodup_defined
  have hlinear := linear_of_mem p.comesFrom
  refine ⟨Verifier.run_eq_ok.mpr ⟨⟨hnonneg, by simp, hnodup⟩, fun f hf => ?_⟩, hnonneg, hnodup,
    fun f hf i block hb => (hlinear f hf).exists_last hb⟩
  exact (hlinear f hf).wellFormed

theorem verify_lower_earlyReturn : ∃ functions,
    (lower "f.js" ["h"] earlyReturn).1 = .ok functions ∧
      (functions.flatMap Function.defines).length = 21 ∧ verify functions = .ok () ∧
      (functions.flatMap Function.defines).Nodup := by
  obtain ⟨functions, h, hn⟩ := Outcome.exists_ok (x := (lower "f.js" ["h"] earlyReturn).1)
    (f := fun functions => (functions.flatMap Function.defines).length) (b := 21)
    (by decide +kernel)
  have hv := verify_lower h
  exact ⟨functions, h, hn, hv.1, hv.2.2.1⟩

end ScopeIR
