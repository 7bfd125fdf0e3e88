import Mathlib.Data.List.Forall2
import ScopeIR.Failure

/-! Successful outcomes. A computation that can fail succeeds through the successes of its
parts; over a list, each item has a result of its own. -/
namespace ScopeIR

namespace Outcome

variable {α β : Type}

def cause? : Outcome α → Option Cause
  | .ok _ => none
  | .error failure => some failure.cause

theorem bind_eq_ok {x : Outcome α} {f : α → Outcome β} {b : β} :
    (x >>= f) = .ok b ↔ ∃ a, x = .ok a ∧ f a = .ok b := by
  cases x with
  | error e => exact ⟨nofun, nofun⟩
  | ok a => exact ⟨fun h => ⟨a, rfl, h⟩, fun ⟨_, rfl, h⟩ => h⟩

theorem map_eq_ok {x : Outcome α} {f : α → β} {b : β} :
    Except.map f x = .ok b ↔ ∃ a, x = .ok a ∧ f a = b := by
  cases x <;> simp [Except.map]

@[simp] theorem within_eq_ok {context : String} {x : Outcome α} {a : α} :
    x.within context = .ok a ↔ x = .ok a := by
  cases x <;> simp [within, Except.mapError]

theorem exists_ok {x : Outcome α} {f : α → β} {b : β} (h : x.toOption.map f = some b) :
    ∃ a, x = .ok a ∧ f a = b := by
  cases x with
  | error e => cases h
  | ok a => exact ⟨a, rfl, Option.some.inj h⟩

@[simp] theorem ok_bind (a : α) (f : α → Outcome β) : ((.ok a : Outcome α) >>= f) = f a := rfl

theorem mapM_eq_ok {f : α → Outcome β} {as : List α} {bs : List β} :
    as.mapM f = .ok bs ↔ List.Forall₂ (fun a b => f a = .ok b) as bs := by
  induction as generalizing bs with
  | nil =>
    rw [List.mapM_nil, List.forall₂_nil_left_iff]
    exact ⟨fun h => (Except.ok.inj h).symm, fun h => h ▸ rfl⟩
  | cons a as ih =>
    rw [List.mapM_cons, List.forall₂_cons_left_iff]
    simp only [bind_eq_ok, ih]
    constructor
    · rintro ⟨b, hb, bs, hbs, ⟨⟩⟩
      exact ⟨b, bs, hb, hbs, rfl⟩
    · rintro ⟨b, bs, hb, hbs, rfl⟩
      exact ⟨b, hb, bs, hbs, rfl⟩

theorem option_mapM_eq_ok {f : α → Outcome β} {o : Option α} {o' : Option β} :
    o.mapM f = .ok o' ↔ Option.Rel (fun a b => f a = .ok b) o o' := by
  cases o with
  | none =>
    constructor
    · rintro ⟨⟩
      exact .none
    · rintro ⟨⟩
      rfl
  | some a =>
    rw [Option.mapM_some]
    constructor
    · intro h
      obtain ⟨b, hb, ⟨⟩⟩ := bind_eq_ok.mp h
      exact .some hb
    · rintro ⟨hb⟩
      exact bind_eq_ok.mpr ⟨_, hb, rfl⟩

theorem foldlM_ok {P : β → Prop} {step : β → α → Outcome β} {as : List α} {b b' : β} (hb : P b)
    (hs : ∀ b a b', P b → step b a = .ok b' → P b') (h : as.foldlM step b = .ok b') : P b' := by
  induction as generalizing b with
  | nil =>
    cases h
    exact hb
  | cons a as ih =>
    rw [List.foldlM_cons] at h
    obtain ⟨b₁, h₁, h⟩ := bind_eq_ok.mp h
    exact ih (hs b a b₁ hb h₁) h

end Outcome

theorem exists_mapM_pure {m : Type → Type} [Monad m] [LawfulMonad m] {α β : Type} {f : α → m β}
    {P : β → α → Prop} {as : List α} (h : ∀ a ∈ as, ∃ b, f a = pure b ∧ P b a) :
    ∃ bs, as.mapM f = pure bs ∧ List.Forall₂ P bs as := by
  induction as with
  | nil => exact ⟨[], List.mapM_nil, .nil⟩
  | cons a as ih =>
    obtain ⟨⟨b, hb, hp⟩, h⟩ := List.forall_mem_cons.mp h
    obtain ⟨bs, hbs, hps⟩ := ih h
    refine ⟨b :: bs, ?_, .cons hp hps⟩
    rw [List.mapM_cons, hb, hbs, pure_bind, pure_bind]

theorem exists_forall₂ {α β : Type} {R : α → β → Prop} {as : List α} (h : ∀ a ∈ as, ∃ b, R a b) :
    ∃ bs, List.Forall₂ R as bs := by
  induction as with
  | nil => exact ⟨[], .nil⟩
  | cons a as ih =>
    obtain ⟨⟨b, hb⟩, h⟩ := List.forall_mem_cons.mp h
    obtain ⟨bs, hbs⟩ := ih h
    exact ⟨b :: bs, .cons hb hbs⟩

theorem forall₂_congr_of_forall₂ {α β γ : Type} {P : α → β → Prop} {R : α → γ → Prop}
    {S : β → γ → Prop} {as : List α} {bs : List β} (h : List.Forall₂ P as bs)
    (hs : ∀ a b, P a b → ∀ c, S b c ↔ R a c) {cs : List γ} :
    List.Forall₂ S bs cs ↔ List.Forall₂ R as cs := by
  induction h generalizing cs with
  | nil => rw [List.forall₂_nil_left_iff, List.forall₂_nil_left_iff]
  | cons h _ ih => simp only [List.forall₂_cons_left_iff, hs _ _ h, ih]

theorem exists_of_forall₂_of_mem {α β : Type} {R : α → β → Prop} {as : List α} {bs : List β}
    (h : List.Forall₂ R as bs) {b : β} (hb : b ∈ bs) : ∃ a ∈ as, R a b := by
  induction h with
  | nil => cases hb
  | @cons a _ _ _ h _ ih =>
    rcases List.mem_cons.mp hb with rfl | hb
    · exact ⟨a, List.mem_cons_self, h⟩
    · obtain ⟨a, ha, h⟩ := ih hb
      exact ⟨a, List.mem_cons_of_mem _ ha, h⟩

end ScopeIR
