import ScopeIR.Lowering.Program

/-! Successful steps. A step that succeeds does so through the successes of its parts;
each elementary step says what it returns and which state it leaves. -/
namespace ScopeIR.Lower

variable {α β : Type} {s s' : Compilation}

@[simp] theorem bind_eq_ok {x : Lower α} {f : α → Lower β} {b : β} :
    (x >>= f) s = .ok b s' ↔ ∃ a s₁, x s = .ok a s₁ ∧ f a s₁ = .ok b s' := by
  change EStateM.bind x f s = _ ↔ _
  unfold EStateM.bind
  cases x s <;> simp [and_assoc]

theorem bind_of_ok {x : Lower α} {f : α → Lower β} {a : α} (h : x s = .ok a s') :
    (x >>= f) s = f a s' := by
  change EStateM.bind x f s = _
  rw [EStateM.bind, h]

@[simp] theorem pure_eq_ok {a b : α} :
    (pure a : Lower α) s = .ok b s' ↔ a = b ∧ s = s' := by
  change EStateM.Result.ok a s = _ ↔ _
  simp

@[simp] theorem map_eq_ok {f : α → β} {x : Lower α} {b : β} :
    (f <$> x) s = .ok b s' ↔ ∃ a, x s = .ok a s' ∧ f a = b := by
  change EStateM.map f x s = _ ↔ _
  unfold EStateM.map
  cases x s with
  | ok a s₁ => simp [and_assoc, and_comm (a := s₁ = s')]
  | error e s₁ => simp

@[simp] theorem get_eq_ok {a : Compilation} :
    (get : Lower Compilation) s = .ok a s' ↔ s = a ∧ s = s' := by
  change EStateM.Result.ok s s = _ ↔ _
  simp

@[simp] theorem modify_eq_ok {f : Compilation → Compilation} {u : PUnit} :
    (modify f : Lower PUnit) s = .ok u s' ↔ f s = s' := by
  change EStateM.Result.ok _ (f s) = _ ↔ _
  simp

@[simp] theorem modifyGet_eq_ok {f : Compilation → α × Compilation} {a : α} :
    (modifyGet f : Lower α) s = .ok a s' ↔ f s = (a, s') := by
  change EStateM.Result.ok (f s).1 (f s).2 = _ ↔ _
  simp [Prod.ext_iff]

@[simp] theorem fail_eq_ok {context : List String} {cause : Cause} {a : α} :
    (fail context cause : Lower α) s = .ok a s' ↔ False := by
  change EStateM.Result.error _ s = _ ↔ _
  simp

@[simp] theorem within_eq_ok {context : String} {x : Lower α} {a : α} :
    (within context x) s = .ok a s' ↔ x s = .ok a s' := by
  unfold within
  cases x s <;> simp

@[simp] theorem require_eq_ok {o : Option α} {a : α} :
    (require o) s = .ok a s' ↔ o = some a ∧ s = s' := by
  cases o <;> simp [require]

@[simp] theorem report_eq_ok {event : Event} {u : Unit} :
    report event s = .ok u s' ↔ s.logged (.event event) = s' := by
  simp [report]

@[simp] theorem enter_eq_ok {task : Task} {u : Unit} :
    enter task s = .ok u s' ↔
      s.logged (.entry ⟨task, s.scopes, s.frame, s.functions⟩) = s' := by
  simp [enter]

@[simp] theorem functionName_eq_ok {name : String} :
    functionName s = .ok name s' ↔ s.frame.definition.name = name ∧ s = s' := by
  simp [functionName, and_comm]

@[simp] theorem fresh_eq_ok {id : Id} :
    fresh s = .ok id s' ↔
      (s.scopes.next : Id) = id ∧ { s with scopes := s.scopes.fresh.2 } = s' := by
  simp [fresh, ScopeTable.fresh]

end ScopeIR.Lower
