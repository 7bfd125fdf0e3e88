import Mathlib.Data.List.Induction
import Mathlib.Data.Set.List
import ScopeIR.CommandLine.Run
import ScopeIR.Proofs.Outcomes

/-! Compiling many files at once. Whatever turns the workers take, all files are compiled if
each can be, with the same results in list order; otherwise the failure is that of a file, and
the command that asked for the results writes nothing. -/
namespace ScopeIR

namespace Batch

variable {α : Type} {jobs : Int} {tasks : List (Outcome α)} {schedule : List WorkerStep}
  {p p' : Progress α}

/-- What a step does: the next file is taken up, or one that was taken up is finished. -/
theorem step?_cases {step : WorkerStep} (h : step? jobs tasks p step = some p') :
    (step = .start ∧ p.started < tasks.length ∧ hasRoom jobs p ∧
      p' = { p with started := p.started + 1, running := p.started :: p.running }) ∨
    ∃ position outcome, step = .finish position ∧ position ∈ p.running ∧
      tasks[position]? = some outcome ∧
      p' = { p with
        running := p.running.erase position
        finished := p.finished ++ [(position, outcome)] } := by
  cases step with
  | start =>
    simp only [step?, Bool.and_eq_true, decide_eq_true_eq, Option.ite_none_right_eq_some,
      Option.some.injEq] at h
    exact .inl ⟨rfl, h.1.1, h.1.2, h.2.symm⟩
  | finish position =>
    simp only [step?, List.contains_iff_mem, Option.ite_none_right_eq_some,
      Option.map_eq_some_iff] at h
    obtain ⟨hrunning, outcome, houtcome, rfl⟩ := h
    exact .inr ⟨position, outcome, rfl, hrunning, houtcome, rfl⟩

theorem step?_start (hlt : p.started < tasks.length) (hroom : hasRoom jobs p) :
    step? jobs tasks p .start =
      some { p with started := p.started + 1, running := p.started :: p.running } :=
  if_pos (Bool.and_eq_true_iff.mpr ⟨decide_eq_true hlt, hroom⟩)

theorem step?_finish {position : Nat} {outcome : Outcome α} (hrunning : position ∈ p.running)
    (ht : tasks[position]? = some outcome) : step? jobs tasks p (.finish position) =
      some { p with
        running := p.running.erase position
        finished := p.finished ++ [(position, outcome)] } := by
  rw [step?, if_pos (List.contains_iff_mem.mpr hrunning), ht]
  rfl

theorem hasRoom_of_idle (h : p.running = []) : hasRoom jobs p := by
  simp only [hasRoom, h, List.length_nil, Bool.or_eq_true, decide_eq_true_eq]
  omega

theorem run?_append (rest : List WorkerStep) : run? jobs tasks (schedule ++ rest) =
    (run? jobs tasks schedule).bind (rest.foldlM (step? jobs tasks)) :=
  List.foldlM_append

theorem run?_induction {P : Progress α → Prop} (init : P {})
    (step : ∀ p p' s, P p → step? jobs tasks p s = some p' → P p')
    (h : run? jobs tasks schedule = some p) : P p := by
  induction schedule using List.reverseRecOn generalizing p with
  | nil =>
    cases h
    exact init
  | append_singleton schedule s ih =>
    rw [run?_append] at h
    obtain ⟨q, hq, hstep⟩ := Option.bind_eq_some_iff.mp h
    rw [List.foldlM_cons] at hstep
    obtain ⟨_, hstep, hlast⟩ := Option.bind_eq_some_iff.mp hstep
    cases hlast
    exact step q _ s (ih hq) hstep

/-- Every file that was taken up is worked on or finished, not both, and finished with its own
outcome. -/
structure Progress.Orderly (tasks : List (Outcome α)) (p : Progress α) : Prop where
  started : p.started ≤ tasks.length
  once : (p.running ++ p.finished.map (·.1)).Perm (List.range p.started)
  outcomes : ∀ entry ∈ p.finished, tasks[entry.1]? = some entry.2

theorem Progress.Orderly.step {s : WorkerStep} (h : p.Orderly tasks)
    (hs : step? jobs tasks p s = some p') : p'.Orderly tasks := by
  rcases step?_cases hs with ⟨-, hlt, -, rfl⟩ | ⟨position, outcome, -, hrunning, houtcome, rfl⟩
  · refine ⟨hlt, ?_, h.outcomes⟩
    rw [List.range_succ]
    exact (h.once.cons _).trans (List.perm_append_singleton _ _).symm
  · refine ⟨h.started, .trans ?_ h.once, ?_⟩
    · rw [List.map_append, List.map_singleton, ← List.append_assoc]
      refine (List.perm_append_singleton _ _).trans ?_
      exact (List.perm_cons_erase hrunning).symm.append_right _
    · intro entry he
      rcases List.mem_append.mp he with he | he
      · exact h.outcomes entry he
      · cases List.mem_singleton.mp he
        exact houtcome

theorem orderly (h : run? jobs tasks schedule = some p) : p.Orderly tasks :=
  run?_induction ⟨Nat.zero_le _, .refl _, List.forall_mem_nil _⟩ (fun _ _ _ => .step) h

theorem finished_append_running (h : run? 1 tasks schedule = some p) :
    p.finished.map (·.1) ++ p.running = List.range p.started ∧ p.running.length ≤ 1 := by
  refine run?_induction (P := fun p => p.finished.map (·.1) ++ p.running = List.range p.started ∧
    p.running.length ≤ 1) ⟨rfl, Nat.zero_le _⟩ ?_ h
  rintro p p' s ⟨horder, hlength⟩ hs
  rcases step?_cases hs with ⟨-, -, hroom, rfl⟩ | ⟨position, outcome, -, hrunning, -, rfl⟩
  · have hidle : p.running = [] := by
      simp only [hasRoom, Bool.or_eq_true, decide_eq_true_eq] at hroom
      exact List.length_eq_zero_iff.mp (by omega)
    rw [hidle, List.append_nil] at horder
    rw [List.range_succ, ← horder, hidle]
    exact ⟨rfl, Nat.le_refl _⟩
  · obtain ⟨other, hother⟩ : ∃ other, p.running = [other] :=
      List.length_eq_one_iff.mp (Nat.le_antisymm hlength (List.length_pos_of_mem hrunning))
    rw [hother] at hrunning horder ⊢
    cases List.mem_singleton.mp hrunning
    rw [List.erase_cons_head, List.append_nil, List.map_append]
    exact ⟨horder, Nat.zero_le _⟩

structure Completes (jobs : Int) (tasks : List (Outcome α)) (schedule : List WorkerStep)
    (p : Progress α) : Prop where
  run : run? jobs tasks schedule = some p
  started : p.started = tasks.length
  idle : p.running = []

def Complete (jobs : Int) (tasks : List (Outcome α)) (schedule : List WorkerStep) : Prop :=
  ∃ p, Completes jobs tasks schedule p

/-- The workers are done with every list of files that they are given. -/
def Sound (workers : Workers) : Prop :=
  ∀ (jobs : Int) (tasks : List (Outcome Compiled)),
    Complete jobs tasks (workers jobs tasks.length)

namespace Completes

theorem positions (h : Completes jobs tasks schedule p) :
    (p.finished.map (·.1)).Perm (List.range tasks.length) := by
  have honce := (orderly h.run).once
  rwa [h.idle, List.nil_append, h.started] at honce

theorem lookup (h : Completes jobs tasks schedule p) {position : Nat} {outcome : Outcome α}
    (ht : tasks[position]? = some outcome) : p.finished.lookup position = some outcome := by
  have hmem : position ∈ p.finished.map (·.1) :=
    h.positions.mem_iff.mpr (List.mem_range.mpr (List.getElem?_eq_some_iff.mp ht).1)
  cases hl : p.finished.lookup position with
  | none =>
    obtain ⟨entry, he, rfl⟩ := List.mem_map.mp hmem
    have hne := List.lookup_eq_none_iff.mp hl entry he
    simp at hne
  | some found =>
    obtain ⟨before, after, hsplit, -⟩ := List.lookup_eq_some_iff.mp hl
    have hfound := (orderly h.run).outcomes (position, found) (by simp [hsplit])
    exact hfound.symm.trans ht

theorem mem_tasks (h : Completes jobs tasks schedule p) {outcome : Outcome α} :
    outcome ∈ tasks ↔ ∃ position, (position, outcome) ∈ p.finished := by
  constructor
  · intro ho
    obtain ⟨position, ht⟩ := List.mem_iff_getElem?.mp ho
    obtain ⟨before, after, hsplit, -⟩ := List.lookup_eq_some_iff.mp (h.lookup ht)
    exact ⟨position, by simp [hsplit]⟩
  · rintro ⟨position, he⟩
    exact List.mem_of_getElem? ((orderly h.run).outcomes _ he)

theorem failure? (h : Completes jobs tasks schedule p) :
    p.finished.findSome? failureOf? = none ↔ ∀ outcome ∈ tasks, ∃ a, outcome = .ok a := by
  rw [List.findSome?_eq_none_iff]
  constructor
  · intro hnone outcome ho
    obtain ⟨position, he⟩ := h.mem_tasks.mp ho
    cases outcome with
    | ok a => exact ⟨a, rfl⟩
    | error failure => cases hnone _ he
  · intro hok entry he
    obtain ⟨a, ha⟩ := hok entry.2 (h.mem_tasks.mpr ⟨entry.1, he⟩)
    obtain ⟨position, outcome⟩ := entry
    cases ha
    rfl

end Completes

theorem filterMap_getElem?_range (results : List α) :
    (List.range results.length).filterMap (fun i => results[i]?) = results := by
  induction results using List.reverseRecOn with
  | nil => rfl
  | append_singleton results a ih =>
    rw [List.length_append, List.length_singleton, List.range_succ, List.filterMap_append]
    have hold : (List.range results.length).filterMap (fun i => (results ++ [a])[i]?) =
        (List.range results.length).filterMap (fun i => results[i]?) :=
      List.filterMap_congr fun i hi => List.getElem?_append_left (List.mem_range.mp hi)
    rw [hold, ih]
    simp

theorem Completes.outcome_eq_ok (h : Completes jobs tasks schedule p) {results : List α} :
    outcome p = .ok results ↔ tasks = results.map .ok := by
  have hresults : ∀ results : List α, tasks = results.map .ok →
      (List.range p.started).filterMap (resultAt? p) = results := by
    rintro results rfl
    rw [h.started, List.length_map]
    refine (List.filterMap_congr fun i hi => ?_).trans (filterMap_getElem?_range results)
    have hi := List.getElem?_eq_getElem (List.mem_range.mp hi)
    rw [resultAt?, h.lookup (List.getElem?_map.trans (congrArg _ hi)), hi]
  unfold outcome
  constructor
  · intro ho
    cases hf : p.finished.findSome? failureOf? with
    | some failure =>
      rw [hf] at ho
      cases ho
    | none =>
      rw [hf] at ho
      obtain ⟨all, hall⟩ : tasks ∈ Set.range (List.map .ok) := by
        rw [Set.range_list_map]
        exact fun o ho => (h.failure?.mp hf o ho).imp fun _ => Eq.symm
      cases ho
      rw [hresults all hall.symm, hall]
  · intro ht
    have hnone : p.finished.findSome? failureOf? = none := h.failure?.mpr fun o ho => by
      obtain ⟨a, -, rfl⟩ := List.mem_map.mp (ht ▸ ho)
      exact ⟨a, rfl⟩
    rw [hnone, hresults results ht]

theorem Completes.mem_of_outcome (h : Completes jobs tasks schedule p) {failure : Failure}
    (ho : outcome p = .error failure) : .error failure ∈ tasks := by
  unfold outcome at ho
  cases hf : p.finished.findSome? failureOf? with
  | none =>
    rw [hf] at ho
    cases ho
  | some first =>
    rw [hf] at ho
    cases ho
    obtain ⟨entry, he, hfirst⟩ := List.exists_of_findSome?_eq_some hf
    obtain ⟨position, outcome⟩ := entry
    cases outcome with
    | ok a => cases hfirst
    | error failure =>
      cases hfirst
      exact h.mem_tasks.mpr ⟨position, he⟩

/-- With one job the failure is that of the first file that fails. -/
theorem Completes.outcome_of_first (h : Completes 1 tasks schedule p)
    {before after : List (Outcome α)} {failure : Failure}
    (ht : tasks = before ++ .error failure :: after) (hok : ∀ o ∈ before, ∃ a, o = .ok a) :
    outcome p = .error failure := by
  have hpositions : p.finished.map (·.1) = List.range tasks.length := by
    have horder := (finished_append_running h.run).1
    rwa [h.idle, List.append_nil, h.started] at horder
  have houtcomes : p.finished.map (·.2) = tasks := by
    calc p.finished.map (·.2)
        = p.finished.filterMap (fun entry => tasks[entry.1]?) := by
          rw [← List.filterMap_eq_map]
          exact List.filterMap_congr fun entry he => ((orderly h.run).outcomes entry he).symm
      _ = (p.finished.map (·.1)).filterMap (fun i => tasks[i]?) := List.filterMap_map.symm
      _ = tasks := by rw [hpositions, filterMap_getElem?_range]
  have hfirst : p.finished.findSome? failureOf? = some failure := by
    have hsame : failureOf? = (fun o : Outcome α => failureOf? (0, o)) ∘ Prod.snd := by
      funext entry
      obtain ⟨position, outcome⟩ := entry
      cases outcome <;> rfl
    have hnone : before.findSome? (fun o => failureOf? (0, o)) = none := by
      refine List.findSome?_eq_none_iff.mpr fun o ho => ?_
      obtain ⟨a, rfl⟩ := hok o ho
      rfl
    rw [hsame, ← List.findSome?_map, houtcomes, ht, List.findSome?_append, hnone]
    rfl
  rw [outcome, hfirst]

/-- Turns of the workers can always be continued until they are done. -/
theorem exists_complete (h : run? jobs tasks schedule = some p) :
    ∃ rest, Complete jobs tasks (schedule ++ rest) := by
  obtain ⟨n, hn⟩ : ∃ n, n = 2 * (tasks.length - p.started) + p.running.length := ⟨_, rfl⟩
  induction n generalizing schedule p with
  | zero =>
    have hle := (orderly h).started
    refine ⟨[], p, ?_, by omega, List.length_eq_zero_iff.mp (by omega)⟩
    rwa [List.append_nil]
  | succ n ih =>
    -- A file that is worked on can be finished; if there is none, the next can be taken up.
    obtain ⟨s, p', hs, hless⟩ : ∃ s p', step? jobs tasks p s = some p' ∧
        n = 2 * (tasks.length - p'.started) + p'.running.length := by
      cases hr : p.running with
      | nil =>
        have hlt : p.started < tasks.length := by
          rw [hr, List.length_nil] at hn
          omega
        refine ⟨.start, _, step?_start hlt (hasRoom_of_idle hr), ?_⟩
        rw [hr] at hn ⊢
        simp only [List.length_nil, List.length_cons] at hn ⊢
        omega
      | cons position others =>
        have hmem : position ∈ p.running := hr ▸ List.mem_cons_self
        have hlt : position < tasks.length := by
          have honce := (orderly h).once.mem_iff.mp (List.mem_append_left _ hmem)
          exact Nat.lt_of_lt_of_le (List.mem_range.mp honce) (orderly h).started
        refine ⟨.finish position, _, step?_finish hmem (List.getElem?_eq_getElem hlt), ?_⟩
        rw [hr] at hn ⊢
        simp only [List.erase_cons_head, List.length_cons] at hn ⊢
        omega
    have hrun : run? jobs tasks (schedule ++ [s]) = some p' := by
      rw [run?_append, h, Option.bind_some, List.foldlM_cons, hs]
      rfl
    obtain ⟨rest, hrest⟩ := ih hrun hless
    exact ⟨s :: rest, by rwa [List.append_assoc] at hrest⟩

theorem complete_inOrder (jobs : Int) (tasks : List (Outcome α)) :
    Complete jobs tasks (inOrder tasks.length) := by
  have hrun : ∀ count ≤ tasks.length, ∃ p, run? jobs tasks (inOrder count) = some p ∧
      p.started = count ∧ p.running = [] := by
    intro count
    induction count with
    | zero => exact fun _ => ⟨{}, rfl, rfl, rfl⟩
    | succ count ih =>
      intro hle
      obtain ⟨p, hp, rfl, hidle⟩ := ih (Nat.le_of_lt hle)
      refine ⟨{
        started := p.started + 1
        finished := p.finished ++ [(p.started, tasks[p.started])] }, ?_, rfl, rfl⟩
      have hsplit : inOrder (p.started + 1) = inOrder p.started ++ [.start, .finish p.started] := by
        rw [inOrder, List.range_succ, List.flatMap_append, List.flatMap_singleton, inOrder]
      rw [hsplit, run?_append, hp, Option.bind_some, List.foldlM_cons,
        step?_start hle (hasRoom_of_idle hidle), Option.bind_eq_bind, Option.bind_some,
        List.foldlM_cons, step?_finish List.mem_cons_self (List.getElem?_eq_getElem hle), hidle,
        List.erase_cons_head]
      rfl
  obtain ⟨p, hp, hstarted, hidle⟩ := hrun _ (Nat.le_refl _)
  exact ⟨p, hp, hstarted, hidle⟩

theorem sound_oneByOne : Sound oneByOne := fun jobs tasks => complete_inOrder jobs tasks

end Batch

def tasksOf (files : Directory) (options : CompileOptions) (names : List String) :
    List (Outcome Compiled) :=
  names.map fun name => (compileFile files options name).listed name

theorem CompileResult.listed_eq_ok {name : String} {result : CompileResult} {c : Compiled} :
    result.listed name = .ok c ↔ c.file = name ∧ result.functions = .ok c.functions := by
  rw [listed, Outcome.within_eq_ok, Outcome.map_eq_ok]
  constructor
  · rintro ⟨functions, h, rfl⟩
    exact ⟨rfl, h⟩
  · rintro ⟨rfl, h⟩
    exact ⟨_, h, rfl⟩

theorem CompileResult.listed_eq_error {name : String} {result : CompileResult}
    {failure : Failure} : result.listed name = .error failure ↔
      ∃ own, result.functions = .error own ∧ failure = own.within name := by
  unfold listed
  cases result.functions with
  | ok functions => exact ⟨nofun, nofun⟩
  | error own =>
    show Except.error (own.within name) = Except.error failure ↔ _
    simp [eq_comm]

section

variable {files : Directory} {options : CompileOptions} {jobs : Int} {names : List String}
  {workers : Batch.Workers} {p : Batch.Progress Compiled}

theorem compileFiles_results
    (h : Batch.Completes jobs (tasksOf files options names) (workers jobs names.length) p) :
    (compileFiles files options jobs names workers).results = Batch.outcome p := by
  have htasks : names.zipWith CompileResult.listed (names.map (compileFile files options)) =
      tasksOf files options names := by
    rw [List.zipWith_map_right, List.zipWith_self]
    rfl
  show Batch.outcome ((Batch.run? jobs (names.zipWith CompileResult.listed
    (names.map (compileFile files options))) (workers jobs names.length)).getD {}) = _
  rw [htasks, h.run]
  rfl

/-- Whether each file can be compiled decides, and what is known of it alone. -/
structure AllOrFailure (files : Directory) (options : CompileOptions) (jobs : Int)
    (names : List String) (results : Outcome (List Compiled)) : Prop where
  success : (∃ compiled, results = .ok compiled) ↔
    ∀ name ∈ names, ∃ functions, (compileFile files options name).functions = .ok functions
  each : ∀ compiled, results = .ok compiled → List.Forall₂ (fun name c => c.file = name ∧
    (compileFile files options name).functions = .ok c.functions) names compiled
  failure : ∀ failure, results = .error failure → ∃ name ∈ names, ∃ own,
    (compileFile files options name).functions = .error own ∧ failure = own.within name
  first : jobs = 1 → ∀ before name after own, names = before ++ name :: after →
    (∀ other ∈ before, ∃ functions,
      (compileFile files options other).functions = .ok functions) →
    (compileFile files options name).functions = .error own →
    results = .error (own.within name)

theorem tasksOf_eq_ok {compiled : List Compiled} :
    tasksOf files options names = compiled.map .ok ↔ List.Forall₂ (fun name c => c.file = name ∧
      (compileFile files options name).functions = .ok c.functions) names compiled := by
  rw [tasksOf, ← List.forall₂_eq_eq_eq, List.forall₂_map_left_iff, List.forall₂_map_right_iff]
  simp only [CompileResult.listed_eq_ok]

theorem allOrFailure
    (h : Batch.Completes jobs (tasksOf files options names) (workers jobs names.length) p) :
    AllOrFailure files options jobs names
      (compileFiles files options jobs names workers).results := by
  have hok : ∀ compiled, Batch.outcome p = .ok compiled ↔ _ := fun compiled =>
    h.outcome_eq_ok.trans tasksOf_eq_ok
  rw [compileFiles_results h]
  refine ⟨⟨?_, fun hall => ?_⟩, fun compiled => (hok compiled).mp, fun failure hf => ?_, ?_⟩
  · rintro ⟨compiled, hc⟩ name hn
    obtain ⟨c, -, -, hc⟩ := exists_of_forall₂_of_mem ((hok compiled).mp hc).flip hn
    exact ⟨_, hc⟩
  · obtain ⟨compiled, hc⟩ := exists_forall₂ (R := fun name (c : Compiled) => c.file = name ∧
      (compileFile files options name).functions = .ok c.functions) fun name hn =>
      (hall name hn).elim fun functions hf => ⟨⟨name, functions⟩, rfl, hf⟩
    exact ⟨compiled, (hok compiled).mpr hc⟩
  · obtain ⟨name, hn, hlisted⟩ := List.mem_map.mp (h.mem_of_outcome hf)
    obtain ⟨own, hown, hwithin⟩ := CompileResult.listed_eq_error.mp hlisted
    exact ⟨name, hn, own, hown, hwithin⟩
  · rintro rfl before name after own rfl hbefore hown
    have htasks : tasksOf files options (before ++ name :: after) =
        tasksOf files options before ++ .error (own.within name) ::
          tasksOf files options after := by
      rw [← CompileResult.listed_eq_error.mpr ⟨own, hown, rfl⟩]
      exact List.map_append.trans (congrArg _ List.map_cons)
    refine h.outcome_of_first htasks fun o ho => ?_
    obtain ⟨other, hother, rfl⟩ := List.mem_map.mp ho
    obtain ⟨functions, hf⟩ := hbefore other hother
    exact ⟨⟨other, functions⟩, CompileResult.listed_eq_ok.mpr ⟨rfl, hf⟩⟩

theorem AllOrFailure.exists_failure {results : Outcome (List Compiled)} {name : String}
    {own : Failure} (h : AllOrFailure files options jobs names results) (hn : name ∈ names)
    (hown : (compileFile files options name).functions = .error own) :
    ∃ failure, results = .error failure := by
  cases results with
  | error failure => exact ⟨failure, rfl⟩
  | ok compiled =>
    obtain ⟨functions, hfunctions⟩ := h.success.mp ⟨compiled, rfl⟩ name hn
    cases hown.symm.trans hfunctions

end

namespace CommandLine

open Effect

variable {w w' : World}

namespace Effect

theorem bind_eq_ok {α β : Type} {x : Effect α} {f : α → Effect β} {b : β} :
    (x >>= f) w = .ok b w' ↔ ∃ a w₁, x w = .ok a w₁ ∧ f a w₁ = .ok b w' := by
  change EStateM.bind x f w = _ ↔ _
  unfold EStateM.bind
  cases x w <;> simp [and_assoc]

theorem bind_of_ok {α β : Type} {x : Effect α} {f : α → Effect β} {a : α}
    (h : x w = .ok a w') : (x >>= f) w = f a w' := by
  change EStateM.bind x f w = _
  rw [EStateM.bind, h]

theorem bind_of_error {α β : Type} {x : Effect α} {f : α → Effect β} {failure : Failure}
    (h : x w = .error failure w') : (x >>= f) w = .error failure w' := by
  change EStateM.bind x f w = _
  rw [EStateM.bind, h]

theorem lift_eq_ok {α : Type} {outcome : Outcome α} {a : α} :
    lift outcome w = .ok a w' ↔ outcome = .ok a ∧ w = w' := by
  unfold lift
  cases outcome with
  | ok b =>
    change EStateM.Result.ok b w = _ ↔ _
    simp
  | error failure => exact ⟨nofun, nofun⟩

theorem within_eq_ok {α : Type} {context : String} {x : Effect α} {a : α} :
    within context x w = .ok a w' ↔ x w = .ok a w' := by
  change EStateM.tryCatch x _ w = _ ↔ _
  unfold EStateM.tryCatch
  cases hx : x w with
  | ok b w₁ => rfl
  | error failure w₁ => exact ⟨nofun, nofun⟩

end Effect

theorem configure_eq_ok {i : Invocation} {settings : Settings}
    (h : configure i w = .ok settings w') : ∃ topics, w' = { w with topics } := by
  obtain ⟨base, w₁, hsetup, h⟩ := Effect.bind_eq_ok.mp h
  obtain ⟨-, rfl⟩ := lift_eq_ok.mp h
  obtain ⟨_, w₂, hget, hsetup⟩ := Effect.bind_eq_ok.mp hsetup
  cases hget
  obtain ⟨loaded, w₃, hload, hsetup⟩ := Effect.bind_eq_ok.mp hsetup
  obtain ⟨-, rfl⟩ := lift_eq_ok.mp (within_eq_ok.mp hload)
  by_cases hv : i.verbosity.isEmpty
  · rw [if_pos hv] at hsetup
    cases hsetup
    exact ⟨_, rfl⟩
  · rw [if_neg hv] at hsetup
    cases hsetup
    exact ⟨_, rfl⟩

theorem compileAll_eq (settings : Settings) (names : List String) (w : World) :
    ∃ log, compileAll settings names w = lift (compileFiles w.files
      ⟨settings.globals, settings.verify⟩ settings.jobs names w.workers).results { w with log } :=
  ⟨_, rfl⟩

theorem compileAll_of_error {settings : Settings} {names : List String} {failure : Failure}
    (h : (compileFiles w.files ⟨settings.globals, settings.verify⟩ settings.jobs names
      w.workers).results = .error failure) :
    ∃ log, compileAll settings names w = .error failure { w with log } := by
  obtain ⟨log, hcompile⟩ := compileAll_eq settings names w
  rw [h] at hcompile
  exact ⟨log, hcompile⟩

end CommandLine

open CommandLine in
/-- Compiling many files does not depend on the turns that the workers take. All files are
compiled if each of them can be, with the results that they have alone, in list order.
Otherwise the failure is that of a file which cannot, of the first in the list if there is one
job. Workers never get stuck. If a file fails, the command that asked for the results leaves
what was printed and the files as they were. -/
theorem compileFiles_allOrFailure :
    (∀ files options jobs names schedule,
      Batch.Complete jobs (tasksOf files options names) schedule →
      AllOrFailure files options jobs names
        (compileFiles files options jobs names fun _ _ => schedule).results) ∧
    (∀ files options jobs names schedule p,
      Batch.run? jobs (tasksOf files options names) schedule = some p →
      ∃ rest, Batch.Complete jobs (tasksOf files options names) (schedule ++ rest)) ∧
    ∀ (i : Invocation) (w w₁ : World) (settings : Settings), Batch.Sound w.workers →
      configure i w = .ok settings w₁ →
      (∃ name ∈ i.arguments, ∃ own,
        (compileFile w.files ⟨settings.globals, settings.verify⟩ name).functions = .error own) →
      ∃ failure w₂, transpile i w = .error failure w₂ ∧ w₂.stdout = w.stdout ∧
        w₂.files = w.files ∧ ∃ name ∈ i.arguments, ∃ own, failure = own.within name ∧
          (compileFile w.files ⟨settings.globals, settings.verify⟩ name).functions =
            .error own := by
  refine ⟨fun files options jobs names schedule ⟨p, hp⟩ => allOrFailure hp,
    fun files options jobs names schedule p hp => Batch.exists_complete hp, ?_⟩
  rintro i w w₁ settings hw hc ⟨name, hn, own, hown⟩
  obtain ⟨topics, rfl⟩ := configure_eq_ok hc
  obtain ⟨p, hp⟩ := hw settings.jobs
    (tasksOf w.files ⟨settings.globals, settings.verify⟩ i.arguments)
  rw [tasksOf, List.length_map] at hp
  have hall := allOrFailure hp
  obtain ⟨failure, hf⟩ := hall.exists_failure hn hown
  obtain ⟨log, hcompile⟩ := compileAll_of_error (w := { w with topics }) hf
  have htranspile : transpile i w = .error failure { w with topics, log } := by
    rw [transpile, Effect.bind_of_ok hc]
    exact Effect.bind_of_error hcompile
  obtain ⟨name, hn, own, hown, rfl⟩ := hall.failure failure hf
  exact ⟨_, _, htranspile, rfl, rfl, name, hn, own, rfl, hown⟩

def oneProgram : Directory := ⟨[("a", "\x7b\"type\":\"Program\"\x7d")]⟩

open CommandLine in
/-- Of three files the first compiles and the others are missing. Two jobs can finish the last
of them first, and report it; one job reports the second. A command that is given the three
prints nothing. -/
theorem compileFiles_missing :
    (∃ functions, (compileFile oneProgram {} "a").functions = .ok functions) ∧
    Batch.Complete 2 (tasksOf oneProgram {} ["a", "b", "c"])
      [.start, .start, .finish 0, .start, .finish 2, .finish 1] ∧
    AllOrFailure oneProgram {} 2 ["a", "b", "c"]
      (.error ⟨["c", "read file"], .missingFile "c"⟩) ∧
    Batch.Complete 1 (tasksOf oneProgram {} ["a", "b", "c"]) (Batch.inOrder 3) ∧
    AllOrFailure oneProgram {} 1 ["a", "b", "c"]
      (.error ⟨["b", "read file"], .missingFile "b"⟩) ∧
    ∃ failure w, transpile { arguments := ["a", "b", "c"] } { files := oneProgram } =
      .error failure w ∧ w.stdout = "" ∧ w.files = oneProgram := by
  obtain ⟨functions, ha, -⟩ := Outcome.exists_ok (x := (compileFile oneProgram {} "a").functions)
    (f := fun _ => ()) (b := ()) (by decide +kernel)
  have hmissing : ∀ name ∈ ["b", "c"], (compileFile oneProgram {} name).functions =
      .error ⟨["read file"], .missingFile name⟩ := by
    have hread : ∀ name ∈ ["b", "c"], oneProgram.read name =
        .error ⟨[], .missingFile name⟩ := by decide +kernel
    intro name hn
    rw [compileFile, hread name hn]
    rfl
  have htasks : tasksOf oneProgram {} ["a", "b", "c"] = [.ok ⟨"a", functions⟩,
      .error ⟨["b", "read file"], .missingFile "b"⟩,
      .error ⟨["c", "read file"], .missingFile "c"⟩] := by
    have hb := hmissing "b" (by decide)
    have hc := hmissing "c" (by decide)
    simp only [tasksOf, List.map_cons, List.map_nil, CompileResult.listed, ha, hb, hc]
    rfl
  have htwo : Batch.Completes 2 (tasksOf oneProgram {} ["a", "b", "c"])
      [.start, .start, .finish 0, .start, .finish 2, .finish 1] ⟨3, [], [
        (0, .ok ⟨"a", functions⟩),
        (2, .error ⟨["c", "read file"], .missingFile "c"⟩),
        (1, .error ⟨["b", "read file"], .missingFile "b"⟩)]⟩ := by
    rw [htasks]
    exact ⟨rfl, rfl, rfl⟩
  have hone : Batch.Completes 1 (tasksOf oneProgram {} ["a", "b", "c"]) (Batch.inOrder 3)
      ⟨3, [], [
        (0, .ok ⟨"a", functions⟩),
        (1, .error ⟨["b", "read file"], .missingFile "b"⟩),
        (2, .error ⟨["c", "read file"], .missingFile "c"⟩)]⟩ := by
    rw [htasks]
    exact ⟨rfl, rfl, rfl⟩
  have hconfigure : configure { arguments := ["a", "b", "c"] } { files := oneProgram } =
      .ok {} { files := oneProgram } := rfl
  obtain ⟨failure, w, htranspile, hstdout, hfiles, -⟩ := compileFiles_allOrFailure.2.2 _ _ _ _
    Batch.sound_oneByOne hconfigure ⟨"b", by decide, _, hmissing "b" (by decide)⟩
  have hall := compileFiles_allOrFailure.1
  refine ⟨⟨functions, ha⟩, ⟨_, htwo⟩, ?_, ⟨_, hone⟩, ?_, failure, w, htranspile, hstdout, hfiles⟩
  · have h := hall oneProgram {} 2 ["a", "b", "c"] _ ⟨_, htwo⟩
    rwa [compileFiles_results htwo] at h
  · have h := hall oneProgram {} 1 ["a", "b", "c"] _ ⟨_, hone⟩
    rwa [compileFiles_results hone] at h

end ScopeIR
