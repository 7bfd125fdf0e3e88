import ScopeIR.Proofs.Extension
import ScopeIR.Proofs.Numerals
import ScopeIR.Proofs.Programs

/-! Names of functions. A function is called `main` if it is the program itself, keeps its name
if it is declared in a function called `main`, and otherwise is named after the function around
it and its own object. Names of the last kind differ from each other and from `main`. -/
namespace ScopeIR

variable {loose : Prop} {d d' : Draft} {w : Work}

theorem toList_generatedName (enclosing : String) (id : Nat) :
    (generatedName enclosing id).toList =
      (enclosing.toList ++ ['_']) ++ '_' :: Nat.toDigits 10 id := by
  have hid : ¬((id : Int) < 0) := Int.not_lt.mpr (Int.natCast_nonneg id)
  rw [generatedName, String.toList_append, String.toList_append, Json.toList_toString_int,
    if_neg hid, Int.natAbs_natCast]
  simp

theorem generatedName_ne_main (enclosing : String) (id : Nat) :
    generatedName enclosing id ≠ mainName := by
  intro h
  have hmem : '_' ∈ (generatedName enclosing id).toList := by
    simp [toList_generatedName]
  rw [h] at hmem
  exact absurd hmem (by decide)

theorem eq_of_append_cons_eq {α : Type} {a : α} {front front' tail tail' : List α}
    (h : front ++ a :: tail = front' ++ a :: tail') (ht : a ∉ tail) (ht' : a ∉ tail') :
    tail = tail' := by
  rcases List.append_eq_append_iff.mp h with ⟨more, -, h⟩ | ⟨more, -, h⟩
  all_goals
    cases more with
    | nil =>
      cases h
      rfl
    | cons b more =>
      obtain ⟨-, rfl⟩ := List.cons.inj h
      simp at ht ht'

/-- The digits of the id are what follows the last underscore. -/
theorem generatedName_inj {enclosing enclosing' : String} {id id' : Nat}
    (h : generatedName enclosing id = generatedName enclosing' id') : id = id' := by
  have hdigits : ∀ n, '_' ∉ Nat.toDigits 10 n := by
    intro n hm
    exact absurd ((isDigits_toDigits n).isDigit _ hm) (by decide)
  have h := congrArg String.toList h
  rw [toList_generatedName, toList_generatedName] at h
  have hsame := eq_of_append_cons_eq h (hdigits id) (hdigits id')
  rw [← naturalOf_toDigits id, hsame, naturalOf_toDigits]

/-- The names that functions inside a function take: only those inside `main` do. -/
def namesIn (enclosing : String) (names : List String) : List String :=
  if enclosing = mainName then names else []

/-- Functions that are added inside one called `enclosing`: they take the names, if that is
`main`, and the others are named after the function around them and an id of the range. -/
structure Naming (enclosing : String) (names : List String) (low high : Nat)
    (new : List Function) (generated : List (String × Nat)) : Prop where
  perm : (new.map (·.definition.name)).Perm
    (namesIn enclosing names ++ generated.map fun g => generatedName g.1 g.2)
  range : ∀ g ∈ generated, low ≤ g.2 ∧ g.2 < high
  ids : (generated.map (·.2)).Nodup
  around : ∀ g ∈ generated, g.1 = enclosing ∨ g.1 ∈ new.map (·.definition.name)

theorem namesIn_append (enclosing : String) (names names' : List String) :
    namesIn enclosing (names ++ names') = namesIn enclosing names ++ namesIn enclosing names' := by
  unfold namesIn
  split <;> rfl

namespace Naming

variable {enclosing : String} {names names' : List String} {low middle high : Nat}
  {new new' : List Function} {generated generated' : List (String × Nat)}

theorem nil (enclosing : String) (low high : Nat) : Naming enclosing [] low high [] [] where
  perm := by
    unfold namesIn
    split <;> exact .nil
  range := List.forall_mem_nil _
  ids := List.nodup_nil
  around := List.forall_mem_nil _

theorem append (h : Naming enclosing names low middle new generated)
    (h' : Naming enclosing names' middle high new' generated') (hl : low ≤ middle)
    (hm : middle ≤ high) :
    Naming enclosing (names ++ names') low high (new ++ new') (generated ++ generated') where
  perm := by
    rw [namesIn_append, List.map_append, List.map_append]
    refine (h.perm.append h'.perm).trans ?_
    rw [List.append_assoc, List.append_assoc]
    exact (List.perm_append_comm_assoc _ _ _).append_left _
  range := by
    refine List.forall_mem_append.mpr ⟨fun g hg => ?_, fun g hg => ?_⟩
    · have := h.range g hg
      omega
    · have := h'.range g hg
      omega
  ids := by
    rw [List.map_append, List.nodup_append']
    refine ⟨h.ids, h'.ids, ?_⟩
    simp only [List.disjoint_left, List.mem_map, not_exists, not_and]
    rintro id ⟨g, hg, rfl⟩ g' hg' heq
    have := h.range g hg
    have := h'.range g' hg'
    omega
  around := by
    rw [List.map_append]
    refine List.forall_mem_append.mpr ⟨fun g hg => ?_, fun g hg => ?_⟩
    · exact (h.around g hg).imp_right (List.mem_append_left _)
    · exact (h'.around g hg).imp_right (List.mem_append_right _)

theorem declared {name : String} {f : Function} (h : Naming name names low high new generated)
    (hf : f.definition.name = name) :
    Naming mainName (Node.namesWith (some name) names) low high (new ++ [f]) generated where
  perm := by
    have hnames : namesIn mainName (Node.namesWith (some name) names) =
        namesIn name names ++ [name] := if_pos rfl
    rw [hnames, List.map_append, List.map_singleton, hf]
    refine (h.perm.append_right _).trans ?_
    rw [List.append_assoc, List.append_assoc]
    exact List.perm_append_comm.append_left _
  range := h.range
  ids := h.ids
  around g hg := by
    rw [List.map_append, List.map_singleton, hf, List.mem_append, List.mem_singleton]
    exact .inr (h.around g hg).symm

theorem nested {f : Function}
    (h : Naming (generatedName enclosing low) names (low + 1) high new generated)
    (hf : f.definition.name = generatedName enclosing low) (hn : namesIn enclosing names' = [])
    (hl : low < high) :
    Naming enclosing names' low high (new ++ [f]) ((enclosing, low) :: generated) where
  perm := by
    have hinside : namesIn (generatedName enclosing low) names = [] :=
      if_neg (generatedName_ne_main enclosing low)
    have hperm := h.perm
    rw [hinside, List.nil_append] at hperm
    rw [hn, List.nil_append, List.map_append, List.map_singleton, List.map_cons, hf]
    exact (hperm.append_right _).trans (List.perm_append_singleton _ _)
  range := by
    refine List.forall_mem_cons.mpr ⟨⟨Nat.le_refl _, hl⟩, fun g hg => ?_⟩
    have := h.range g hg
    omega
  ids := by
    rw [List.map_cons, List.nodup_cons]
    refine ⟨fun hm => ?_, h.ids⟩
    obtain ⟨g, hg, heq⟩ := List.mem_map.mp hm
    have := h.range g hg
    omega
  around := by
    refine List.forall_mem_cons.mpr ⟨.inl rfl, fun g hg => .inr ?_⟩
    rw [List.map_append, List.map_singleton, hf, List.mem_append, List.mem_singleton]
    exact (h.around g hg).symm

theorem widen {low' : Nat} (h : Naming enclosing names low' high new generated)
    (hl : low ≤ low') : Naming enclosing names low high new generated :=
  ⟨h.perm, fun g hg => ⟨Nat.le_trans hl (h.range g hg).1, (h.range g hg).2⟩, h.ids, h.around⟩

theorem function {s : Compilation} {declared : Option String} {f : Function}
    (h : Naming (s.nameFor declared) names (s.scopes.next + 1) high new generated)
    (hf : f.definition.name = s.nameFor declared) (hl : s.scopes.next < high) :
    ∃ generated', Naming s.frame.definition.name (Node.namesWith declared names) s.scopes.next
      high (new ++ [f]) generated' := by
  have hnested (hname : s.nameFor declared = s.nestedName)
      (hn : namesIn s.frame.definition.name (Node.namesWith declared names) = []) :
      ∃ generated', Naming s.frame.definition.name (Node.namesWith declared names) s.scopes.next
        high (new ++ [f]) generated' := by
    rw [hname] at h hf
    exact ⟨_, h.nested hf hn hl⟩
  by_cases hmain : s.frame.definition.name = mainName
  · cases declared with
    | none => exact hnested s.nameFor_none (if_pos hmain)
    | some name =>
      have hname : s.nameFor (some name) = name := if_pos hmain
      rw [hname] at h hf
      rw [hmain]
      exact ⟨generated, (h.declared hf).widen (Nat.le_succ _)⟩
  · exact hnested (if_neg hmain) (if_neg hmain)

end Naming

/-- The functions that a run adds take the names of its work, or are named after new ids. -/
theorem Run.naming (h : Run loose d w d') : ∃ new generated,
    d'.state.functions = d.state.functions ++ new ∧
      Naming d.state.frame.definition.name w.names d.state.scopes.next d'.state.scopes.next
        new generated := by
  induction h with
  | trans h h₁ ih ih₁ =>
    obtain ⟨new, generated, hn, hnaming⟩ := ih
    obtain ⟨new₁, generated₁, hn₁, hnaming₁⟩ := ih₁
    rw [h.extends.definition] at hnaming₁
    refine ⟨new ++ new₁, generated ++ generated₁, by rw [hn₁, hn, List.append_assoc], ?_⟩
    exact hnaming.append hnaming₁ h.extends.next h₁.extends.next
  | object _ _ ih => exact ih
  | @block s s₁ w parent kind rest loc opened chain own inner ih =>
    obtain ⟨new, generated, hn, hnaming⟩ := ih
    rw [s.definition_enterBlock loc parent] at hnaming
    exact ⟨new, generated, hn, hnaming.widen (s.enters_enterBlock loc parent).next_le⟩
  | @function s s₁ w declared code definition params body loc named settled inner ih =>
    obtain ⟨new, generated, hn, hnaming⟩ := ih
    have henter := (s.spend.enters_enter definition params loc []).next_le
    have hdefinition : s₁.frame.definition = definition := inner.extends.definition
    have hname : (s₁.frame.finish s₁.file loc).definition.name = s.nameFor declared := by
      show s₁.frame.definition.name = _
      rw [hdefinition, named]
      rfl
    have hinside : Naming (s.nameFor declared) w.names (s.scopes.next + 1) s₁.scopes.next new
        generated := by
      subst named
      exact hnaming.widen henter
    have hlt : s.scopes.next < s₁.scopes.next := Nat.lt_of_lt_of_le henter inner.extends.next
    obtain ⟨generated', hnaming'⟩ := hinside.function hname hlt
    refine ⟨new ++ [s₁.frame.finish s₁.file loc], generated', ?_, hnaming'⟩
    show s₁.functions ++ _ = s.functions ++ _
    rw [show s₁.functions = s.functions ++ new from hn, List.append_assoc]
  | _ => exact ⟨[], [], (List.append_nil _).symm, .nil _ _ _⟩

theorem ProgramRun.naming {file : String} {hosts : List String} {node : Node}
    {functions : List Function} {result : Compilation}
    (p : ProgramRun loose file hosts node functions result) :
    ∃ generated : List (String × Nat),
      (functions.map (·.definition.name)).Perm
        (mainName :: node.programNames ++ generated.map fun g => generatedName g.1 g.2) ∧
      (generated.map (·.2)).Nodup ∧
      ∀ g ∈ generated, g.1 ∈ functions.map (·.definition.name) := by
  obtain ⟨new, generated, hn, hnaming⟩ := p.run.naming
  have hstart : (p.seeded.enterMain file p.loc p.prologue).functions = [] := p.seeds.functions
  have hnew : p.final.functions = new := by simpa [hstart] using hn
  have hmain : p.final.frame.definition = .user mainName file := p.run.extends.definition
  have hnames : functions.map (·.definition.name) =
      new.map (·.definition.name) ++ [mainName] := by
    rw [p.output, hnew, List.map_append, List.map_singleton]
    show _ ++ [p.final.frame.definition.name] = _
    rw [hmain]
    rfl
  have hperm := hnaming.perm
  have hin : namesIn mainName (Node.allWork p.body).names = (Node.allWork p.body).names :=
    if_pos rfl
  refine ⟨generated, ?_, hnaming.ids, fun g hg => ?_⟩
  · rw [hnames, p.taken, ← hin]
    exact (List.perm_append_singleton _ _).trans (hperm.cons mainName)
  · rw [hnames, List.mem_append, List.mem_singleton]
    exact (hnaming.around g hg).symm

/-- Names differ if those from the text do, from each other, from `main` and from the names
that are generated. -/
theorem nodup_names_iff {taken : List String} {generated : List (String × Nat)}
    (h : (generated.map (·.2)).Nodup) :
    (mainName :: taken ++ generated.map fun g => generatedName g.1 g.2).Nodup ↔
      (mainName :: taken).Nodup ∧ ∀ g ∈ generated, generatedName g.1 g.2 ∉ taken := by
  have hgenerated : (generated.map fun g => generatedName g.1 g.2).Nodup := by
    rw [List.Nodup, List.pairwise_map] at h ⊢
    exact h.imp fun hne heq => hne (generatedName_inj heq)
  rw [List.nodup_append', List.disjoint_comm]
  simp only [hgenerated, true_and, List.disjoint_left, List.forall_mem_map, List.mem_cons,
    not_or, generatedName_ne_main, not_false_eq_true]

end ScopeIR
