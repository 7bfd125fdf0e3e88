import ScopeIR.Proofs.LiteralTexts
import ScopeIR.Proofs.Offences
import ScopeIR.Proofs.Programs
import ScopeIR.Proofs.Provenance
import ScopeIR.Stats

/-! Modified members. A compound assignment or an update computes the object and the key of its
target once, reads the field, combines what it held, and writes the same field. -/
namespace ScopeIR

variable {s s' t : Compilation} {ref : Value} {node target : Node} {place : Place} {loc : Location}

namespace Place

def read (place : Place) (id : Id) : Instruction :=
  match place.key with
  | .name name => .apply place.loc id (.getField name) [place.object]
  | .computed key => .apply place.loc id .getFieldDynamic [place.object, key]

def write (place : Place) (id : Id) (value : Value) : Instruction :=
  match place.key with
  | .name name => .apply place.loc id (.setField name) [place.object, value]
  | .computed key => .apply place.loc id .setFieldDynamic [place.object, key, value]

end Place

/-- What an instruction with this destination gives; it may be known to be a scope or a
function. -/
def Value.StandsFor (v : Value) (id : Id) : Prop := v.id = id ∧ v.isConstant = false

namespace Compilation

def started (s : Compilation) (task : Task) : Compilation :=
  s.logged (.entry ⟨task, s.scopes, s.frame, s.functions⟩)

/-- No task has started since, and so nothing else was lowered. -/
structure Rests (s s' : Compilation) : Prop where
  frame : s'.frame = s.frame
  functions : s'.functions = s.functions
  entries : s'.entries = s.entries

theorem Rests.trans {s₁ : Compilation} (h : Rests s s₁) (h' : Rests s₁ s') : Rests s s' :=
  ⟨h'.frame.trans h.frame, h'.functions.trans h.functions, h'.entries.trans h.entries⟩

/-- The table of constants is in order, and was so whenever a task started. -/
structure Literate (s : Compilation) : Prop where
  scopes : s.scopes.Literate
  entries : ∀ entry ∈ s.entries, entry.scopes.Literate

theorem Literate.started (hs : s.Literate) (task : Task) : (s.started task).Literate :=
  ⟨hs.scopes, List.forall_mem_cons.mpr ⟨hs.scopes, hs.entries⟩⟩

theorem from_all : s.From .all ↔ s.Literate := by
  have hspells : ∀ text, Stock.all.Spells text := fun _ _ _ => trivial
  have hcode : ∀ code, CodeFrom .all code := fun _ x _ =>
    ⟨trivial, fun v _ => v.from_all, fun _ _ => hspells _⟩
  refine ⟨fun h => ⟨h.scopes.literate, h.entries⟩, fun h => ⟨⟨hspells _, fun _ _ => hspells _,
    fun _ _ => hcode _⟩, fun _ _ => ⟨hcode _, hspells _, fun _ _ => hspells _⟩, ?_, h.entries⟩⟩
  exact ⟨fun _ v _ => v.from_all, fun _ _ => Value.from_all _, h.scopes⟩

end Compilation

namespace Lower

/-- The object and the key of a member are computed, one after the other; a key that fixes a name
is not. -/
inductive Selects (ref : Value) (s : Compilation) : Node → Place → Compilation → Prop
  | name {loc : Location} {object key : Node} {computed optional : Bool} {name : String}
      {base : Lowered} {s' : Compilation} :
      key.staticName? computed = some name → expression object ref s = .ok base s' →
      Selects ref s (.member loc object key computed optional)
        ⟨base.code, base.value, .name name, loc⟩ s'
  | computed {loc : Location} {object key : Node} {computed optional : Bool}
      {base index : Lowered} {s₁ s' : Compilation} :
      key.staticName? computed = none → expression object ref s = .ok base s₁ →
      expression key ref s₁ = .ok index s' →
      Selects ref s (.member loc object key computed optional)
        ⟨base.code ++ index.code, base.value, .computed index.value, loc⟩ s'

/-- What `o.k OP= r` and `++o.k` come to. After the code of their parts, in this order and each
once, they read a field, combine what it held, and write the same field. -/
inductive Modifies (ref : Value) (s : Compilation) : Node → Lowered → Compilation → Prop
  | compound {loc : Location} {operator : String} {target right : Node} {r : Lowered}
      {s₁ t s' : Compilation} {place : Place} {old : Value} :
      compoundPart operator ≠ "" →
      expression right ref (s.started (.expression "AssignmentExpression" ref)) = .ok r s₁ →
      Selects ref (s₁.started (.modify ref)) target place t →
      old.StandsFor t.scopes.next → t.Rests s' → s'.scopes.next = t.scopes.next + 3 →
      Modifies ref s (.assignment loc operator target right)
        { code := r.code ++ (place.code ++ [
            place.read t.scopes.next,
            .apply loc (t.scopes.next + 1 : Nat) (.compoundOperator (compoundPart operator))
              [old, r.value],
            place.write (t.scopes.next + 2 : Nat) (.ref (t.scopes.next + 1 : Nat))])
          value := .ref (t.scopes.next + 1 : Nat) } s'
  /-- The first constant of its kind makes the scope of the kind. -/
  | update {loc : Location} {operator : String} {prefixed : Bool} {target : Node}
      {t s' : Compilation} {place : Place} {old : Value} {one : Constant} {numbers : Id} {n : Nat} :
      operator.utf8ByteSize = 2 →
      Selects ref ((s.started (.expression "UpdateExpression" ref)).started (.modify ref)) target
        place t →
      old.StandsFor t.scopes.next → one.literal = .num .one → one.type = .ofKind .number →
      s'.scopes.literals.lookup TypeKind.number = some numbers →
      t.Rests s' → t.scopes.next < n → s'.scopes.next = n + 2 →
      Modifies ref s (.update loc operator prefixed target)
        { code := place.code ++ place.read t.scopes.next ::
            ((if ∃ entry ∈ t.scopes.constants, entry.1.1 = TypeKind.number then []
              else [.apply loc numbers .newObject []]) ++ [
            .apply loc n (.leadingOperator operator) [old, .const one],
            place.write (n + 1 : Nat) (.ref n)])
          value := if prefixed then .ref n else old } s'

theorem isMissing_of_ok {e : Lowered} (h : expression node ref s = .ok e s') :
    node.isMissing = false := by
  cases node with
  | missing =>
    rw [expression.eq_def] at h
    simp at h
  | _ => rfl

theorem memberPlace_eq_ok :
    memberPlace target ref s = .ok (some place) s' ↔ Selects ref s target place s' := by
  constructor
  · intro h
    cases target with
    | member loc object key computed optional =>
      rw [memberPlace] at h
      simp only [map_eq_ok, Option.some.injEq, exists_eq_right, placeOf] at h
      split at h
      · simp at h
      simp only [bind_eq_ok, within_eq_ok] at h
      obtain ⟨base, s₁, hbase, h⟩ := h
      cases hname : key.staticName? computed with
      | some name =>
        simp only [hname, pure_eq_ok] at h
        obtain ⟨rfl, rfl⟩ := h
        exact .name hname hbase
      | none =>
        simp only [hname, bind_eq_ok, within_eq_ok, pure_eq_ok] at h
        obtain ⟨index, s₂, hindex, rfl, rfl⟩ := h
        exact .computed hname hbase hindex
    | _ => simp [memberPlace] at h
  · intro h
    cases h with
    | @name loc object key computed optional name base s' hname hbase =>
      have hkey : key.isMissing = false := by
        cases key with
        | missing => cases hname
        | _ => rfl
      rw [memberPlace]
      simp only [map_eq_ok, Option.some.injEq, exists_eq_right, placeOf, isMissing_of_ok hbase,
        hkey, Bool.or_false, Bool.false_eq_true, if_false, bind_eq_ok, within_eq_ok, hname,
        pure_eq_ok]
      exact ⟨base, s', hbase, rfl, rfl⟩
    | computed hname hbase hindex =>
      rw [memberPlace]
      simp only [map_eq_ok, Option.some.injEq, exists_eq_right, placeOf, isMissing_of_ok hbase,
        isMissing_of_ok hindex, Bool.or_false, Bool.false_eq_true, if_false, bind_eq_ok,
        within_eq_ok, hname, pure_eq_ok]
      exact ⟨_, _, hbase, _, _, hindex, rfl, rfl⟩

theorem exists_place {object key : Node} {computed optional : Bool} {place? : Option Place}
    (h : memberPlace (.member loc object key computed optional) ref s = .ok place? s') :
    ∃ place, place? = some place ∧
      Selects ref s (.member loc object key computed optional) place s' := by
  have hsome := h
  rw [memberPlace, map_eq_ok] at hsome
  obtain ⟨place, -, rfl⟩ := hsome
  exact ⟨place, rfl, memberPlace_eq_ok.mp h⟩

theorem load_eq_ok {e : Lowered} (h : load place s = .ok e s') :
    ∃ old : Value, old.StandsFor s.scopes.next ∧ e = ⟨[place.read s.scopes.next], old⟩ ∧
      s' = s.spend := by
  unfold Place.read
  cases hkey : place.key with
  | name name =>
    simp only [load, hkey, read, scopeOf?, bind_eq_ok, get_eq_ok, fresh_eq_ok, pure_eq_ok] at h
    obtain ⟨_, _, ⟨_, _, ⟨rfl, rfl⟩, rfl, rfl⟩, _, _, ⟨rfl, rfl⟩, rfl, rfl⟩ := h
    refine ⟨_, ?_, rfl, rfl⟩
    split <;> exact ⟨rfl, rfl⟩
  | computed key =>
    simp only [load, hkey, bind_eq_ok, fresh_eq_ok, pure_eq_ok] at h
    obtain ⟨_, _, ⟨rfl, rfl⟩, rfl, rfl⟩ := h
    exact ⟨_, ⟨rfl, rfl⟩, rfl, rfl⟩

theorem store_eq_ok {value : Value} {code : List Instruction}
    (h : store place value s = .ok code s') :
    code = [place.write s.scopes.next value] ∧ s'.scopes.next = s.scopes.next + 1 ∧
      s'.scopes.literals = s.scopes.literals ∧ s.Rests s' := by
  unfold Place.write
  cases hkey : place.key with
  | name name =>
    simp only [store, hkey, declareField, scopeOf?, bind_eq_ok, get_eq_ok, pure_eq_ok] at h
    obtain ⟨owner, s₁, ⟨_, _, ⟨rfl, rfl⟩, rfl, rfl⟩, h⟩ := h
    cases howner : s.scopes.scopeOf? place.object with
    | some scope =>
      simp only [howner, assign, modifyScope, bind_eq_ok, modify_eq_ok, fresh_eq_ok,
        pure_eq_ok] at h
      obtain ⟨_, _, rfl, _, _, ⟨rfl, rfl⟩, rfl, rfl⟩ := h
      exact ⟨rfl, rfl, rfl, rfl, rfl, rfl⟩
    | none =>
      simp only [howner, bind_eq_ok, fresh_eq_ok, pure_eq_ok] at h
      obtain ⟨_, _, ⟨rfl, rfl⟩, rfl, rfl⟩ := h
      exact ⟨rfl, rfl, rfl, rfl, rfl, rfl⟩
  | computed key =>
    simp only [store, hkey, bind_eq_ok, fresh_eq_ok, pure_eq_ok] at h
    obtain ⟨_, _, ⟨rfl, rfl⟩, rfl, rfl⟩ := h
    exact ⟨rfl, rfl, rfl, rfl, rfl, rfl⟩

theorem modifyPlace_eq_ok {combine : Value → Lower Lowered} {m : Modified}
    (h : modifyPlace place combine s = .ok m s') :
    ∃ old new s₁, old.StandsFor s.scopes.next ∧ combine old s.spend = .ok new s₁ ∧
      m = ⟨place.code ++ [place.read s.scopes.next] ++ new.code ++
        [place.write s₁.scopes.next new.value], old, new.value⟩ ∧
      s'.scopes.next = s₁.scopes.next + 1 ∧ s'.scopes.literals = s₁.scopes.literals ∧
      s₁.Rests s' := by
  simp only [modifyPlace, bind_eq_ok, pure_eq_ok] at h
  obtain ⟨loaded, _, hload, new, s₁, hcombine, code, _, hstore, rfl, rfl⟩ := h
  obtain ⟨old, hold, rfl, rfl⟩ := load_eq_ok hload
  obtain ⟨rfl, hnext, hliterals, hrests⟩ := store_eq_ok hstore
  exact ⟨old, new, s₁, hold, hcombine, rfl, hnext, hliterals, hrests⟩

theorem compoundStep_eq_ok {operator : String} {right old : Value} {new : Lowered}
    (h : compoundStep loc operator right old s = .ok new s') :
    new = ⟨[.apply loc s.scopes.next (.compoundOperator operator) [old, right]],
      .ref s.scopes.next⟩ ∧ s' = s.spend := by
  simp only [compoundStep, bind_eq_ok, fresh_eq_ok, pure_eq_ok] at h
  obtain ⟨_, _, ⟨rfl, rfl⟩, rfl, rfl⟩ := h
  exact ⟨rfl, rfl⟩

theorem literal_of_canonicalText {c : Constant} (hc : c.IsTyped)
    (hkind : c.type.kind = TypeKind.number)
    (h : c.literal.canonicalText = (Literal.num .one).canonicalText) :
    c.literal = .num .one ∧ c.type = .ofKind .number := by
  obtain ⟨htype, hadmits⟩ := hc
  rw [hkind] at htype hadmits
  refine ⟨?_, htype⟩
  have hsame := (Literal.canonicalText_eq_iff hadmits (.number .one)).mp h
  cases hl : c.literal <;> rw [hl] at hsame
  case num x =>
    rcases hsame with rfl | ⟨-, hnan⟩
    · rfl
    · cases hnan
  all_goals cases hsame

/-- The literal of an update is the number one, interned like any other. -/
theorem updateStep_eq_ok {operator : String} {old : Value} {new : Lowered}
    (hs : s.scopes.Literate) (h : updateStep loc operator old s = .ok new s') :
    ∃ (one : Constant) (numbers : Id) (n : Nat),
      new = ⟨(if ∃ entry ∈ s.scopes.constants, entry.1.1 = TypeKind.number then []
          else [.apply loc numbers .newObject []]) ++
        [.apply loc n (.leadingOperator operator) [old, .const one]], .ref n⟩ ∧
      one.literal = .num .one ∧ one.type = .ofKind .number ∧
      s'.scopes.literals.lookup TypeKind.number = some numbers ∧ s.scopes.next ≤ n ∧
      s'.scopes.next = n + 1 ∧ s.Rests s' := by
  simp only [updateStep, bind_eq_ok, fresh_eq_ok, pure_eq_ok] at h
  obtain ⟨constant, s₁, hconstant, _, _, ⟨rfl, rfl⟩, rfl, rfl⟩ := h
  obtain ⟨rfl, log, rfl, hentries⟩ := constant_eq_ok hconstant
  obtain ⟨htyped, hkind, htext⟩ := hs.constant (.number .one)
  obtain ⟨hliteral, htype⟩ := literal_of_canonicalText htyped hkind htext
  refine ⟨_, _, _, ?_, hliteral, htype, ScopeTable.lookup_literals_intern _ _ _,
    ScopeTable.next_intern_le _ _ _, rfl, rfl, rfl, hentries⟩
  cases hx : s.scopes.literals.lookup TypeKind.number with
  | some x =>
    rw [if_pos ((hs.shared _).mp (by rw [hx]; rfl))]
    rfl
  | none =>
    have hnew : ¬ ∃ entry ∈ s.scopes.constants, entry.1.1 = TypeKind.number := fun h => by
      have hsome := (hs.shared _).mpr h
      rw [hx] at hsome
      cases hsome
    rw [if_neg hnew]
    rfl

theorem literate_of_ok {e : Lowered} (hs : s.Literate) (h : expression node ref s = .ok e s') :
    s'.Literate :=
  Compilation.from_all.mp
    (keeps_expression node node.offers_all ref.from_all (Compilation.from_all.mpr hs) h).1

theorem Selects.literate (h : Selects ref s target place s') (hs : s.Literate) : s'.Literate := by
  cases h with
  | name _ hbase => exact literate_of_ok hs hbase
  | computed _ hbase hindex => exact literate_of_ok (literate_of_ok hs hbase) hindex

inductive Targets : Node → Prop
  | compound {loc place : Location} {operator : String} {object key right : Node}
      {computed optional : Bool} : compoundPart operator ≠ "" →
      Targets (.assignment loc operator (.member place object key computed optional) right)
  | update {loc place : Location} {operator : String} {prefixed : Bool} {object key : Node}
      {computed optional : Bool} :
      Targets (.update loc operator prefixed (.member place object key computed optional))

theorem modifies_of_ok {e : Lowered} (hn : Targets node) (hs : s.Literate)
    (h : expression node ref s = .ok e s') : Modifies ref s node e s' := by
  cases hn with
  | @compound loc place operator object key right computed optional hop =>
    rw [expression] at h
    simp only [bind_eq_ok, enter_eq_ok] at h
    obtain ⟨_, _, rfl, h⟩ := h
    split at h
    · simp at h
    simp only [bind_eq_ok, within_eq_ok] at h
    obtain ⟨r, s₁, hr, h⟩ := h
    have hempty : (compoundPart operator).isEmpty = false := by simpa using hop
    simp only [hempty, Bool.false_eq_true, if_false, bind_eq_ok, within_eq_ok, enter_eq_ok,
      pure_eq_ok] at h
    obtain ⟨m, s₂, ⟨_, _, rfl, place?, t, hplace, h⟩, rfl, rfl⟩ := h
    obtain ⟨place, rfl, hselects⟩ := exists_place hplace
    obtain ⟨old, new, s₃, hold, hcombine, rfl, hnext, -, hrests⟩ := modifyPlace_eq_ok h
    obtain ⟨rfl, rfl⟩ := compoundStep_eq_ok hcombine
    have hspent : t.Rests t.spend.spend := ⟨rfl, rfl, rfl⟩
    simp only [List.append_assoc, List.singleton_append]
    exact .compound hop hr hselects hold (hspent.trans hrests) hnext
  | @update loc place operator prefixed object key computed optional =>
    rw [expression] at h
    simp only [bind_eq_ok, enter_eq_ok] at h
    obtain ⟨_, _, rfl, h⟩ := h
    cases hsize : operator.utf8ByteSize != 2 with
    | true => simp [hsize] at h
    | false =>
    simp only [Node.isMissing, hsize, Bool.or_self, Bool.false_eq_true, if_false, bind_eq_ok,
      within_eq_ok, enter_eq_ok, pure_eq_ok] at h
    obtain ⟨m, s₂, ⟨_, _, rfl, place?, t, hplace, h⟩, rfl, rfl⟩ := h
    obtain ⟨place, rfl, hselects⟩ := exists_place hplace
    have ht : t.Literate := hselects.literate ((hs.started _).started _)
    obtain ⟨old, new, s₃, hold, hcombine, rfl, hnext, hliterals, hrests⟩ := modifyPlace_eq_ok h
    obtain ⟨one, numbers, n, rfl, hone, htype, hnumbers, hn, hn', hrests'⟩ :=
      updateStep_eq_ok (s := t.spend) ⟨ht.scopes.kept, ht.scopes.shared⟩ hcombine
    have hspent : t.Rests t.spend := ⟨rfl, rfl, rfl⟩
    rw [hn'] at hnext ⊢
    have hnumbers' := hliterals ▸ hnumbers
    simp only [List.append_assoc, List.cons_append]
    exact .update (bne_eq_false_iff_eq.mp hsize) hselects hold hone htype hnumbers'
      (hspent.trans (hrests'.trans hrests)) hn hnext

/-- The steps after those of the parts cannot fail. -/
theorem ok_of_modifies {e : Lowered} (h : Modifies ref s node e s') :
    ∃ e s', expression node ref s = .ok e s' := by
  cases h with
  | @compound loc operator target right r s₁ t s' place old hop hr hselects =>
    have htotal := total_modifyPlace place (total_compoundStep loc (compoundPart operator) r.value)
    obtain ⟨m, s₂, hm⟩ := answers_nil.mp (htotal t)
    have htarget : target.isMissing = false := by cases hselects <;> rfl
    have hempty : (compoundPart operator).isEmpty = false := by simpa using hop
    refine ⟨⟨r.code ++ m.code, m.new⟩, s₂, ?_⟩
    rw [expression]
    simp only [bind_eq_ok, enter_eq_ok, htarget, isMissing_of_ok hr, Bool.or_self,
      Bool.false_eq_true, if_false, within_eq_ok, hempty, pure_eq_ok]
    exact ⟨(), _, rfl, r, s₁, hr, m, s₂, ⟨(), _, rfl, some place, t, memberPlace_eq_ok.mpr hselects,
      hm⟩, rfl, rfl⟩
  | @update loc operator prefixed target t s' place old one numbers n hsize hselects =>
    have htotal := total_modifyPlace place (total_updateStep loc operator)
    obtain ⟨m, s₂, hm⟩ := answers_nil.mp (htotal t)
    have htarget : target.isMissing = false := by cases hselects <;> rfl
    refine ⟨⟨m.code, if prefixed then m.new else m.old⟩, s₂, ?_⟩
    rw [expression]
    simp only [bind_eq_ok, enter_eq_ok, htarget, hsize, bne_self_eq_false, Bool.or_self,
      Bool.false_eq_true, if_false, within_eq_ok, pure_eq_ok]
    exact ⟨(), _, rfl, m, s₂, ⟨(), _, rfl, some place, t, memberPlace_eq_ok.mpr hselects, hm⟩,
      rfl, rfl⟩

theorem literate_program {file : String} {hosts : List String} {functions : List Function}
    (h : program hosts node (.start file) = .ok functions s) : s.Literate :=
  have hhosts : ∀ host ∈ hosts, Stock.all.Spells host := fun _ _ _ _ => trivial
  Compilation.from_all.mp (keeps_program node.offers_all hhosts (.start file) h).1

/-- Compound assignments to members and updates of them succeed if their parts do, and evaluate
the target once: they come to the code of the parts, one read of the field, the operator and one
write. This is so wherever the table of constants is in order, and in a program it always is. -/
theorem expression_modifies_members :
    (∀ file hosts node functions s,
      program hosts node (.start file) = .ok functions s → s.Literate) ∧
    ∀ node ref s, Targets node → s.Literate →
      ((∃ e s', expression node ref s = .ok e s') ↔ ∃ e s', Modifies ref s node e s') ∧
      ∀ e s', expression node ref s = .ok e s' → Modifies ref s node e s' := by
  refine ⟨fun _ _ _ _ _ => literate_program, fun node ref s hn hs => ?_⟩
  have hmodifies : ∀ e s', expression node ref s = .ok e s' → Modifies ref s node e s' :=
    fun _ _ => modifies_of_ok hn hs
  refine ⟨⟨?_, ?_⟩, hmodifies⟩
  · rintro ⟨e, s', h⟩
    exact ⟨e, s', hmodifies e s' h⟩
  · rintro ⟨e, s', h⟩
    exact ok_of_modifies h

theorem exists_ok_of_run' {α β : Type} (step : Lower α) {f : α → β} {b : β}
    (h : (step.run' s).map f = some b) : ∃ a s', step s = .ok a s' ∧ f a = b := by
  unfold EStateM.run' EStateM.run at h
  cases hs : step s with
  | error failure s' =>
    rw [hs] at h
    cases h
  | ok a s' =>
    rw [hs] at h
    exact ⟨a, s', rfl, Option.some.inj h⟩

/-- `o[p.q++]--` -/
def shiftsKey : Node :=
  let key : Node := .update {} "++" false
    (.member {} (.identifier {} "p") (.identifier {} "q") false false)
  .update {} "--" false (.member {} (.identifier {} "o") key true false)

def updateRef? : Task → Option Value
  | .expression type ref => if type = "UpdateExpression" then some ref else none
  | _ => none

def resumed (entry : Entry) (s : Compilation) : Compilation :=
  { s with scopes := entry.scopes, frame := entry.frame, functions := entry.functions }

def calleeNames (e : Lowered) : List String :=
  (e.code.filterMap Stats.callee?).map FunctionDefinition.name

theorem expression_modifies_members_shiftsKey : ∃ functions s entry ref e s',
    program [] (.program {} "script" [.expressionStatement {} shiftsKey]) (.start "f.js") =
      .ok functions s ∧ entry ∈ s.entries ∧ updateRef? entry.task = some ref ∧
      expression shiftsKey ref (resumed entry s) = .ok e s' ∧
      calleeNames e = ["#get-field# @parent", "#get-field# o", "#get-field# @parent",
        "#get-field# p", "#get-field# q", "#new-object#", "#binop# +", "#set-field# q",
        "#get-field-dynamic#", "#binop# -", "#set-field-dynamic#"] ∧
      Modifies ref (resumed entry s) shiftsKey e s' := by
  let names := ["#get-field# @parent", "#get-field# o", "#get-field# @parent",
    "#get-field# p", "#get-field# q", "#new-object#", "#binop# +", "#set-field# q",
    "#get-field-dynamic#", "#binop# -", "#set-field-dynamic#"]
  obtain ⟨functions, s, h, hs⟩ := exists_program_ok "f.js" []
    (.program {} "script" [.expressionStatement {} shiftsKey])
    (fun _ s => s.entries.filterMap fun entry => (updateRef? entry.task).bind fun ref =>
      ((expression shiftsKey ref).run' (resumed entry s)).map calleeNames)
    (b := [names, names]) (by decide +kernel)
  obtain ⟨entry, hentry, hnames⟩ := List.mem_filterMap.mp (hs ▸ List.mem_cons_self : names ∈ _)
  obtain ⟨ref, href, hrun⟩ := Option.bind_eq_some_iff.mp hnames
  obtain ⟨e, s', he, hcalls⟩ := exists_ok_of_run' (expression shiftsKey ref) hrun
  have hliterate := expression_modifies_members.1 "f.js" [] _ functions s h
  have hresumed : (resumed entry s).Literate :=
    ⟨hliterate.entries entry hentry, hliterate.entries⟩
  exact ⟨functions, s, entry, ref, e, s', h, hentry, href, he, hcalls,
    (expression_modifies_members.2 shiftsKey ref _ .update hresumed).2 e s' he⟩

end Lower

end ScopeIR
