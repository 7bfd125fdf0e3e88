import Mathlib.Data.List.TakeWhile
import ScopeIR.Proofs.ParsedTrees
import ScopeIR.Proofs.TreeForms

/-! Reading gives back the tree that a JSON value stands for, unless its nodes stand too deep
inside each other. -/
namespace ScopeIR

namespace Json

/-- The history of a field that was written once, or left out if it is `null`. -/
def Told (history : History) (value : Json) : Prop :=
  history = [value] ∨ history = [] ∧ value = .null

theorem Says.told {members : List (String × Json)} {name : String} {value : Json}
    (h : Says foldName members name value) (hn : foldName name = name) :
    Told (historyOf (folded members) name) value := by
  have hnone : ∀ {others : List (String × Json)}, (∀ other ∈ others, foldName other.1 ≠ name) →
      historyOf (folded others) name = [] := by
    intro others h
    have hfilter : (folded others).filter (fun member => member.1 = name) = [] := by
      refine List.filter_eq_nil_iff.mpr fun member hm => ?_
      obtain ⟨other, ho, rfl⟩ := List.mem_map.mp hm
      simpa using h other ho
    rw [historyOf, hfilter, List.map_nil]
  rcases h with ⟨before, after, rfl, hothers⟩ | ⟨rfl, hothers⟩
  · obtain ⟨hbefore, hafter⟩ := List.forall_mem_append.mp hothers
    refine .inl ?_
    have hsplit : historyOf (folded (before ++ (name, value) :: after)) name =
        historyOf (folded before) name ++ value :: historyOf (folded after) name := by
      simp [historyOf, folded, hn]
    rw [hsplit, hnone hbefore, hnone hafter, List.nil_append]
  · exact .inr ⟨hnone hothers, rfl⟩

theorem Says.field {members : List (String × Json)} {name : String} {value : Json}
    (h : Says id members name value) : Node.field members name = value := by
  have hnone : ∀ {others : List (String × Json)}, (∀ other ∈ others, id other.1 ≠ name) →
      others.reverse.lookup name = none := by
    intro others h
    refine List.lookup_eq_none_iff.mpr fun other ho => ?_
    simpa using (h other (List.mem_reverse.mp ho)).symm
  rcases h with ⟨before, after, rfl, hothers⟩ | ⟨rfl, hothers⟩
  · obtain ⟨-, hafter⟩ := List.forall_mem_append.mp hothers
    simp [Node.field, lookup, List.lookup_append, hnone hafter]
  · rw [Node.field, lookup, hnone hothers]
    rfl

/-- Where no key is repeated, each is said to have the value of its field. -/
theorem says_field {members : List (String × Json)} (h : (members.map (·.1)).Nodup)
    (name : String) : Says id members name (Node.field members name) := by
  by_cases hm : ∃ value, (name, value) ∈ members
  · obtain ⟨value, hm⟩ := hm
    obtain ⟨before, after, rfl⟩ := List.append_of_mem hm
    have hvalue : Says id (before ++ (name, value) :: after) name value := by
      refine .inl ⟨before, after, rfl, fun other ho he => ?_⟩
      rw [List.map_append, List.map_cons, List.nodup_middle, List.nodup_cons,
        ← List.map_append] at h
      exact h.1 (List.mem_map.mpr ⟨other, ho, he⟩)
    rwa [hvalue.field]
  · have hvalue : Says id members name .null :=
      .inr ⟨rfl, fun other ho he => hm ⟨other.2, he ▸ ho⟩⟩
    rwa [hvalue.field]

variable {history : History} {json : Json}

theorem readString_of_told {text : String} (h : Told history json) (ht : IsText text json) :
    readString history = .ok text := by
  rcases h with rfl | ⟨rfl, rfl⟩ <;> rcases ht with ht | ⟨ht, rfl⟩ <;> cases ht <;> rfl

theorem readBool_of_told {flag : Bool} (h : Told history json) (hf : IsFlag flag json) :
    readBool history = .ok flag := by
  rcases h with rfl | ⟨rfl, rfl⟩ <;> rcases hf with hf | ⟨hf, rfl⟩ <;> cases hf <;> rfl

theorem readInt_of_told {i : Int} (h : Told history json) (hi : IsInt i json) :
    readInt history = .ok i := by
  rcases h with rfl | ⟨rfl, rfl⟩ <;> rcases hi with ⟨n, hn, hi⟩ | ⟨hn, rfl⟩ <;> cases hn
  · simp [readInt, readScalar, hi]
  · rfl
  · rfl

theorem readMembers_of_told {α β : Type} {first second : String} {P Q : Json → Prop}
    {readFirst : History → Outcome α} {readSecond : History → Outcome β} {a : α} {b : β}
    (h : Told history json) (hr : IsRecord [(first, P), (second, Q)] json)
    (hn : IsSchema [first, second])
    (ha : ∀ {history value}, Told history value → P value → readFirst history = .ok a)
    (hb : ∀ {history value}, Told history value → Q value → readSecond history = .ok b) :
    ∃ members, readMembers history = .ok members ∧
      readFirst (historyOf members first) = .ok a ∧
      readSecond (historyOf members second) = .ok b := by
  obtain ⟨members, hjson, hfields⟩ := hr
  obtain ⟨⟨u, hu, hp⟩, v, hv, hq⟩ : (∃ u, Says foldName members first u ∧ P u) ∧
      ∃ v, Says foldName members second v ∧ Q v := by simpa using hfields
  refine ⟨folded members, ?_, ha (hu.told (hn.2 first (by simp))) hp,
    hb (hv.told (hn.2 second (by simp))) hq⟩
  rcases h with rfl | ⟨rfl, rfl⟩ <;> rcases hjson with hj | ⟨hj, rfl⟩ <;> cases hj <;> rfl

mutual

/-- Equality that can be evaluated. -/
def same : Json → Json → Bool
  | .null, .null => true
  | .bool a, .bool b => a == b
  | .num a, .num b => a == b
  | .str a, .str b => a == b
  | .arr as, .arr bs => sameItems as bs
  | .obj as, .obj bs => sameMembers as bs
  | _, _ => false

def sameItems : List Json → List Json → Bool
  | [], [] => true
  | a :: as, b :: bs => same a b && sameItems as bs
  | _, _ => false

def sameMembers : List (String × Json) → List (String × Json) → Bool
  | [], [] => true
  | (name, a) :: as, (name', b) :: bs => name == name' && same a b && sameMembers as bs
  | _, _ => false

end

mutual

theorem eq_of_same {a b : Json} (h : same a b) : a = b := by
  cases a <;> cases b <;> simp only [same, Bool.false_eq_true, beq_iff_eq] at h
  case null.null => rfl
  case arr.arr => rw [eq_of_sameItems h]
  case obj.obj => rw [eq_of_sameMembers h]
  all_goals rw [h]

theorem eq_of_sameItems {as bs : List Json} (h : sameItems as bs) : as = bs := by
  cases as <;> cases bs <;> simp only [sameItems, Bool.false_eq_true, Bool.and_eq_true] at h
  · rfl
  · rw [eq_of_same h.1, eq_of_sameItems h.2]

theorem eq_of_sameMembers {as bs : List (String × Json)} (h : sameMembers as bs) : as = bs := by
  cases as <;> cases bs <;>
    simp only [sameMembers, Bool.false_eq_true, Bool.and_eq_true, beq_iff_eq] at h
  · rfl
  · rename_i a as b bs
    exact congrArg₂ _ (Prod.ext h.1.1 (eq_of_same h.1.2)) (eq_of_sameMembers h.2)

end

end Json

theorem Location.readPosition_of_told {history : Json.History} {json : Json} {p : Position}
    (h : Json.Told history json) (hp : p.Form json) : readPosition history = .ok p := by
  obtain ⟨members, hm, hline, hcolumn⟩ := Json.readMembers_of_told h hp (by decide)
    Json.readInt_of_told Json.readInt_of_told
  simp [readPosition, hm, hline, hcolumn]

theorem Location.read_of_form {loc : Location} {json : Json} (hl : loc.Form json) :
    Location.read [json] = .ok loc := by
  obtain ⟨members, hm, hstart, hstop⟩ := Json.readMembers_of_told (.inl rfl) hl (by decide)
    readPosition_of_told readPosition_of_told
  simp [Location.read, hm, hstart, hstop]

theorem RegExp.read_of_form {regex : RegExp} {json : Json} (hr : regex.Form json) :
    RegExp.read [json] = .ok regex := by
  obtain ⟨members, hm, hpattern, hflags⟩ := Json.readMembers_of_told (.inl rfl) hr.1 (by decide)
    Json.readString_of_told Json.readString_of_told
  simp [RegExp.read, hm, hpattern, hflags]

namespace Outcome

variable {α β : Type} {x : Outcome α} {a : α} {p q : Prop}

/-- The value is read if it fits, and found to be nested too deep otherwise. -/
def Reads (x : Outcome α) (a : α) (fits : Prop) : Prop :=
  (fits → x = .ok a) ∧ (¬ fits → x.cause? = some .nestedTooDeep)

namespace Reads

protected theorem pure : (pure a : Outcome α).Reads a True :=
  ⟨fun _ => rfl, fun h => absurd trivial h⟩

theorem congr (h : x.Reads a p) (hpq : p ↔ q) : x.Reads a q :=
  ⟨fun hq => h.1 (hpq.mpr hq), fun hq => h.2 (mt hpq.mp hq)⟩

protected theorem bind {f : α → Outcome β} {b : β} (hx : x.Reads a p) (hf : (f a).Reads b q) :
    (x >>= f).Reads b (p ∧ q) := by
  by_cases hp : p
  · rw [hx.1 hp, ok_bind]
    exact hf.congr (by simp [hp])
  · refine ⟨fun h => absurd h.1 hp, fun _ => ?_⟩
    have hcause := hx.2 hp
    cases x with
    | ok a => cases hcause
    | error failure => exact hcause

theorem after {f : α → Outcome β} {b : β} (hx : x = .ok a) (hf : (f a).Reads b q) :
    (x >>= f).Reads b q := by
  rwa [hx, ok_bind]

theorem within (hx : x.Reads a p) (context : String) : (x.within context).Reads a p := by
  refine ⟨fun hp => within_eq_ok.mpr (hx.1 hp), fun hp => ?_⟩
  have hcause := hx.2 hp
  cases x with
  | ok a => cases hcause
  | error failure =>
    rw [← hcause]
    simp only [Outcome.within, Except.mapError, cause?, Failure.within]
    split <;> rfl

theorem mapM {f : β → Outcome α} {fits : α → Prop} {bs : List β} {as : List α}
    (h : List.Forall₂ (fun a b => (f b).Reads a (fits a)) as bs) :
    (bs.mapM f).Reads as (∀ a ∈ as, fits a) := by
  induction h with
  | nil => exact Reads.pure.congr (by simp)
  | cons hb _ ih =>
    rw [List.mapM_cons, List.forall_mem_cons]
    refine .bind hb (.congr (.bind ih ?_) (Iff.of_eq (and_true _)))
    exact .pure

end Reads

end Outcome

theorem forall₂_zipIdx {α β : Type} {R : α → β → Prop} {as : List α} {bs : List β}
    (h : List.Forall₂ R as bs) (i : Nat) :
    List.Forall₂ (fun a b => R a b.1) as (bs.zipIdx i) := by
  induction h generalizing i with
  | nil => exact .nil
  | cons hab _ ih => exact .cons hab (ih (i + 1))

namespace Node

variable {child : Json → Outcome Node} {room : Nat} {members : Members} {said : String → Json}

theorem requireDeclarators_eq_ok {nodes : List Node} (h : ∀ node ∈ nodes, node.isDeclarator) :
    requireDeclarators nodes = .ok () := by
  induction nodes with
  | nil => rfl
  | cons node rest ih =>
    obtain ⟨hnode, hrest⟩ := List.forall_mem_cons.mp h
    cases node with
    | variableDeclarator => exact ih hrest
    | _ => cases hnode

theorem requireIdentifier_eq_ok {name : String} {node : Node} (h : node.isName) :
    requireIdentifier name node = .ok () := by
  cases node with
  | missing | identifier => rfl
  | _ => cases h

theorem requireBlock_eq_ok {name : String} {node : Node} (h : node.isBody) :
    requireBlock name node = .ok () := by
  cases node with
  | missing | blockStatement => rfl
  | _ => cases h

theorem stringField_of_form {name text : String} {json : Json} (hf : field members name = json)
    (ht : Json.IsText text json) : stringField members name = .ok text := by
  rw [stringField, hf, Json.readString_of_told (.inl rfl) ht]
  rfl

theorem boolField_of_form {name : String} {flag : Bool} {json : Json}
    (hf : field members name = json) (hb : Json.IsFlag flag json) :
    boolField members name = .ok flag := by
  rw [boolField, hf, Json.readBool_of_told (.inl rfl) hb]
  rfl

theorem valueOf_of_form {value : Literal} {json : Json} (h : value.Form json) :
    literalSource.valueOf json = .ok value := by
  cases h with
  | null | bool | str => rfl
  | num h => simp [literalSource.valueOf, h]

theorem literalSource_of_form {P : Node → Json → Prop} {loc : Location} {source : LiteralSource}
    (regular : (Node.literal loc source).IsRegular)
    (hfield : ∀ slot ∈ (Node.literal loc source).slots, field members slot.1 = said slot.1)
    (forms : ∀ slot ∈ (Node.literal loc source).slots, Slot.Form P slot.2 (said slot.1)) :
    literalSource members = .ok source := by
  obtain ⟨raw, regex, bigint, value⟩ := source
  have hraw : stringField members "raw" = .ok raw := by
    cases forms ("raw", .text raw) (by simp [slots]) with
    | text h => exact stringField_of_form (hfield ("raw", .text raw) (by simp [slots])) h
  have hbigint : stringField members "bigint" = .ok bigint := by
    cases forms ("bigint", .text bigint) (by simp [slots]) with
    | text h => exact stringField_of_form (hfield ("bigint", .text bigint) (by simp [slots])) h
  have hregex : field members "regex" = said "regex" :=
    hfield ("regex", .regex regex) (by simp [slots])
  have hform : Slot.Form P (.regex regex) (said "regex") :=
    forms ("regex", .regex regex) (by simp [slots])
  rw [← hregex] at hform
  rw [literalSource, hraw, Outcome.ok_bind, hbigint, Outcome.ok_bind]
  generalize field members "regex" = json at hform
  cases hform with
  | noRegex =>
    dsimp only
    split
    · rename_i hempty
      have hplain : LiteralSource.isPlain ⟨raw, none, bigint, value⟩ := by
        simpa [LiteralSource.isPlain] using hempty
      have hvalue := hfield ("value", .value value) (by simp [slots, hplain])
      cases forms ("value", .value value) (by simp [slots, hplain]) with
      | value h =>
        rw [hvalue, valueOf_of_form h, String.isEmpty_iff.mp hempty]
        rfl
    · rename_i hbig
      have hnull : value = .null := by simpa [IsRegular, LiteralSource.isPlain, hbig] using regular
      rw [hnull]
      rfl
  | @regex r _ hr =>
    have hnull : value = .null := by simpa [IsRegular, LiteralSource.isPlain] using regular
    have hread := RegExp.read_of_form hr
    split
    · exact absurd rfl hr.2
    · rw [hread, hnull]
      rfl

/-- A field is read as what it holds, by the reader for its kind. -/
def Grants (room : Nat) (string : String → Outcome String) (bool : String → Outcome Bool)
    (inner : String → Outcome Node) (nodes : String → Outcome (List Node)) (name : String) :
    Slot → Prop
  | .text text => string name = .ok text
  | .flag flag => bool name = .ok flag
  | .child other => (inner name).Reads other (other.depth ≤ room)
  | .items others => (nodes name).Reads others (∀ other ∈ others, other.depth ≤ room)
  | .regex _ | .value _ => True

/-- The cases are those of the node types; each reads its fields in turn. -/
theorem reads_ofMembers {node : Node}
    (hc : ∀ {other json}, other.Form json → (child json).Reads other (other.depth ≤ room))
    (regular : node.IsRegular)
    (hfield : ∀ slot ∈ node.slots, field members slot.1 = said slot.1)
    (forms : ∀ slot ∈ node.slots, Slot.Form Form slot.2 (said slot.1)) :
    (ofMembers child node.typeName node.location members).Reads node
      (node.depth ≤ room + 1) := by
  unfold ofMembers
  extract_lets string bool inner nodes
  have hslots : ∀ slot ∈ node.slots, Grants room string bool inner nodes slot.1 slot.2 := by
    rintro ⟨name, slot⟩ hs
    have hf : field members name = said name := hfield _ hs
    have hform : Slot.Form Form slot (said name) := forms _ hs
    rw [← hf] at hform
    generalize hj : field members name = json at hform
    cases hform with
    | text h => exact stringField_of_form hj h
    | flag h => exact boolField_of_form hj h
    | noRegex | regex | value => trivial
    | child h =>
      simp only [Grants, inner, hj]
      exact (hc h).within name
    | noItems =>
      simp only [Grants, nodes, hj]
      exact Outcome.Reads.pure.congr (by simp)
    | items h =>
      simp only [Grants, nodes, hj]
      exact .mapM ((forall₂_zipIdx h 0).imp fun _ _ h => (hc h).within _)
  cases node <;> dsimp only [typeName, location] <;>
    simp only [slots, List.forall_mem_cons, List.not_mem_nil, false_imp_iff, implies_true, and_true,
      Grants] at hslots
  case missing => exact regular.elim
  case program =>
    obtain ⟨htype, hbody⟩ := hslots
    exact .congr (.after htype (.bind hbody .pure)) (by simp [depth, deepest_le])
  case identifier => exact .congr (.after hslots .pure) (by simp [depth])
  case literal =>
    exact .congr (.after (literalSource_of_form regular hfield forms) .pure) (by simp [depth])
  case variableDeclaration =>
    obtain ⟨hkind, hdeclarations⟩ := hslots
    exact .congr (.after hkind (.bind hdeclarations
      (.after (requireDeclarators_eq_ok regular) .pure))) (by simp [depth, deepest_le])
  case functionDeclaration | functionExpression =>
    obtain ⟨hid, hparams, hbody⟩ := hslots
    exact .congr (.bind hid (.after (requireIdentifier_eq_ok regular.1) (.bind hparams (.bind hbody
      (.after (requireBlock_eq_ok regular.2) .pure))))) (by simp [depth, deepest_le])
  case arrowFunction =>
    obtain ⟨hparams, hbody, hexpression⟩ := hslots
    exact .congr (.bind hparams (.bind hbody (.after hexpression .pure)))
      (by simp [depth, deepest_le])
  case returnStatement | expressionStatement | chain | spread | restElement =>
    exact .congr (.bind hslots .pure) (by simp [depth])
  case blockStatement | object | array =>
    exact .congr (.bind hslots .pure) (by simp [depth, deepest_le])
  case emptyStatement => exact .congr .pure (by simp [depth])
  case assignment | binary | logical =>
    obtain ⟨hoperator, hleft, hright⟩ := hslots
    exact .congr (.after hoperator (.bind hleft (.bind hright .pure))) (by simp [depth])
  case call =>
    obtain ⟨hcallee, harguments, hoptional⟩ := hslots
    exact .congr (.bind hcallee (.bind harguments (.after hoptional .pure)))
      (by simp [depth, deepest_le])
  case member =>
    obtain ⟨hobject, hproperty, hcomputed, hoptional⟩ := hslots
    exact .congr (.bind hobject (.bind hproperty (.after hcomputed (.after hoptional .pure))))
      (by simp [depth])
  case property =>
    obtain ⟨hkey, hvalue, hkind, hcomputed, hmethod, hshorthand⟩ := hslots
    exact .congr (.bind hkey (.bind hvalue (.after hkind (.after hcomputed (.after hmethod
      (.after hshorthand .pure)))))) (by simp [depth])
  case unary | update =>
    obtain ⟨hoperator, hprefixed, hargument⟩ := hslots
    exact .congr (.after hoperator (.after hprefixed (.bind hargument .pure))) (by simp [depth])
  case conditional =>
    obtain ⟨htest, hconsequent, halternate⟩ := hslots
    exact .congr (.bind htest (.bind hconsequent (.bind halternate .pure))) (by simp [depth])
  case variableDeclarator | assignmentPattern =>
    obtain ⟨hfirst, hsecond⟩ := hslots
    exact .congr (.bind hfirst (.bind hsecond .pure)) (by simp [depth])
  case unknown =>
    split <;> first | exact absurd (by decide) regular.2 | exact .congr .pure (by simp [depth])

theorem items_depth_le {name : String} {nodes : List Node} :
    (∀ child ∈ children.items name nodes, child.2.depth ≤ room) ↔
      ∀ node ∈ nodes, node.depth ≤ room := by
  refine ⟨fun h node hn => ?_, forall_mem_items⟩
  obtain ⟨i, hi⟩ := List.mem_iff_getElem?.mp hn
  exact h _ (List.mem_map.mpr ⟨(node, i), List.mem_zipIdx_iff_getElem?.mpr hi, rfl⟩)

theorem depth_le_succ {node : Node} (hm : node ≠ .missing) :
    node.depth ≤ room + 1 ↔ ∀ child ∈ node.children, child.2.depth ≤ room := by
  cases node with
  | missing => exact absurd rfl hm
  | _ => simp [depth, children, deepest_le, or_imp, forall_and, items_depth_le, -Prod.forall]

theorem IsRegular.ne_missing {node : Node} (h : node.IsRegular) : node ≠ .missing := by
  rintro rfl
  exact h

theorem IsRegular.typeName_ne {node : Node} (h : node.IsRegular) : node.typeName ≠ "" := by
  cases node with
  | unknown loc type => exact h.1
  | _ => simp [typeName]

theorem depth_pos {node : Node} (hm : node ≠ .missing) : 0 < node.depth := by
  cases node with
  | missing => exact absurd rfl hm
  | _ => simp [depth]

/-- Room is used up by the nodes around a node, and by no others. -/
theorem reads_ofJson (room : Nat) {node : Node} {json : Json} (h : node.Form json) :
    (ofJson room json).Reads node (node.depth ≤ room) := by
  induction room generalizing node json with
  | zero =>
    cases h with
    | missing => exact Outcome.Reads.pure.congr (by simp [depth])
    | node said regular =>
      have hpos := depth_pos regular.ne_missing
      exact ⟨fun h => absurd h (Nat.not_le_of_gt hpos), fun _ => rfl⟩
  | succ room ih =>
    cases h with
    | missing => exact Outcome.Reads.pure.congr (by simp [depth])
    | node said regular type loc located stated forms =>
      refine .after (stringField_of_form type.field (.inl rfl)) ?_
      rw [if_neg (by simpa [String.isEmpty_iff] using regular.typeName_ne)]
      refine .within (.after (a := node.location) ?_ ?_) _
      · rw [loc.field, Outcome.within_eq_ok]
        exact Location.read_of_form located
      · exact reads_ofMembers ih regular (fun slot hs => (stated slot hs).field) forms

end Node

theorem Json.exists_brace {fuel room : Nat} {text rest : List Char}
    {members : List (String × Json)} (h : value fuel room text = some (.obj members, rest)) :
    ∃ tail, text = '\x7b' :: tail := by
  cases fuel with
  | zero => simp [value] at h
  | succ fuel =>
    unfold value at h
    split at h
    case h_6 => exact ⟨_, rfl⟩
    case h_5 =>
      cases room with
      | zero => cases h
      | succ room =>
        dsimp only at h
        split at h <;> simp at h
    all_goals simp at h

theorem Json.brace_mem_of_parse? {text : List Char} {members : List (String × Json)}
    (h : parse? text = some (.obj members)) : '\x7b' ∈ text := by
  unfold parse? at h
  split at h
  · rename_i json rest hvalue
    split at h
    · cases h
      obtain ⟨tail, htail⟩ := exists_brace hvalue
      have hmem : '\x7b' ∈ skipBlank text := htail ▸ List.mem_cons_self
      exact (List.dropWhile_sublist _).subset hmem
    · cases h
  · cases h

theorem mem_dropWhile {α : Type} {p : α → Bool} {l : List α} {a : α} (ha : a ∈ l)
    (hp : p a = false) : a ∈ l.dropWhile p := by
  rw [← l.takeWhile_append_dropWhile (p := p)] at ha
  rcases List.mem_append.mp ha with ha | ha
  · simp [List.mem_takeWhile_imp ha] at hp
  · exact ha

theorem Text.mem_trim {text : List Char} {c : Char} (hc : c ∈ text) (hb : isBlank c = false) :
    c ∈ trim text :=
  List.mem_reverse.mpr (mem_dropWhile (List.mem_reverse.mpr (mem_dropWhile hc hb)) hb)

namespace Node

theorem reads_parseProgram {text : String} {json : Json} {loc : Location} {sourceType : String}
    {body : List Node} (hjson : Json.parse? text.toList = some json)
    (hform : (Node.program loc sourceType body).Form json) :
    (parseProgram text).Reads (.program loc sourceType body)
      ((Node.program loc sourceType body).depth ≤ maxDepth) := by
  obtain ⟨members, rfl⟩ : ∃ members, json = .obj members := by
    cases hform
    exact ⟨_, rfl⟩
  -- the text of an object is neither blank nor the word `null`
  have hbrace := Text.mem_trim (Json.brace_mem_of_parse? hjson) (by decide)
  have hne : ¬ ((Text.trim text.toList).isEmpty ||
      Text.trim text.toList == ['n', 'u', 'l', 'l']) := by
    simp only [Bool.or_eq_true, List.isEmpty_iff, beq_iff_eq]
    rintro (h | h) <;> simp [h] at hbrace
  unfold parseProgram
  dsimp only
  rw [if_neg hne, hjson]
  exact .congr (.bind (reads_ofJson maxDepth hform) .pure) (by simp)

/-- Reading inverts writing: a text whose JSON value stands for a program is read as that
program, unless its nodes stand too deep inside each other, which is then the cause of the
failure. No text is read as a tree that is deeper. -/
theorem parseProgram_inverts :
    (∀ (text : String) (json : Json) (loc : Location) (sourceType : String) (body : List Node),
      Json.parse? text.toList = some json → (Node.program loc sourceType body).Form json →
      if (Node.program loc sourceType body).depth ≤ maxDepth then
        parseProgram text = .ok (.program loc sourceType body)
      else (parseProgram text).cause? = some .nestedTooDeep) ∧
    ∀ (text : String) (tree : Node), parseProgram text = .ok tree → tree.depth ≤ maxDepth := by
  refine ⟨fun text json loc sourceType body hjson hform => ?_, fun text => ?_⟩
  · have hreads := reads_parseProgram hjson hform
    split
    · exact hreads.1 ‹_›
    · exact hreads.2 ‹_›
  · refine yields_root (Nat.zero_le _) (yields_ofJson (P := fun room tree => tree.depth ≤ room)
      (fun _ => Nat.zero_le _) (fun room node _ _ hc => ?_) maxDepth) text
    by_cases hm : node = .missing
    · subst hm
      exact Nat.zero_le _
    · exact (depth_le_succ hm).mpr hc

theorem Form.of_fields {node : Node} {members : Members} (regular : node.IsRegular)
    (hnodup : (members.map (·.1)).Nodup) (htype : field members "type" = .str node.typeName)
    (located : node.location.Form (field members "loc"))
    (forms : ∀ slot ∈ node.slots, Slot.Form Form slot.2 (field members slot.1)) :
    node.Form (.obj members) :=
  .node (field members) regular (htype ▸ Json.says_field hnodup "type")
    (Json.says_field hnodup "loc") located (fun slot _ => Json.says_field hnodup slot.1) forms

/-- The program `x`, with a key of its own, a hole and a location that is said in part. -/
def nameAlone : String :=
  "\x7b\"type\":\"Program\",\"end\":1,\"body\":[\x7b\"type\":\"ExpressionStatement\"," ++
    "\"expression\":\x7b\"type\":\"Identifier\",\"name\":\"x\",\"loc\":\x7b\"start\":" ++
    "\x7b\"line\":1\x7d\x7d\x7d\x7d,null]\x7d"

def nameJson : Json :=
  .obj [("type", .str "Identifier"), ("name", .str "x"),
    ("loc", .obj [("start", .obj [("line", .num ⟨false, ⟨1, 0⟩, true⟩)])])]

def nameAloneJson : Json :=
  .obj [("type", .str "Program"), ("end", .num ⟨false, ⟨1, 0⟩, true⟩),
    ("body", .arr [.obj [("type", .str "ExpressionStatement"), ("expression", nameJson)], .null])]

def nameAloneTree : Node :=
  .program {} "" [.expressionStatement {} (.identifier { start := { line := 1 } } "x"), .missing]

theorem form_nameAlone : nameAloneTree.Form nameAloneJson := by
  have hblank : Position.Form {} .null := ⟨[], .inr ⟨rfl, rfl⟩, by simp [Json.Says, Json.IsInt]⟩
  have hnowhere : Location.Form {} .null := ⟨[], .inr ⟨rfl, rfl⟩, by simp [Json.Says, hblank]⟩
  have hstart : Position.Form { line := 1 } (.obj [("line", .num ⟨false, ⟨1, 0⟩, true⟩)]) := by
    refine ⟨_, .inl rfl, List.forall_mem_cons.mpr ⟨⟨_, .inl ⟨[], [], rfl, by simp⟩, ?_⟩,
      List.forall_mem_singleton.mpr ⟨_, .inr ⟨rfl, by decide⟩, .inr ⟨rfl, rfl⟩⟩⟩⟩
    exact .inl ⟨_, rfl, rfl⟩
  have hloc : Location.Form { start := { line := 1 } }
      (.obj [("start", .obj [("line", .num ⟨false, ⟨1, 0⟩, true⟩)])]) :=
    ⟨_, .inl rfl, List.forall_mem_cons.mpr ⟨⟨_, .inl ⟨[], [], rfl, by simp⟩, hstart⟩,
      List.forall_mem_singleton.mpr ⟨_, .inr ⟨rfl, by decide⟩, hblank⟩⟩⟩
  have hx : (Node.identifier { start := { line := 1 } } "x").Form nameJson :=
    .of_fields trivial (by decide) rfl hloc (List.forall_mem_singleton.mpr (.text (.inl rfl)))
  have hstatement : (Node.expressionStatement {} (.identifier { start := { line := 1 } } "x")).Form
      (.obj [("type", .str "ExpressionStatement"), ("expression", nameJson)]) :=
    .of_fields trivial (by decide) rfl hnowhere (List.forall_mem_singleton.mpr (.child hx))
  refine .of_fields trivial (by decide) rfl hnowhere (List.forall_mem_cons.mpr
    ⟨.text (.inr ⟨rfl, rfl⟩), List.forall_mem_singleton.mpr ?_⟩)
  exact .items (.cons hstatement (.cons .missing .nil))

theorem parseProgram_nameAlone : Json.parse? nameAlone.toList = some nameAloneJson ∧
    nameAloneTree.Form nameAloneJson ∧ parseProgram nameAlone = .ok nameAloneTree := by
  have hparse : Json.parse? nameAlone.toList = some nameAloneJson := by
    have hsame : (Json.parse? nameAlone.toList).any (Json.same · nameAloneJson) := by decide +kernel
    obtain ⟨value, hvalue, hsame⟩ := (Option.any_eq_true _ _).mp hsame
    rw [hvalue, Json.eq_of_same hsame]
  have hread := parseProgram_inverts.1 nameAlone _ {} "" _ hparse form_nameAlone
  rw [if_pos (by decide)] at hread
  exact ⟨hparse, form_nameAlone, hread⟩

end Node

end ScopeIR
