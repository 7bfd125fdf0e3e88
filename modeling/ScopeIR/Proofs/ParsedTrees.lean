import ScopeIR.Proofs.Documents
import ScopeIR.Proofs.Nearest
import ScopeIR.Proofs.Provenance
import ScopeIR.Syntax.Reader

/-! Trees that are read from a text. Their locations are integers of 64 bits and their numbers
are finite, so what lowering takes from them can be written. -/
namespace ScopeIR

theorem Binary64.isFinite_of_ofDecimal? {negative : Bool} {d : Decimal} {x : Binary64}
    (h : ofDecimal? negative d = some x) : x.isFinite := by
  have hfinite : ∀ bits, bits < infinityBits → (ofMagnitude negative bits).isFinite := by
    intro bits hb
    have hlt : bits < pow2 63 := Nat.lt_trans hb (by decide)
    rw [isFinite, magnitudeBits_ofMagnitude negative hlt]
    exact decide_eq_true hb
  unfold ofDecimal? at h
  dsimp only at h
  split at h
  · cases h
    exact hfinite 0 (by decide)
  split at h
  · cases h
  split at h
  · rename_i hb
    cases h
    exact hfinite _ hb
  · cases h

namespace Outcome

variable {α β : Type} {P : α → Prop} {Q : β → Prop}

def Yields (x : Outcome α) (P : α → Prop) : Prop := ∀ a, x = .ok a → P a

theorem Yields.bind {x : Outcome α} {f : α → Outcome β} (hx : x.Yields P)
    (hf : ∀ a, P a → (f a).Yields Q) : (x >>= f).Yields Q := by
  intro b h
  obtain ⟨a, ha, hb⟩ := bind_eq_ok.mp h
  exact hf a (hx a ha) b hb

theorem Yields.after {x : Outcome α} {f : α → Outcome β} (hf : ∀ a, (f a).Yields Q) :
    (x >>= f).Yields Q := by
  intro b h
  obtain ⟨a, -, hb⟩ := bind_eq_ok.mp h
  exact hf a b hb

theorem Yields.pure {a : α} (h : P a) : (pure a : Outcome α).Yields P := by
  rintro b ⟨⟩
  exact h

theorem Yields.failAt {context : List String} {cause : Cause} :
    (failAt context cause : Outcome α).Yields P := by
  rintro a ⟨⟩

theorem Yields.within {x : Outcome α} (hx : x.Yields P) (context : String) :
    (x.within context).Yields P := fun a h => hx a (within_eq_ok.mp h)

end Outcome

def Stock.portable : Stock where
  place loc := loc.isPortable
  number x := x.isFinite
  letter _ := True
  nowhere := by decide
  one := by decide
  visible _ _ := trivial

namespace Json

theorem of_readScalar {α : Type} {P : α → Prop} {blank value : α} {of? : Json → Option α}
    {history : History} (hblank : P blank) (hof : ∀ json value, of? json = some value → P value)
    (h : readScalar blank of? history = .ok value) : P value := by
  refine Outcome.foldlM_ok hblank (fun current json next hcurrent hstep => ?_) h
  split at hstep
  · cases hstep
    exact hcurrent
  · split at hstep
    · rename_i hread
      cases hstep
      exact hof _ _ hread
    · cases hstep

theorem yields_readInt (history : History) : (readInt history).Yields (isInt64 ·) := by
  refine fun i => of_readScalar (P := (isInt64 ·)) (by decide) fun json i hi => ?_
  split at hi
  · simp only [Numeral.int?, Option.ite_none_right_eq_some, Bool.and_eq_true,
      Option.some.injEq] at hi
    obtain ⟨⟨-, hfits⟩, rfl⟩ := hi
    exact hfits
  · cases hi

end Json

namespace Location

theorem yields_readPosition (history : Json.History) :
    (readPosition history).Yields fun p => isInt64 p.line ∧ isInt64 p.column :=
  .after fun _ => (Json.yields_readInt _).bind fun _ hline =>
    (Json.yields_readInt _).bind fun _ hcolumn => .pure ⟨hline, hcolumn⟩

theorem yields_read (history : Json.History) : (Location.read history).Yields (·.isPortable) := by
  refine .after fun _ => (yields_readPosition _).bind fun start hstart =>
    (yields_readPosition _).bind fun stop hstop => .pure ?_
  simp only [isPortable, Bool.and_eq_true]
  exact ⟨⟨hstart, hstop.1⟩, hstop.2⟩

end Location

namespace Node

theorem yields_literalValue (json : Json) :
    (literalSource.valueOf json).Yields fun value => ∀ x, value = .num x → x.isFinite := by
  rintro value h x rfl
  unfold literalSource.valueOf at h
  split at h
  any_goals cases h
  split at h
  · rename_i hx
    cases h
    exact Binary64.isFinite_of_ofDecimal? hx
  · cases h

theorem yields_literalSource (members : Members) :
    (literalSource members).Yields fun source => ∀ x, source.value = .num x → x.isFinite := by
  refine .after fun raw => .after fun bigint => ?_
  split
  · split
    · exact (yields_literalValue _).bind fun value hvalue => .pure hvalue
    · exact .pure (by simp)
  · exact .after fun regex => .pure (by simp)

theorem forall_mem_items {P : Node → Prop} {name : String} {nodes : List Node}
    (h : ∀ node ∈ nodes, P node) : ∀ child ∈ children.items name nodes, P child.2 := by
  intro child hm
  obtain ⟨item, hitem, rfl⟩ := List.mem_map.mp hm
  exact h _ (List.fst_mem_of_mem_zipIdx hitem)

theorem forall_mem_items_body {P : Node → Prop} {params : List Node} {body : Node}
    (hparams : ∀ node ∈ params, P node) (hbody : P body) :
    ∀ child ∈ children.items "params" params ++ [("body", body)], P child.2 :=
  List.forall_mem_append.mpr ⟨forall_mem_items hparams, List.forall_mem_singleton.mpr hbody⟩

def SaysFinite (node : Node) : Prop :=
  ∀ loc source x, node = .literal loc source → source.value = .num x → x.isFinite

/-- Reading keeps what passes from the children of a node to the node. The cases are those of
the node types; each reads its children in turn. -/
theorem yields_ofMembers {P Q : Node → Prop} {child : Json → Outcome Node} {loc : Location}
    (hc : ∀ json, (child json).Yields P)
    (hq : ∀ node : Node, node.location = loc → node.SaysFinite →
      (∀ child ∈ node.children, P child.2) → Q node) (type : String) (members : Members) :
    (ofMembers child type loc members).Yields Q := by
  unfold ofMembers
  extract_lets string bool node nodes
  have hnode : ∀ name, (node name).Yields P := fun name => (hc _).within name
  have hnodes : ∀ name, (nodes name).Yields (∀ n ∈ ·, P n) := by
    intro name ns hns
    simp only [nodes] at hns
    split at hns
    · cases hns
      exact List.forall_mem_nil _
    · intro n hn
      obtain ⟨item, -, hitem⟩ := exists_of_forall₂_of_mem (Outcome.mapM_eq_ok.mp hns) hn
      exact (hc _).within _ n hitem
    · cases hns
  -- only the node of a literal says a number
  have hplain : ∀ node : Node, node.location = loc → (∀ loc source, node ≠ .literal loc source) →
      (∀ child ∈ node.children, P child.2) → (pure node : Outcome Node).Yields Q :=
    fun node hl plain hc =>
      .pure (hq node hl (fun loc source _ h => absurd h (plain loc source)) hc)
  split
  · exact .after fun sourceType => (hnodes _).bind fun body hbody =>
      hplain _ rfl (by simp) (forall_mem_items hbody)
  · exact .after fun name => hplain _ rfl (by simp) (List.forall_mem_nil _)
  · exact (yields_literalSource members).bind fun source hsource =>
      .pure (hq _ rfl (by rintro _ _ x ⟨⟩ hx; exact hsource x hx) (List.forall_mem_nil _))
  · exact .after fun kind => (hnodes _).bind fun declarations hdeclarations => .after fun _ =>
      hplain _ rfl (by simp) (forall_mem_items hdeclarations)
  · exact (hnode _).bind fun id hid => (hnode _).bind fun init hinit =>
      hplain _ rfl (by simp) (by simp [children, hid, hinit])
  · exact (hnode _).bind fun id hid => .after fun _ => (hnodes _).bind fun params hparams =>
      (hnode _).bind fun body hbody => .after fun _ =>
      hplain _ rfl (by simp) (List.forall_mem_cons.mpr ⟨hid, forall_mem_items_body hparams hbody⟩)
  · exact (hnode _).bind fun id hid => .after fun _ => (hnodes _).bind fun params hparams =>
      (hnode _).bind fun body hbody => .after fun _ =>
      hplain _ rfl (by simp) (List.forall_mem_cons.mpr ⟨hid, forall_mem_items_body hparams hbody⟩)
  · exact (hnodes _).bind fun params hparams => (hnode _).bind fun body hbody => .after fun _ =>
      hplain _ rfl (by simp) (forall_mem_items_body hparams hbody)
  · exact (hnode _).bind fun argument h =>
      hplain _ rfl (by simp) (by simp [children, h])
  · exact (hnode _).bind fun expression h =>
      hplain _ rfl (by simp) (by simp [children, h])
  · exact (hnodes _).bind fun body hbody => hplain _ rfl (by simp) (forall_mem_items hbody)
  · exact hplain _ rfl (by simp) (List.forall_mem_nil _)
  · exact .after fun operator => (hnode _).bind fun left hleft => (hnode _).bind fun right hright =>
      hplain _ rfl (by simp) (by simp [children, hleft, hright])
  · exact (hnode _).bind fun callee hcallee => (hnodes _).bind fun arguments harguments =>
      .after fun _ =>
      hplain _ rfl (by simp) (List.forall_mem_cons.mpr ⟨hcallee, forall_mem_items harguments⟩)
  · exact (hnode _).bind fun object hobject => (hnode _).bind fun property hproperty =>
      .after fun _ => .after fun _ =>
      hplain _ rfl (by simp) (by simp [children, hobject, hproperty])
  · exact (hnode _).bind fun expression h =>
      hplain _ rfl (by simp) (by simp [children, h])
  · exact (hnodes _).bind fun properties hproperties =>
      hplain _ rfl (by simp) (forall_mem_items hproperties)
  · exact (hnode _).bind fun key hkey => (hnode _).bind fun value hvalue => .after fun kind =>
      .after fun _ => .after fun _ => .after fun _ =>
      hplain _ rfl (by simp) (by simp [children, hkey, hvalue])
  · exact (hnodes _).bind fun elements helements =>
      hplain _ rfl (by simp) (forall_mem_items helements)
  · exact (hnode _).bind fun argument h =>
      hplain _ rfl (by simp) (by simp [children, h])
  · exact .after fun operator => .after fun _ => (hnode _).bind fun argument h =>
      hplain _ rfl (by simp) (by simp [children, h])
  · exact .after fun operator => .after fun _ => (hnode _).bind fun argument h =>
      hplain _ rfl (by simp) (by simp [children, h])
  · exact .after fun operator => (hnode _).bind fun left hleft => (hnode _).bind fun right hright =>
      hplain _ rfl (by simp) (by simp [children, hleft, hright])
  · exact .after fun operator => (hnode _).bind fun left hleft => (hnode _).bind fun right hright =>
      hplain _ rfl (by simp) (by simp [children, hleft, hright])
  · exact (hnode _).bind fun test htest => (hnode _).bind fun consequent hconsequent =>
      (hnode _).bind fun alternate halternate =>
      hplain _ rfl (by simp) (by simp [children, htest, hconsequent, halternate])
  · exact (hnode _).bind fun left hleft => (hnode _).bind fun right hright =>
      hplain _ rfl (by simp) (by simp [children, hleft, hright])
  · exact (hnode _).bind fun argument h =>
      hplain _ rfl (by simp) (by simp [children, h])
  · exact hplain _ rfl (by simp) (List.forall_mem_nil _)

/-- What is read holds of the missing node and passes from children to nodes, where the room
for nodes inside each other grows by one. -/
theorem yields_ofJson {P : Nat → Node → Prop} (hm : ∀ room, P room .missing)
    (hq : ∀ room (node : Node), node.location.isPortable → node.SaysFinite →
      (∀ child ∈ node.children, P room child.2) → P (room + 1) node) (room : Nat) (json : Json) :
    (ofJson room json).Yields (P room) := by
  induction room generalizing json with
  | zero =>
    cases json with
    | null => exact .pure (hm 0)
    | _ => exact .failAt
  | succ room ih =>
    cases json with
    | null => exact .pure (hm (room + 1))
    | obj members =>
      refine .after fun type => ?_
      split
      · exact .failAt
      · refine .within (.bind ((Location.yields_read _).within _) fun loc hloc => ?_) type
        exact yields_ofMembers ih (fun node hl => hq room node (hl ▸ hloc)) type members
    | _ => exact .failAt

theorem yields_root {P : Node → Prop} (hm : P .missing)
    (hj : ∀ json, (ofJson maxDepth json).Yields P) (text : String) :
    (parseProgram text).Yields P := by
  unfold parseProgram
  extract_lets chars trimmed finish
  have hfinish : ∀ root, P root → (finish root).Yields P := by
    intro root hroot
    simp only [finish]
    split
    · exact .pure hroot
    · exact .failAt
  split
  · exact .bind (.pure hm) hfinish
  · split
    · exact (hj _).bind hfinish
    · exact .bind .failAt hfinish

theorem yields_parseProgram (text : String) : (parseProgram text).Yields (Offers .portable) := by
  have hm : Node.missing.Offers .portable :=
    .intro Stock.portable.nowhere (by simp) (List.forall_mem_nil _) (List.forall_mem_nil _)
  refine yields_root hm (yields_ofJson (fun _ => hm) (fun _ node hl hfinite hc => ?_) maxDepth) text
  exact .intro hl hfinite (fun _ _ _ _ => trivial) hc

end Node

end ScopeIR
