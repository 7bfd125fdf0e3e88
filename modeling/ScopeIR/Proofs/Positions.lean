import Mathlib.Logic.Relation
import ScopeIR.Proofs.Edits
import ScopeIR.Proofs.Provenance

/-! Positions and the name of the file are annotations. The lowering copies them into its output
and decides nothing by them, so that programs which differ in them alone give functions which
differ in them alone. -/
namespace ScopeIR

variable {node node' : Node}

/-- Locations are erased, and functions go by their names. Primitives are signed with their
names anyway. -/
def Marking.bare : Marking where
  place _ := {}
  file _ := ""
  definition d := { d with signature := d.name }

def Function.bare (f : Function) : Function := { relabel .bare f with file := f.name }

def Node.bare (node : Node) : Node := node.relocate fun _ => {}

def Outcome.bare : Outcome (List Function) → Except Cause (List Function)
  | .ok functions => .ok (functions.map Function.bare)
  | .error failure => .error failure.cause

def Relabelling.unplaced : Relabelling where
  place _ := {}
  file _ := ""
  definition d :=
    if d.name = d.signature then d
    else { d with signature := (FunctionDefinition.user d.name "").signature }
  nowhere := rfl
  name d := by split <;> rfl
  primitive _ h := if_pos h
  user name source := if_neg (FunctionDefinition.name_user_ne name source)

theorem Marking.bare_after_unplaced : bare.after Relabelling.unplaced.toMarking = bare := by
  have hdefinition : ∀ d, bare.definition (Relabelling.unplaced.definition d) =
      bare.definition d := by
    intro d
    show bare.definition (if _ then _ else _) = _
    split <;> rfl
  exact congrArg (Marking.mk _ _) (funext hdefinition)

theorem Function.bare_relabel (f : Function) : (relabel Relabelling.unplaced f).bare = f.bare := by
  have hname : (relabel Relabelling.unplaced f).name = f.name :=
    Relabelling.unplaced.name f.definition
  unfold bare
  rw [hname, relabel_relabel, Marking.bare_after_unplaced]

/-- A program is lowered as it is without annotations. -/
theorem bare_lower (file : String) (hosts : List String) (node : Node) :
    (lower file hosts node).1.bare = (lower "" hosts node.bare).1.bare := by
  obtain ⟨functions, hx, hy⟩ | ⟨failure, failure', hx, hy, halike⟩ :=
    lower_relocate .unplaced silent_padding (.refl padding node) file hosts
  · have hbare : (relabel Relabelling.unplaced functions).map Function.bare =
        functions.map Function.bare := by
      show (functions.map _).map _ = _
      rw [List.map_map]
      exact List.map_congr_left fun f _ => f.bare_relabel
    rw [hx, show (lower "" hosts node.bare).1 = _ from hy]
    exact congrArg Except.ok hbare.symm
  · rw [hx, show (lower "" hosts node.bare).1 = _ from hy]
    exact congrArg Except.error halike.1.symm

/-- The second node is the first one or stands somewhere in it. -/
def Node.Contains : Node → Node → Prop := Relation.ReflTransGen Node.Holds

namespace Node

def Locates (node : Node) (loc : Location) : Prop :=
  loc = {} ∨ ∃ inner, node.Contains inner ∧ inner.location = loc

def places (node : Node) : Stock where
  place := node.Locates
  number _ := True
  letter _ := True
  nowhere := .inl rfl
  one := trivial
  visible _ _ := trivial

/-- Nodes of a tree offer its locations; children are smaller than the nodes that hold them. -/
theorem Contains.offers {root node : Node} (h : root.Contains node) : node.Offers root.places :=
  .intro (.inr ⟨node, h, rfl⟩) (fun _ _ _ _ _ => trivial) (fun _ _ _ _ => trivial)
    fun child hchild => Contains.offers (h.tail ⟨child.1, hchild⟩)
termination_by sizeOf node
decreasing_by exact Holds.sizeOf_lt ⟨child.1, hchild⟩

end Node

/-- Positions and the file are annotations. Programs that differ in their locations alone are
lowered to the same functions without annotations, whatever their files are called, or fail for
the same reason; and code is located at a node of its program, or nowhere. -/
theorem lower_eq_up_to_annotations (file file' : String) (hosts : List String)
    (h : node.bare = node'.bare) :
    (lower file hosts node).1.bare = (lower file' hosts node').1.bare ∧
      ∀ functions, (lower file hosts node).1 = .ok functions →
        ∀ f ∈ functions, ∀ x ∈ f.code, node.Locates x.location := by
  constructor
  · rw [bare_lower file hosts node, bare_lower file' hosts node', h]
  · intro functions hf f hm x hx
    have hoffers : node.Offers node.places := Node.Contains.offers .refl
    exact (lower_from hf hoffers f hm x hx).place

/-- `function f(a) { return g(a); }`, at two places. -/
def passesOn (outside inside : Location) : Node :=
  let call := Node.call inside (.identifier inside "g") [.identifier inside "a"] false
  .program outside "script" [.functionDeclaration outside (.identifier outside "f")
    [.identifier outside "a"] (.blockStatement outside [.returnStatement inside call])]

theorem lower_passesOn_elsewhere : ∃ functions functions',
    (lower "a.js" [] (passesOn ⟨⟨1, 0⟩, ⟨1, 32⟩⟩ ⟨⟨1, 16⟩, ⟨1, 30⟩⟩)).1 = .ok functions ∧
      (lower "b.js" [] (passesOn ⟨⟨1, 0⟩, ⟨3, 1⟩⟩ ⟨⟨2, 2⟩, ⟨2, 16⟩⟩)).1 = .ok functions' ∧
      functions.map (·.definition.signature) = ["a.js.f", "a.js.main"] ∧
      functions'.map (·.definition.signature) = ["b.js.f", "b.js.main"] ∧
      functions.map Function.bare = functions'.map Function.bare ∧
      ∀ f ∈ functions, ∀ x ∈ f.code,
        (passesOn ⟨⟨1, 0⟩, ⟨1, 32⟩⟩ ⟨⟨1, 16⟩, ⟨1, 30⟩⟩).Locates x.location := by
  obtain ⟨functions, hx, hsigned⟩ := Outcome.exists_ok
    (x := (lower "a.js" [] (passesOn ⟨⟨1, 0⟩, ⟨1, 32⟩⟩ ⟨⟨1, 16⟩, ⟨1, 30⟩⟩)).1)
    (f := List.map (·.definition.signature)) (b := ["a.js.f", "a.js.main"]) (by decide +kernel)
  obtain ⟨functions', hy, hsigned'⟩ := Outcome.exists_ok
    (x := (lower "b.js" [] (passesOn ⟨⟨1, 0⟩, ⟨3, 1⟩⟩ ⟨⟨2, 2⟩, ⟨2, 16⟩⟩)).1)
    (f := List.map (·.definition.signature)) (b := ["b.js.f", "b.js.main"]) (by decide +kernel)
  have hsame : (passesOn ⟨⟨1, 0⟩, ⟨1, 32⟩⟩ ⟨⟨1, 16⟩, ⟨1, 30⟩⟩).bare =
      (passesOn ⟨⟨1, 0⟩, ⟨3, 1⟩⟩ ⟨⟨2, 2⟩, ⟨2, 16⟩⟩).bare := rfl
  obtain ⟨hbare, hplaces⟩ := lower_eq_up_to_annotations "a.js" "b.js" [] hsame
  rw [hx, hy] at hbare
  exact ⟨functions, functions', hx, hy, hsigned, hsigned', Except.ok.inj hbare, hplaces _ hx⟩

end ScopeIR
