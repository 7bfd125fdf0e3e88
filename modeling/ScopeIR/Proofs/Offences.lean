import ScopeIR.Proofs.Lowering

/-! What lowering refuses, read off the tree alone: the offences of a tree in the order in which
they are met. -/
namespace ScopeIR

/-- A node that lacks what it needs, or a property value that stands for code which is not
there. -/
inductive Offence where
  | malformed
  | placeholder
deriving DecidableEq, Repr

def Offence.cause : Offence → Cause
  | .malformed => .malformedTree
  | .placeholder => .unsupportedConstruct

def LiteralSource.offences (source : LiteralSource) : List Offence :=
  if source.regex.isSome then []
  else if source.bigint.isEmpty then
    match source.value with
    | .null | .str _ | .num _ | .bool _ => []
    | _ => [.malformed]
  else if (signedInt? source.bigint).isSome then [] else [.malformed]

namespace Node

mutual

/-- Identifiers are in order, and so are nodes of a type that is passed over, with all that is
in them. -/
def offences : Node → List Offence
  | .missing => [.malformed]
  | .literal _ source => source.offences
  | .assignment _ operator left right =>
    if left.isMissing || right.isMissing then [.malformed]
    else right.offences ++
      if left.isMember || !(Lower.compoundPart operator).isEmpty then left.offences else []
  | .call _ callee arguments _ =>
    if callee.isMissing then [.malformed] else argumentOffences arguments ++ callee.offences
  | .member _ obj prop computed _ =>
    if obj.isMissing || prop.isMissing then [.malformed]
    else obj.offences ++ if (prop.staticName? computed).isSome then [] else prop.offences
  | .chain _ inner => inner.offences
  | .object _ properties => memberOffences properties
  | .array _ elements => elementOffences elements
  | .functionExpression _ _ _ (.blockStatement _ body) => bodyOffences body
  | .functionExpression .. => [.malformed]
  | .arrowFunction _ _ (.blockStatement _ body) _ => bodyOffences body
  | .arrowFunction _ _ body _ => body.offences
  | .unary _ _ _ argument => argument.offences
  | .binary _ _ left right | .logical _ _ left right => left.offences ++ right.offences
  | .conditional _ test consequent alternate =>
    test.offences ++ (consequent.offences ++ alternate.offences)
  | .update _ operator _ argument =>
    if argument.isMissing || operator.utf8ByteSize != 2 then [.malformed] else argument.offences
  | _ => []

def argumentOffences : List Node → List Offence
  | [] => []
  | node :: rest => node.offences ++ argumentOffences rest

def elementOffences : List Node → List Offence
  | [] => []
  | .missing :: rest => elementOffences rest
  | node :: rest => node.offences ++ elementOffences rest

def memberOffences : List Node → List Offence
  | [] => []
  | .property _ key value _ computed _ _ :: rest =>
    if key.isMissing || value.isMissing then [.malformed]
    else if value.isPlaceholder then [.placeholder]
    else (if (key.staticName? computed).isSome then [] else key.offences) ++ value.offences ++
      memberOffences rest
  | _ :: rest => memberOffences rest

def statementOffences : Node → List Offence
  | .variableDeclaration _ _ declarations => declaratorOffences declarations
  | .functionDeclaration _ (.identifier ..) _ (.blockStatement _ body) => bodyOffences body
  | .functionDeclaration .. => [.malformed]
  | .returnStatement _ .missing => []
  | .returnStatement _ argument => argument.offences
  | .expressionStatement _ inner => inner.offences
  | .blockStatement _ body => bodyOffences body
  | .missing => [.malformed]
  | _ => []

def bodyOffences : List Node → List Offence
  | [] => []
  | node :: rest => node.statementOffences ++ bodyOffences rest

def declaratorOffences : List Node → List Offence
  | [] => []
  | .variableDeclarator _ id init :: rest =>
    if id.isMissing then [.malformed]
    else (if init.isMissing then [] else init.offences) ++ declaratorOffences rest
  | _ :: _ => [.malformed]

end

@[simp] theorem offences_missing : Node.missing.offences = [.malformed] := by rw [offences]

@[simp] theorem offences_identifier (loc : Location) (name : String) :
    (Node.identifier loc name).offences = [] := by simp only [offences]

@[simp] theorem argumentOffences_nil : argumentOffences [] = [] := by rw [argumentOffences]

@[simp] theorem elementOffences_nil : elementOffences [] = [] := by rw [elementOffences]

@[simp] theorem memberOffences_nil : memberOffences [] = [] := by rw [memberOffences]

@[simp] theorem statementOffences_missing : Node.missing.statementOffences = [.malformed] := by
  rw [statementOffences]

@[simp] theorem bodyOffences_nil : bodyOffences [] = [] := by rw [bodyOffences]

@[simp] theorem declaratorOffences_nil : declaratorOffences [] = [] := by rw [declaratorOffences]

def programOffences : Node → List Offence
  | .program _ _ body => bodyOffences body
  | _ => [.malformed]

end Node

def causeOf {α : Type} : EStateM.Result Failure Compilation α → Option Cause
  | .ok _ _ => none
  | .error failure _ => some failure.cause

/-- The step succeeds if there are no offences, and fails because of the first one otherwise. -/
def Answers {α : Type} (step : Lower α) (s : Compilation) (os : List Offence) : Prop :=
  causeOf (step s) = os.head?.map Offence.cause

variable {α β : Type} {s s' : Compilation} {os more : List Offence}

theorem answers_nil {step : Lower α} : Answers step s [] ↔ ∃ a s', step s = .ok a s' := by
  unfold Answers
  cases step s <;> simp [causeOf]

namespace Answers

protected theorem bind {x : Lower α} {f : α → Lower β} (hx : Answers x s os)
    (hf : ∀ a s', x s = .ok a s' → Answers (f a) s' more) : Answers (x >>= f) s (os ++ more) := by
  unfold Answers at hx ⊢
  show causeOf (EStateM.bind x f s) = _
  unfold EStateM.bind
  cases h : x s with
  | ok a s' =>
    rw [h] at hx
    cases os with
    | nil => exact hf a s' h
    | cons o rest => cases hx
  | error failure s' =>
    rw [h] at hx
    cases os with
    | nil => cases hx
    | cons o rest => exact hx

theorem andThen {x : Lower α} {f : α → Lower β} {a : α} (hx : x s = .ok a s')
    (hf : Answers (f a) s' os) : Answers (x >>= f) s os := by
  unfold Answers
  rwa [Lower.bind_of_ok hx]

theorem before {x : Lower α} {f : α → Lower β} (hx : Answers x s [])
    (hf : ∀ a s', x s = .ok a s' → Answers (f a) s' os) : Answers (x >>= f) s os :=
  hx.bind hf

theorem closing {x : Lower α} {f : α → Lower β} (hx : Answers x s os)
    (hf : ∀ a s', x s = .ok a s' → Answers (f a) s' []) : Answers (x >>= f) s os :=
  List.append_nil os ▸ hx.bind hf

protected theorem pure {a : α} : Answers (pure a) s [] := rfl

theorem require {o : Option α} {a : α} (h : o = some a) : Answers (Lower.require o) s [] := by
  rw [h]
  rfl

theorem fail (o : Offence) {context : List String} :
    Answers (Lower.fail context o.cause : Lower α) s (o :: os) := rfl

theorem within {x : Lower α} {context : String} (hx : Answers x s os) :
    Answers (x.within context) s os := by
  unfold Answers at hx ⊢
  unfold Lower.within
  cases h : x s with
  | ok a s' => rwa [h] at hx
  | error failure s' =>
    rw [h] at hx
    have hcause : (failure.within context).cause = failure.cause := by
      unfold Failure.within
      split <;> rfl
    rw [← hx, causeOf, causeOf, hcause]

theorem map {x : Lower α} {f : α → β} (hx : Answers x s os) : Answers (f <$> x) s os := by
  rw [map_eq_pure_bind]
  exact hx.closing fun _ _ _ => .pure

theorem guarded {c : Prop} [Decidable c] (o : Offence) {context : List String}
    {rest : Lower α} (h : ¬ c → Answers rest s os) :
    Answers (if c then Lower.fail context o.cause >>= fun _ : PUnit => rest else rest) s
      (if c then [o] else os) := by
  split
  · rfl
  · exact h ‹_›

end Answers

def Total (step : Lower α) : Prop := ∀ s, Answers step s []

namespace Total

protected theorem bind {x : Lower α} {f : α → Lower β} (hx : Total x) (hf : ∀ a, Total (f a)) :
    Total (x >>= f) :=
  fun s => (hx s).bind fun a s' _ => hf a s'

protected theorem pure {a : α} : Total (pure a) := fun _ => rfl

protected theorem get : Total get := fun _ => rfl

protected theorem modify {f : Compilation → Compilation} : Total (modify f) := fun _ => rfl

protected theorem modifyGet {f : Compilation → α × Compilation} : Total (modifyGet f) :=
  fun _ => rfl

end Total

namespace Lower

theorem total_report (event : Event) : Total (report event) := .modify

theorem total_enter (task : Task) : Total (enter task) := .modify

theorem total_functionName : Total functionName := Total.get.bind fun _ => .pure

theorem total_passOver (position : Unsupported) (type : String) (loc : Location) :
    Total (passOver position type loc) := total_functionName.bind fun _ => total_report _

theorem total_fresh : Total fresh := .modifyGet

theorem total_scopeOf? (value : Value) : Total (scopeOf? value) := Total.get.bind fun _ => .pure

theorem total_assign (id : Id) (name : String) (value : Value) : Total (assign id name value) :=
  .modify

theorem total_popScope : Total popScope := by
  refine Total.get.bind fun s => ?_
  split
  · exact Total.modify.bind fun _ => Total.get.bind fun _ => total_report _
  · exact .pure

theorem total_isLexical (ref : Value) : Total (isLexical ref) :=
  (total_scopeOf? ref).bind fun _ => Total.get.bind fun _ => .pure

theorem total_chain (loc : Location) (links : Nat) (object : Value) :
    Total (chain loc links object) := by
  induction links generalizing object with
  | zero => exact .pure
  | succ links ih => exact total_fresh.bind fun _ => (ih _).bind fun _ => .pure

theorem total_read (code : List Instruction) (owner : Option Scope) (name : String)
    (object : Value) (loc : Location) : Total (read code owner name object loc) :=
  total_fresh.bind fun _ => .pure

theorem total_declareField (name : String) (value object : Value) (loc : Location) :
    Total (declareField name value object loc) := by
  refine (total_scopeOf? object).bind fun scope => ?_
  cases scope with
  | some scope => exact (total_assign _ _ _).bind fun _ => total_fresh.bind fun _ => .pure
  | none => exact total_fresh.bind fun _ => .pure

theorem total_knownArgument (node : Node) (ref : Value) : Total (knownArgument node ref) := by
  unfold knownArgument
  split
  · refine Total.get.bind fun s => (total_isLexical ref).bind fun lexical => ?_
    split
    · split
      · exact .pure
      · split <;> exact .pure
    · split <;> exact .pure
  · exact .pure

theorem total_constant (kind : TypeKind) (literal : Literal) (loc : Location) :
    Total (constant kind literal loc) := by
  refine Total.modifyGet.bind fun c => Total.modifyGet.bind fun created => ?_
  dsimp only
  split
  · exact (total_report _).bind fun _ => .pure
  · exact .pure

theorem total_load (place : Place) : Total (load place) := by
  unfold load
  split
  · exact (total_scopeOf? _).bind fun _ => total_read _ _ _ _ _
  · exact total_fresh.bind fun _ => .pure

theorem total_store (place : Place) (value : Value) : Total (store place value) := by
  unfold store
  split
  · exact total_declareField _ _ _ _
  · exact total_fresh.bind fun _ => .pure

theorem total_declareTarget (target : Node) (value ref : Value) :
    Total (declareTarget target value ref) := by
  unfold declareTarget
  split
  · exact total_declareField _ _ _ _
  · exact (total_passOver _ _ _).bind fun _ => .pure

theorem total_modifyPlace (place : Place) {combine : Value → Lower Lowered}
    (h : ∀ old, Total (combine old)) : Total (modifyPlace place combine) :=
  (total_load place).bind fun _ => (h _).bind fun _ => (total_store _ _).bind fun _ => .pure

theorem total_compoundStep (loc : Location) (operator : String) (right old : Value) :
    Total (compoundStep loc operator right old) := total_fresh.bind fun _ => .pure

theorem total_updateStep (loc : Location) (operator : String) (old : Value) :
    Total (updateStep loc operator old) :=
  (total_constant _ _ _).bind fun _ => total_fresh.bind fun _ => .pure

end Lower

end ScopeIR
