import ScopeIR.Proofs.Stock

/-! Where locations, numbers and names of the output come from. Lowering makes none up: the code
is located where nodes of the tree are, its numbers are those of literals, or one for an update,
and its names are spelled with the letters of words of the tree, and with letters that can be
seen. -/
namespace ScopeIR

variable {k : Stock} {code : List Instruction} {loc : Location}

namespace Lower

theorem keeps_addClosure (id : Id) (link : FunctionLink) :
    Keeps k (addClosure id link) fun _ => True :=
  keeps_modifyFrame fun _ hf => ⟨hf.name, hf.parameters, hf.blocks⟩

theorem keeps_parameters {params : List Node} (hp : ∀ node ∈ params, node.Offers k) :
    Keeps k (parameters params) fun ps => ∀ p ∈ ps, k.place p.location ∧ k.Spells p.name := by
  induction params with
  | nil => exact .pure (List.forall_mem_nil _)
  | cons node rest ih =>
    obtain ⟨hnode, hp⟩ := List.forall_mem_cons.mp hp
    refine keeps_fresh.bind fun id _ => (ih hp).bind fun ps hps =>
      .pure (List.forall_mem_cons.mpr ⟨⟨hnode.location, ?_⟩, hps⟩)
    cases node with
    | identifier loc name => exact hnode.name
    | _ => exact List.forall_mem_nil _

theorem keeps_bindParameters (scope : Id) {ps : List Parameter}
    (hp : ∀ p ∈ ps, k.place p.location ∧ k.Spells p.name) :
    Keeps k (bindParameters scope ps) fun _ => True := by
  induction ps with
  | nil => exact .pure trivial
  | cons p rest ih =>
    obtain ⟨⟨hplace, hname⟩, hp⟩ := List.forall_mem_cons.mp hp
    rw [bindParameters]
    dsimp only
    split
    · refine (keeps_assign scope p.name (Value.from_ref p.id)).bind fun _ _ =>
        keeps_fresh.bind fun id _ => (keeps_append (.singleton ?_)).bind fun _ _ => ih hp
      refine from_apply hplace hname.setField ?_
      simpa using ⟨Value.from_ofScope scope, Value.from_ref p.id⟩
    · exact ih hp

theorem keeps_enterFunction {definition : FunctionDefinition} (hd : k.Spells definition.name)
    {params : List Node} {before : List Block} (hp : ∀ node ∈ params, node.Offers k)
    (hl : k.place loc) (hb : ∀ block ∈ before, CodeFrom k block.instructions) :
    Keeps k (enterFunction definition params loc before) fun r =>
      ∀ p ∈ r.2, k.place p.location ∧ k.Spells p.name := by
  have hparent : k.Spells parentName := Stock.spells_visible (by decide)
  refine keeps_fresh.bind fun parent _ => (keeps_parameters hp).bind fun declared hp =>
    (keeps_createScope _).bind fun scope _ => .bind (P := fun _ => True)
      (keeps_modifyFrame fun _ _ => ⟨hd, ?_, hb⟩) fun _ _ => ?_
  · exact List.forall_mem_cons.mpr ⟨hparent, fun p hm => (hp p hm).2⟩
  have hrest : Keeps k (startBlock scope loc >>= fun _ => pushScope scope .function >>= fun _ =>
      append [.scope loc scope] >>= fun _ => fresh >>= fun id =>
      append [.apply loc id (.setField parentName) [.ofScope scope, .ref parent]] >>= fun _ =>
      pure (scope, declared)) fun r => ∀ p ∈ r.2, k.place p.location ∧ k.Spells p.name := by
    refine (keeps_startBlock scope loc).bind fun _ _ => (keeps_pushScope _ _).bind fun _ _ =>
      (keeps_append (.singleton (from_scope hl))).bind fun _ _ =>
      keeps_fresh.bind fun id _ => (keeps_append (.singleton ?_)).bind fun _ _ => .pure hp
    exact from_apply hl hparent.setField
      (by simpa using ⟨Value.from_ofScope scope, Value.from_ref parent⟩)
  dsimp only
  split
  · exact (keeps_branchToNext hl).bind fun _ _ => hrest
  · exact hrest

theorem keeps_finishFunction (hl : k.place loc) {outer : Frame} (ho : outer.From k) :
    Keeps k (finishFunction loc outer) fun _ => True := by
  have hrest : Keeps k (do
      let position := (← get).functions.length
      modify fun s =>
        let finished : Function := {
          file := s.file
          definition := s.frame.definition
          parameters := s.frame.parameters
          blocks := s.frame.blocks.reverse
          closures := s.frame.closures }
        { s with functions := s.functions ++ [finished], frame := outer }
      return position : Lower Nat) fun _ => True := by
    refine Keeps.get.bind fun _ _ => .bind (.modify fun s hs => ⟨ho, ?_, hs.scopes, hs.entries⟩)
      fun _ _ => .pure trivial
    refine List.forall_mem_append.mpr ⟨hs.functions, List.forall_mem_singleton.mpr ?_⟩
    refine ⟨fun x hx => ?_, hs.frame.name, hs.frame.parameters⟩
    obtain ⟨block, hb, hx⟩ := List.mem_flatMap.mp hx
    exact hs.frame.blocks block (List.mem_reverse.mp hb) x hx
  refine keeps_currentBlock.bind fun last _ => ?_
  dsimp only
  split
  · exact (keeps_append (.singleton (from_ret hl Value.from_null))).bind fun _ _ => hrest
  · exact hrest

theorem keeps_function {name : String} (hn : k.Spells name) {params : List Node} (statements : Nat)
    {before : List Block} {body : Lower Unit} (hp : ∀ node ∈ params, node.Offers k)
    (hl : k.place loc) (hb : ∀ block ∈ before, CodeFrom k block.instructions)
    (hbody : Keeps k body fun _ => True) :
    Keeps k (function name params statements loc before body) fun link =>
      k.Spells link.definition.shownName := by
  refine (keeps_report _).bind fun _ _ => Keeps.get.bind fun s hs => Keeps.get.bind fun _ _ => ?_
  exact (keeps_enterFunction hn hp hl hb).bind fun r hr =>
    (keeps_bindParameters r.1 hr).bind fun _ _ => hbody.within.bind fun _ _ =>
    (keeps_finishFunction hl hs.frame).bind fun _ _ => keeps_leaveScope.bind fun _ _ =>
    .pure hn

theorem keeps_nestedName (id : Id) : Keeps k (nestedName id) k.Spells :=
  keeps_functionName.bind fun _ hn =>
    .pure ((hn.append (Stock.spells_visible (by decide))).append (Stock.spells_toString id))

theorem keeps_functionObject {params : List Node} (statements : Nat) {body : Lower Unit}
    (hp : ∀ node ∈ params, node.Offers k) (hl : k.place loc)
    (hbody : Keeps k body fun _ => True) :
    Keeps k (functionObject params statements loc body) (Lowered.From k) := by
  exact keeps_fresh.bind fun id _ => (keeps_nestedName id).bind fun name hn =>
    (keeps_function hn statements hp hl (List.forall_mem_nil _) hbody).bind fun link hlink =>
    (keeps_addClosure id link).bind fun _ _ =>
    .pure ⟨.singleton (from_newObject hl), Value.from_func id hlink⟩

theorem keeps_returnValue {argument : Lower Lowered} (hl : k.place loc)
    (ha : Keeps k argument (Lowered.From k)) : Keeps k (returnValue loc argument) fun _ => True :=
  ha.within.bind fun _ he => keeps_emit (he.code.append (.singleton (from_ret hl he.value)))

theorem keeps_enterBlock (parent : Id) (hl : k.place loc) :
    Keeps k (enterBlock loc parent) fun _ => True := by
  refine (keeps_createScope _).bind fun scope _ => (keeps_pushScope _ _).bind fun _ _ =>
    (keeps_branchToNext hl).bind fun _ _ => (keeps_startBlock _ _).bind fun _ _ =>
    keeps_fresh.bind fun id _ => keeps_append (.cons ?_ (.singleton ?_))
  · exact from_newObject hl
  · exact from_apply hl (Stock.spells_visible (by decide))
      (by simpa using ⟨Value.from_ofScope scope, Value.from_ofScope parent⟩)

theorem keeps_leaveBlock (hl : k.place loc) : Keeps k (leaveBlock loc) fun _ => True := by
  refine keeps_leaveScope.bind fun _ _ => keeps_currentBlock.bind fun last _ => ?_
  split
  · exact (keeps_branchToNext hl).bind fun _ _ => keeps_currentScope.bind fun scope _ =>
      keeps_startBlock scope loc
  · exact .pure trivial

mutual

theorem keeps_expression (node : Node) {ref : Value} (hn : node.Offers k) (hr : ref.From k) :
    Keeps k (expression node ref) (Lowered.From k) := by
  rw [expression.eq_def]
  refine (keeps_enter _).bind fun _ _ => ?_
  cases node with
  | identifier loc name => exact keeps_identifier hn.name hr hn.location
  | literal loc source => exact keeps_literal (fun x hx => hn.literal hx) hn.location
  | assignment loc operator left right =>
    have hoperator : k.Spells operator := hn.word (List.mem_singleton_self operator)
    have hleft : left.Offers k := hn.child "left" (by simp [Node.children])
    have hplace := keeps_memberPlace left hleft hr
    have hright := keeps_expression right (hn.child "right" (by simp [Node.children])) hr
    refine Keeps.guarded (hright.within.bind fun r hv => ?_)
    dsimp only
    split
    · refine (keeps_enter _).bind fun _ _ => hplace.bind fun place hp => ?_
      cases place with
      | none =>
        exact (keeps_assignTarget hleft hv.value hr).bind fun write hw =>
          .pure ⟨hv.code.append hw, hv.value⟩
      | some place =>
        exact (keeps_store (hp place rfl) hv.value).bind fun write hw =>
          .pure ⟨hv.code.append ((hp place rfl).code.append hw), hv.value⟩
    · have hstep : ∀ old, old.From k → Keeps k
          (compoundStep loc (compoundPart operator) r.value old) (Lowered.From k) :=
        fun old ho => keeps_compoundStep hoperator.compoundPart hn.location hv.value ho
      refine .bind (P := Modified.From k) (.within ((keeps_enter _).bind fun _ _ =>
        hplace.bind fun place hp => ?_)) fun m hm => .pure ⟨hv.code.append hm.code, hm.new⟩
      cases place with
      | none => exact keeps_modifyTarget hleft (keeps_expression left hleft hr) hr hstep
      | some place => exact keeps_modifyPlace (hp place rfl) hstep
  | call loc callee args optional =>
    have hargs := keeps_arguments 0 args (hn.item "arguments" (by simp [Node.children])) hr
    have hcallee := keeps_expression callee (hn.child "callee" (by simp [Node.children])) hr
    exact Keeps.guarded (hargs.bind fun r hargs => hcallee.within.bind fun target ht =>
      (keeps_enter _).bind fun _ _ => (keeps_callOf hn.location ht.value hargs.2).bind
        fun result he => .pure ⟨(hargs.1.append ht.code).append he.code, he.value⟩)
  | member loc obj prop computed optional =>
    have hobj := keeps_expression obj (hn.child "object" (by simp [Node.children])) hr
    have hprop := keeps_expression prop (hn.child "property" (by simp [Node.children])) hr
    exact (keeps_placeOf hn.location (fun _ => hn.word) hobj hprop).bind fun place hp =>
      (keeps_load hp).bind fun e he => .pure ⟨hp.code.append he.code, he.value⟩
  | chain loc inner =>
    exact keeps_expression inner (hn.child "expression" (by simp [Node.children])) hr
  | object loc properties =>
    refine (keeps_createScope _).bind fun id _ => (keeps_pushScope _ _).bind fun _ _ => ?_
    have hmembers := keeps_members properties (hn.item "properties" (by simp [Node.children]))
      (Value.from_ofScope (k := k) id)
    exact hmembers.bind fun code hc => keeps_leaveScope.bind fun _ _ =>
      .pure ⟨.cons (from_newObject hn.location) hc, Value.from_ofScope id⟩
  | array loc items =>
    refine (keeps_createScope _).bind fun id _ => ?_
    have helements := keeps_elements 0 items (hn.item "elements" (by simp [Node.children]))
      (Value.from_ofScope (k := k) id) hr
    exact helements.bind fun code hc =>
      .pure ⟨.cons (from_newObject hn.location) hc, Value.from_ofScope id⟩
  | functionExpression loc id params body =>
    have hparams : ∀ node ∈ params, node.Offers k := hn.item "params" (by simp [Node.children])
    have hbody : body.Offers k := hn.child "body" (by simp [Node.children])
    cases body with
    | blockStatement loc' nodes =>
      exact keeps_functionObject _ hparams hn.location
        (keeps_statements nodes (hbody.item "body" (by simp [Node.children])))
    | _ => exact .fail
  | arrowFunction loc params body short =>
    have hparams : ∀ node ∈ params, node.Offers k := hn.item "params" (by simp [Node.children])
    have hbody : body.Offers k := hn.child "body" (by simp [Node.children])
    cases body with
    | missing => exact .fail
    | blockStatement loc' nodes =>
      exact keeps_functionObject _ hparams hn.location
        (keeps_statements nodes (hbody.item "body" (by simp [Node.children])))
    | _ =>
      exact keeps_functionObject _ hparams hn.location ((keeps_enter _).bind fun _ _ =>
        keeps_currentScope.bind fun scope _ =>
        keeps_returnValue hbody.location (keeps_expression _ hbody (Value.from_ofScope scope)))
  | unary loc operator short argument =>
    have hargument := keeps_expression argument (hn.child "argument" (by simp [Node.children])) hr
    have hoperator : k.Spells operator := hn.word (List.mem_singleton_self operator)
    exact keeps_operation hn.location (hoperator.marked (by decide)) (by simpa using hargument)
  | binary loc operator left right =>
    have hleft := keeps_expression left (hn.child "left" (by simp [Node.children])) hr
    have hright := keeps_expression right (hn.child "right" (by simp [Node.children])) hr
    have hoperator : k.Spells operator := hn.word (List.mem_singleton_self operator)
    exact keeps_operation hn.location (hoperator.marked (by decide))
      (by simpa using ⟨hleft, hright⟩)
  | logical loc operator left right =>
    have hleft := keeps_expression left (hn.child "left" (by simp [Node.children])) hr
    have hright := keeps_expression right (hn.child "right" (by simp [Node.children])) hr
    have hoperator : k.Spells operator := hn.word (List.mem_singleton_self operator)
    exact keeps_operation hn.location (hoperator.marked (by decide))
      (by simpa using ⟨hleft, hright⟩)
  | conditional loc test consequent alternate =>
    have htest := keeps_expression test (hn.child "test" (by simp [Node.children])) hr
    have hyes := keeps_expression consequent (hn.child "consequent" (by simp [Node.children])) hr
    have hno := keeps_expression alternate (hn.child "alternate" (by simp [Node.children])) hr
    exact keeps_operation hn.location (Stock.spells_visible (by decide))
      (by simpa using ⟨htest, hyes, hno⟩)
  | update loc operator prefixed argument =>
    have hoperator : k.Spells operator := hn.word (List.mem_singleton_self operator)
    have hargument : argument.Offers k := hn.child "argument" (by simp [Node.children])
    have hstep : ∀ old, old.From k → Keeps k (updateStep loc operator old) (Lowered.From k) :=
      fun old ho => keeps_updateStep hoperator hn.location ho
    refine Keeps.guarded (.bind (P := Modified.From k) (.within ((keeps_enter _).bind fun _ _ =>
      (keeps_memberPlace argument hargument hr).bind fun place hp => ?_)) fun m hm =>
        .pure ⟨hm.code, ?_⟩)
    · cases place with
      | none => exact keeps_modifyTarget hargument (keeps_expression argument hargument hr) hr hstep
      | some place => exact keeps_modifyPlace (hp place rfl) hstep
    · dsimp only
      split
      · exact hm.new
      · exact hm.old
  | missing => exact .fail
  | _ => exact (keeps_passOver _ _ _).bind fun _ _ => .pure (Lowered.from_value Value.from_null)

theorem keeps_memberPlace (node : Node) {ref : Value} (hn : node.Offers k) (hr : ref.From k) :
    Keeps k (memberPlace node ref) fun place => ∀ p ∈ place, p.From k := by
  rw [memberPlace.eq_def]
  cases node with
  | member loc obj prop computed optional =>
    have hobj := keeps_expression obj (hn.child "object" (by simp [Node.children])) hr
    have hprop := keeps_expression prop (hn.child "property" (by simp [Node.children])) hr
    exact (keeps_placeOf hn.location (fun _ => hn.word) hobj hprop).map fun place hp p he =>
      Option.some.inj he ▸ hp
  | _ => exact .pure (by simp)

theorem keeps_arguments (i : Nat) (nodes : List Node) {ref : Value}
    (hn : ∀ node ∈ nodes, node.Offers k) (hr : ref.From k) :
    Keeps k (arguments i nodes ref) fun r => CodeFrom k r.1 ∧ ∀ v ∈ r.2, v.From k := by
  cases nodes with
  | nil =>
    rw [arguments]
    exact .pure ⟨.nil, List.forall_mem_nil _⟩
  | cons node rest =>
    obtain ⟨hnode, hn⟩ := List.forall_mem_cons.mp hn
    have hrest := keeps_arguments (i + 1) rest hn hr
    rw [arguments]
    refine (keeps_enter _).bind fun _ _ =>
      (keeps_knownArgument node ref).bind fun known hknown => ?_
    cases known with
    | some value =>
      exact hrest.bind fun r hr => .pure ⟨CodeFrom.nil.append hr.1,
        List.forall_mem_cons.mpr ⟨hknown value rfl, hr.2⟩⟩
    | none =>
      exact (keeps_expression node hnode hr).within.bind fun e he => hrest.bind fun r hr =>
        .pure ⟨he.code.append hr.1, List.forall_mem_cons.mpr ⟨he.value, hr.2⟩⟩

theorem keeps_members (nodes : List Node) {object : Value} (hn : ∀ node ∈ nodes, node.Offers k)
    (ho : object.From k) : Keeps k (members nodes object) (CodeFrom k) := by
  cases nodes with
  | nil =>
    rw [members]
    exact .pure .nil
  | cons node rest =>
    obtain ⟨hnode, hn⟩ := List.forall_mem_cons.mp hn
    have hrest := keeps_members rest hn ho
    rw [members.eq_def]
    cases node with
    | property loc key value kind computed method shorthand =>
      have hkey := keeps_expression key (hnode.child "key" (by simp [Node.children])) ho
      have hvalue := keeps_expression value (hnode.child "value" (by simp [Node.children])) ho
      refine Keeps.guarded (Keeps.guarded ?_)
      dsimp only
      split
      · rename_i name hname
        have hname : k.Spells name := hnode.word (Option.mem_toList.mpr hname)
        exact hvalue.within.bind fun v hv =>
          (keeps_declareField hname hv.value ho hnode.location).bind fun write hw =>
          hrest.bind fun more hm => .pure ((hv.code.append hw).append hm)
      · refine hkey.within.bind fun key hk => hvalue.within.bind fun v hv =>
          keeps_fresh.bind fun id _ => hrest.bind fun more hm =>
          .pure (((hk.code.append hv.code).append (.singleton ?_)).append hm)
        exact from_apply hnode.location (Stock.spells_visible (by decide))
          (by simpa using ⟨ho, hk.value, hv.value⟩)
    | _ => exact (keeps_passOver _ _ _).bind fun _ _ => hrest

theorem keeps_elements (i : Nat) (nodes : List Node) {array ref : Value}
    (hn : ∀ node ∈ nodes, node.Offers k) (ha : array.From k) (hr : ref.From k) :
    Keeps k (elements i nodes array ref) (CodeFrom k) := by
  cases nodes with
  | nil =>
    rw [elements]
    exact .pure .nil
  | cons node rest =>
    obtain ⟨hnode, hn⟩ := List.forall_mem_cons.mp hn
    have hrest := keeps_elements (i + 1) rest hn ha hr
    have helement := keeps_expression node hnode hr
    rw [elements.eq_def]
    split
    · contradiction
    · rename_i heq
      cases heq
      exact hrest
    · rename_i heq
      cases heq
      exact helement.within.bind fun v hv =>
        (keeps_declareField (Stock.spells_toString_nat i) hv.value ha hnode.location).bind
        fun write hw => hrest.bind fun more hm => .pure ((hv.code.append hw).append hm)

theorem keeps_statement (node : Node) (hn : node.Offers k) :
    Keeps k (statement node) fun _ => True := by
  rw [statement.eq_def]
  refine (keeps_enter _).bind fun _ _ => ?_
  cases node with
  | variableDeclaration loc kind declarations =>
    refine keeps_currentScope.bind fun scope _ => ?_
    have hdeclarations := keeps_declarators declarations
      (hn.item "declarations" (by simp [Node.children])) (Value.from_ofScope (k := k) scope)
    exact hdeclarations.bind fun code hc => keeps_emit hc
  | functionDeclaration loc id params body =>
    have hparams : ∀ node ∈ params, node.Offers k := hn.item "params" (by simp [Node.children])
    have hbody : body.Offers k := hn.child "body" (by simp [Node.children])
    cases body with
    | blockStatement loc' nodes =>
      have hnodes := keeps_statements nodes (hbody.item "body" (by simp [Node.children]))
      cases id with
      | identifier loc'' name =>
        have hid : (Node.identifier loc'' name).Offers k := hn.child "id" (by simp [Node.children])
        have hname := hid.name
        refine keeps_currentScope.bind fun scope _ => (keeps_declare _ _).bind fun _ _ =>
          keeps_fresh.bind fun id _ => keeps_functionName.bind fun enclosing _ =>
          (keeps_nestedName id).bind fun nested hnested =>
          (keeps_function ?_ _ hparams hn.location (List.forall_mem_nil _) hnodes).bind
          fun link hlink => (keeps_addClosure id link).bind fun _ _ =>
          keeps_fresh.bind fun write _ =>
          (keeps_emit (.cons (from_newObject hn.location) (.singleton ?_))).bind fun _ _ =>
          keeps_assign _ _ (Value.from_func id hlink)
        · split
          · exact hname
          · exact hnested
        · exact from_apply hn.location hname.setField
            (by simpa using ⟨Value.from_ofScope scope, Value.from_func id hlink⟩)
      | _ => exact .fail
    | _ => cases id <;> exact .fail
  | returnStatement loc argument =>
    have hargument : argument.Offers k := hn.child "argument" (by simp [Node.children])
    have hreturn : Keeps k (currentScope >>= fun scope =>
        returnValue loc (expression argument (.ofScope scope))) fun _ => True :=
      keeps_currentScope.bind fun scope _ => keeps_returnValue hn.location
        (keeps_expression argument hargument (Value.from_ofScope scope))
    cases argument with
    | missing =>
      exact keeps_emit (.singleton (from_ret hn.location Value.from_null))
    | _ => exact hreturn
  | expressionStatement loc e =>
    have he : e.Offers k := hn.child "expression" (by simp [Node.children])
    have hemit : Keeps k (currentScope >>= fun scope => expression e (.ofScope scope) >>=
        fun lowered => emit loc lowered.code) fun _ => True :=
      keeps_currentScope.bind fun scope _ =>
        (keeps_expression e he (Value.from_ofScope scope)).bind fun _ hl => keeps_emit hl.code
    cases e with
    | missing => exact .fail
    | _ => exact hemit
  | blockStatement loc body =>
    have hbody := keeps_statements body (hn.item "body" (by simp [Node.children]))
    exact keeps_currentScope.bind fun parent _ => (keeps_ensureOpen loc).bind fun _ _ =>
      (keeps_enterBlock parent hn.location).bind fun _ _ => hbody.bind fun _ _ =>
      keeps_leaveBlock hn.location
  | emptyStatement loc => exact .pure trivial
  | missing => exact .fail
  | _ => exact keeps_passOver _ _ _

theorem keeps_statements (nodes : List Node) (hn : ∀ node ∈ nodes, node.Offers k) :
    Keeps k (statements nodes) fun _ => True := by
  cases nodes with
  | nil =>
    rw [statements]
    exact .pure trivial
  | cons node rest =>
    obtain ⟨hnode, hn⟩ := List.forall_mem_cons.mp hn
    rw [statements]
    exact (keeps_statement node hnode).bind fun _ _ => keeps_statements rest hn

theorem keeps_declarators (nodes : List Node) {ref : Value} (hn : ∀ node ∈ nodes, node.Offers k)
    (hr : ref.From k) : Keeps k (declarators nodes ref) (CodeFrom k) := by
  cases nodes with
  | nil =>
    rw [declarators]
    exact .pure .nil
  | cons node rest =>
    obtain ⟨hnode, hn⟩ := List.forall_mem_cons.mp hn
    have hrest := keeps_declarators rest hn hr
    rw [declarators.eq_def]
    cases node with
    | variableDeclarator loc id init =>
      have hid : id.Offers k := hnode.child "id" (by simp [Node.children])
      have hinit := keeps_expression init (hnode.child "init" (by simp [Node.children])) hr
      have hbound : ∀ e : Lowered, e.From k → Keeps k (declareTarget id e.value ref >>= fun write =>
          declarators rest ref >>= fun more => pure (e.code ++ write ++ more)) (CodeFrom k) :=
        fun e he => (keeps_declareTarget hid he.value hr).bind fun write hw =>
          hrest.bind fun more hm => .pure ((he.code.append hw).append hm)
      refine Keeps.guarded ?_
      split
      · exact hbound _ (Lowered.from_value Value.from_null)
      · exact hinit.within.bind fun e he => hbound e he
    | _ => exact .fail

end

theorem keeps_hostGlobals {names : List String} (hn : ∀ name ∈ names, k.Spells name) :
    Keeps k (hostGlobals names) fun globals =>
      ∀ g ∈ globals, g.value.From k ∧ k.Spells g.target.name := by
  induction names with
  | nil => exact .pure (List.forall_mem_nil _)
  | cons name rest ih =>
    obtain ⟨hname, hn⟩ := List.forall_mem_cons.mp hn
    exact keeps_fresh.bind fun id _ => (ih hn).bind fun globals hg =>
      .pure (List.forall_mem_cons.mpr ⟨⟨Value.from_const (by simp), hname⟩, hg⟩)

theorem keeps_seedGlobals (scope : Id) {globals : List Global}
    (hg : ∀ g ∈ globals, g.value.From k ∧ k.Spells g.target.name) (hl : k.place loc) :
    Keeps k (seedGlobals scope loc globals) fun _ => True := by
  induction globals with
  | nil => exact .pure trivial
  | cons g rest ih =>
    obtain ⟨⟨hvalue, hname⟩, hg⟩ := List.forall_mem_cons.mp hg
    refine keeps_fresh.bind fun id _ => .bind (P := fun _ => True) (.modify fun s hs => ?_)
      fun _ _ => (keeps_append (.singleton ?_)).bind fun _ _ => ih hg
    · refine hs.withScopes (hs.scopes.of_known (fun x v hv => ?_) rfl rfl)
      rcases ScopeTable.knows_assign (v := fun _ => g.target) hv with ⟨-, rfl⟩ | hv
      · exact Value.from_ref id
      · exact hs.scopes.known x v hv
    · exact from_apply hl hname.setField (by simpa using ⟨Value.from_ofScope scope, hvalue⟩)

theorem keeps_reports (functions : List Function) :
    Keeps k (reportFunctions functions) fun _ => True := by
  induction functions with
  | nil => exact .pure trivial
  | cons f rest ih => exact (keeps_report _).bind fun _ _ => ih

theorem keeps_program {hosts : List String} {node : Node} (hn : node.Offers k)
    (hh : ∀ host ∈ hosts, k.Spells host) :
    Keeps k (program hosts node) fun functions => ∀ f ∈ functions, f.From k ∧ f.Named k := by
  unfold program
  split
  · rename_i loc sourceType body
    have hbody := keeps_statements body (hn.item "body" (by simp [Node.children]))
    have hstandard : ∀ g ∈ standardGlobals, g.value.From k ∧ k.Spells g.target.name := by
      simp only [standardGlobals, List.forall_mem_cons]
      refine ⟨⟨Value.from_null, ?_⟩, ⟨Value.from_null, ?_⟩, ⟨Value.from_null, ?_⟩,
        List.forall_mem_nil _⟩
      all_goals exact Stock.spells_visible (by decide)
    refine (keeps_createScope _).bind fun scope _ => (keeps_startBlock _ _).bind fun _ _ =>
      (keeps_pushScope _ _).bind fun _ _ =>
      (keeps_append (.singleton (from_scope hn.location))).bind fun _ _ =>
      keeps_fresh.bind fun id _ => (keeps_append (.singleton ?_)).bind fun _ _ =>
      (keeps_assign _ _ (Value.from_ofScope scope)).bind fun _ _ =>
      (keeps_hostGlobals hh).bind fun globals hg =>
      (keeps_seedGlobals scope (List.forall_mem_append.mpr ⟨hstandard, hg⟩) hn.location).bind
      fun _ _ => Keeps.get.bind fun s hs =>
      (keeps_function (Stock.spells_visible (by decide)) _ (List.forall_mem_nil _) hn.location
        hs.frame.blocks hbody).bind fun _ _ => keeps_leaveScope.bind fun _ _ =>
      Keeps.get.bind fun s hs => (keeps_reports _).bind fun _ _ => .pure hs.functions
    exact from_apply hn.location (Stock.spells_visible (by decide))
      (by simpa using Value.from_ofScope scope)
  · exact .fail

end Lower

theorem Compilation.From.start (file : String) : (Compilation.start file).From k := by
  have hknown : ∀ x v, ({} : ScopeTable).Knows x v → v.From k := by
    rintro x v ⟨scope, name, assignment, hs, -⟩
    rw [ScopeTable.scope?_empty] at hs
    cases hs
  have hliterate : ({} : ScopeTable).Literate := ⟨List.forall_mem_nil _, by simp⟩
  have hmain : k.Spells mainName := Stock.spells_visible (by decide)
  exact ⟨⟨hmain, List.forall_mem_nil _, List.forall_mem_nil _⟩, List.forall_mem_nil _,
    ⟨hknown, List.forall_mem_nil _, hliterate⟩, List.forall_mem_nil _⟩

/-- Names are spelled with the letters of the program and of the names of the host, whatever the
literals are that are no keys. -/
theorem lower_named {file : String} {hosts : List String} {node : Node} {functions : List Function}
    (h : (lower file hosts node).1 = .ok functions) (hn : node.Offers k)
    (hh : ∀ host ∈ hosts, k.Spells host) : ∀ f ∈ functions, f.From k ∧ f.Named k := by
  unfold lower at h
  split at h
  · rename_i s hp
    cases h
    exact (Lower.keeps_program hn hh (.start file) hp).2
  · cases h

def Stock.loose (k : Stock) : Stock where
  place := k.place
  number := k.number
  letter _ := True
  nowhere := k.nowhere
  one := k.one
  visible _ _ := trivial

theorem Node.Offers.loose {node : Node} (h : node.Offers k) : node.Offers k.loose := by
  induction h with
  | intro place number words children ih =>
    exact .intro place number (fun _ _ _ _ => trivial) ih

/-- What an output is located at and the numbers it holds are from the program. -/
theorem lower_from {file : String} {hosts : List String} {node : Node} {functions : List Function}
    (h : (lower file hosts node).1 = .ok functions) (hn : node.Offers k) :
    ∀ f ∈ functions, f.From k.loose :=
  fun f hf => (lower_named h hn.loose (fun _ _ _ _ => trivial) f hf).1

end ScopeIR
