import ScopeIR.Document.Reader
import ScopeIR.Proofs.JsonRecords

/-! The text of a document reads back as the document, if its numbers can be written. -/
namespace ScopeIR

/-- The literal is read back as itself. -/
def Literal.Portable : Literal → Prop
  | .null | .bool _ | .str _ => True
  | .num x => x.isFinite
  | .big _ | .int _ | .list _ | .record _ => False

namespace Document

open Json JsonText

structure ValueRecord.Portable (v : ValueRecord) : Prop where
  id : isInt64 v.id
  literal : v.literal.Portable
  scope : ∀ scope ∈ v.scope, isInt64 scope

structure SpanRecord.Portable (span : SpanRecord) : Prop where
  line : isInt64 span.line
  column : isInt64 span.column
  endLine : isInt64 span.endLine
  endColumn : isInt64 span.endColumn

structure InstructionRecord.Portable (x : InstructionRecord) : Prop where
  dest : ∀ dest ∈ x.dest, isInt64 dest
  receiver : ∀ v ∈ x.receiver, v.Portable
  whole : x.callee.cut = false
  operands : ∀ v ∈ x.operands, v.Portable
  value : ∀ v ∈ x.value, v.Portable
  target : ∀ target ∈ x.target, isInt64 target
  scope : ∀ scope ∈ x.scope, isInt64 scope
  loc : ∀ span ∈ x.loc, span.Portable

structure BlockRecord.Portable (block : BlockRecord) : Prop where
  index : isInt64 block.index
  scope : isInt64 block.scope
  instructions : ∀ x ∈ block.instructions, x.Portable

structure FunctionRecord.Portable (f : FunctionRecord) : Prop where
  whole : f.definition.cut = false
  parameters : ∀ p ∈ f.parameters, isInt64 p.id
  blocks : ∀ block ∈ f.blocks, block.Portable
  closures : ∀ v ∈ f.closures, v.Portable

variable (room : Nat)

theorem optional_eq {α : Type} (name : String) (item : Option α) (text : α → JsonText) :
    optional name item text = ((item.map text).map (name, ·)).toList := by
  cases item <;> rfl

theorem optionalString_eq (name text : String) :
    optionalString name text =
      ((if text.isEmpty then none else some (JsonText.string text)).map (name, ·)).toList := by
  unfold optionalString
  split <;> rfl

theorem optionalCut_eq (name text : String) :
    optionalCut name text false =
      ((if text.isEmpty then none else some (JsonText.string text)).map (name, ·)).toList :=
  optionalString_eq name text

def valueSlots (v : ValueRecord) (literal : Option JsonText) : List (String × Option JsonText) :=
  [("kind", some (.string v.kind)), ("id", some (.int v.id)), ("literal", literal),
    ("type", if v.type.isEmpty then none else some (.string v.type)), ("scope", v.scope.map .int),
    ("function", if v.function.isEmpty then none else some (.string v.function))]

theorem valueText?_eq {v : ValueRecord} (h : v.literal.Portable) :
    ∃ literal, Carries room literal readLiteral v.literal ∧
      valueText? v = some (.record (present (valueSlots v literal))) := by
  obtain ⟨kind, id, literal, type, scope, function⟩ := v
  cases literal with
  | null =>
    refine ⟨none, ⟨none, .none, rfl⟩, ?_⟩
    simp [valueText?, valueSlots, present, optional_eq, optionalString_eq]
  | bool value =>
    refine ⟨some (.bool value), ⟨some (.bool value), .some (spells_scalar (scans_bool value) room),
      rfl⟩, ?_⟩
    simp [valueText?, literalText?, valueSlots, present, optional_eq, optionalString_eq]
  | str text =>
    refine ⟨some (.string text), ⟨some (.str text), .some (spells_scalar (scans_quoted text) room),
      rfl⟩, ?_⟩
    simp [valueText?, literalText?, valueSlots, present, optional_eq, optionalString_eq]
  | num x =>
    obtain ⟨n, hn, hscan⟩ := scans_finite Binary64.wideLayout h
    refine ⟨some (.scalar (Binary64.wideLayout.finite x)),
      ⟨some (.num n), .some (spells_scalar hscan room), ?_⟩, ?_⟩
    · simp [readLiteral, Literal.ofJson?, hn]
    · have htext : x.documentText? = some (Binary64.wideLayout.finite x) := if_pos h
      simp [valueText?, literalText?, htext, valueSlots, present, optional_eq, optionalString_eq]
  | big | int | list | record => exact h.elim

theorem writes_value {v : ValueRecord} (h : v.Portable) :
    ∃ t, valueText? v = some t ∧ Writes (room + 1) t readValue v := by
  obtain ⟨literal, hliteral, htext⟩ := valueText?_eq room h.literal
  obtain ⟨members, hspells, hsaid⟩ := exists_members
    (.cons ⟨rfl, (writes_string room v.kind).carries⟩ <|
      .cons ⟨rfl, (writes_int room h.id).carries⟩ <|
      .cons ⟨rfl, hliteral⟩ <|
      .cons ⟨rfl, carries_optionalString room v.type⟩ <|
      .cons ⟨rfl, carries_optionalInt room h.scope⟩ <|
      .cons ⟨rfl, carries_optionalString room v.function⟩ .nil :
      List.Forall₂ _ (valueSlots v literal) [reads "kind" readString v.kind,
        reads "id" readInt v.id, reads "literal" readLiteral v.literal,
        reads "type" readString v.type, reads "scope" (readOption readInt) v.scope,
        reads "function" readString v.function])
    (by decide : IsSchema ["kind", "id", "literal", "type", "scope", "function"])
  simp only [List.forall_mem_cons, reads] at hsaid
  obtain ⟨hkind, hid, hliteral, htype, hscope, hfunction, -⟩ := hsaid
  refine ⟨_, htext, .obj members, hspells, rfl, ?_⟩
  simp [readValue, readMembers_obj, hkind, hid, hliteral, htype, hscope, hfunction]

theorem carries_optionalValue {o : Option ValueRecord} (h : ∀ v ∈ o, v.Portable) :
    ∃ t, o.mapM valueText? = some t ∧ Carries (room + 1) t (readOption readValue) o := by
  have hblank : readValue [] = .ok {} := rfl
  cases o with
  | none => exact ⟨none, rfl, carries_option hblank .none⟩
  | some v =>
    obtain ⟨t, ht, hw⟩ := writes_value room (h v rfl)
    refine ⟨some t, ?_, carries_option hblank (.some hw)⟩
    simp [ht]

theorem writes_span {span : SpanRecord} (h : span.Portable) :
    Writes (room + 1) (spanText span) readSpan span := by
  obtain ⟨members, hspells, hsaid⟩ := exists_members
    (.cons ⟨rfl, (writes_int room h.line).carries⟩ <|
      .cons ⟨rfl, (writes_int room h.column).carries⟩ <|
      .cons ⟨rfl, (writes_int room h.endLine).carries⟩ <|
      .cons ⟨rfl, (writes_int room h.endColumn).carries⟩ .nil :
      List.Forall₂ _ [("line", some (.int span.line)), ("column", some (.int span.column)),
        ("end_line", some (.int span.endLine)), ("end_column", some (.int span.endColumn))]
        [reads "line" readInt span.line, reads "column" readInt span.column,
          reads "end_line" readInt span.endLine, reads "end_column" readInt span.endColumn])
    (by decide : IsSchema ["line", "column", "end_line", "end_column"])
  simp only [List.forall_mem_cons, reads] at hsaid
  obtain ⟨hline, hcolumn, hendLine, hendColumn, -⟩ := hsaid
  refine ⟨.obj members, hspells, rfl, ?_⟩
  simp [readSpan, readMembers_obj, hline, hcolumn, hendLine, hendColumn]

theorem carries_optionalSpan {o : Option SpanRecord} (h : ∀ span ∈ o, span.Portable) :
    Carries (room + 1) (o.map spanText) (readOption readSpan) o := by
  refine carries_option (rfl : readSpan [] = .ok {}) ?_
  cases o with
  | none => exact .none
  | some span => exact .some (writes_span room (h span rfl))

def instructionSlots (x : InstructionRecord) (receiver value : Option JsonText)
    (operands : List JsonText) : List (String × Option JsonText) :=
  [("kind", some (.string x.kind)), ("dest", x.dest.map .int), ("receiver", receiver),
    ("callee", if x.callee.name.isEmpty then none else some (.string x.callee.name)),
    ("signature", if x.callee.signature.isEmpty then none else some (.string x.callee.signature)),
    ("operands", if operands.isEmpty then none else some (.list operands)), ("value", value),
    ("target", x.target.map .int), ("scope", x.scope.map .int), ("loc", x.loc.map spanText)]

theorem instructionText?_eq {x : InstructionRecord} (h : x.callee.cut = false)
    {receiver value : Option JsonText} {operands : List JsonText}
    (hr : x.receiver.mapM valueText? = some receiver)
    (ho : x.operands.mapM valueText? = some operands)
    (hv : x.value.mapM valueText? = some value) :
    instructionText? x = some (.record (present (instructionSlots x receiver value operands))) := by
  cases operands <;>
    simp [instructionText?, hr, ho, hv, h, instructionSlots, present, optional_eq, optionalCut_eq]

theorem writes_instruction {x : InstructionRecord} (h : x.Portable) :
    ∃ t, instructionText? x = some t ∧ Writes (room + 3) t readInstruction x := by
  obtain ⟨receiver, hreceiver, hr⟩ := carries_optionalValue (room + 1) h.receiver
  obtain ⟨operands, hoperands, ho⟩ := exists_mapM_pure fun v hv =>
    writes_value room (h.operands v hv)
  obtain ⟨value, hvalue, hv⟩ := carries_optionalValue (room + 1) h.value
  obtain ⟨members, hspells, hsaid⟩ := exists_members
    (.cons ⟨rfl, (writes_string (room + 2) x.kind).carries⟩ <|
      .cons ⟨rfl, carries_optionalInt (room + 2) h.dest⟩ <|
      .cons ⟨rfl, hr⟩ <|
      .cons ⟨rfl, carries_optionalString (room + 2) x.callee.name⟩ <|
      .cons ⟨rfl, carries_optionalString (room + 2) x.callee.signature⟩ <|
      .cons ⟨rfl, carries_optionalList ho⟩ <|
      .cons ⟨rfl, hv⟩ <|
      .cons ⟨rfl, carries_optionalInt (room + 2) h.target⟩ <|
      .cons ⟨rfl, carries_optionalInt (room + 2) h.scope⟩ <|
      .cons ⟨rfl, carries_optionalSpan (room + 1) h.loc⟩ .nil :
      List.Forall₂ _ (instructionSlots x receiver value operands) [reads "kind" readString x.kind,
        reads "dest" (readOption readInt) x.dest,
        reads "receiver" (readOption readValue) x.receiver,
        reads "callee" readString x.callee.name, reads "signature" readString x.callee.signature,
        reads "operands" (readList readValue) x.operands,
        reads "value" (readOption readValue) x.value,
        reads "target" (readOption readInt) x.target, reads "scope" (readOption readInt) x.scope,
        reads "loc" (readOption readSpan) x.loc])
    (by decide : IsSchema ["kind", "dest", "receiver", "callee", "signature", "operands", "value",
      "target", "scope", "loc"])
  simp only [List.forall_mem_cons, reads] at hsaid
  obtain ⟨hkind, hdest, hr, hcallee, hsignature, ho, hv, htarget, hscope, hloc, -⟩ := hsaid
  refine ⟨_, instructionText?_eq h.whole hreceiver hoperands hvalue, .obj members, hspells, rfl, ?_⟩
  obtain ⟨kind, dest, receiver, ⟨name, signature, cut⟩, operands, value, target, scope, loc⟩ := x
  obtain rfl : cut = false := h.whole
  simp [readInstruction, readMembers_obj, hkind, hdest, hr, hcallee, hsignature, ho, hv, htarget,
    hscope, hloc]

theorem writes_block {block : BlockRecord} (h : block.Portable) :
    ∃ t, blockText? block = some t ∧ Writes (room + 5) t readBlock block := by
  obtain ⟨instructions, hinstructions, hw⟩ := exists_mapM_pure fun x hx =>
    writes_instruction room (h.instructions x hx)
  obtain ⟨members, hspells, hsaid⟩ := exists_members
    (.cons ⟨rfl, (writes_int (room + 4) h.index).carries⟩ <|
      .cons ⟨rfl, (writes_int (room + 4) h.scope).carries⟩ <|
      .cons ⟨rfl, carries_listOrNull hw⟩ .nil :
      List.Forall₂ _ [("index", some (.int block.index)), ("scope", some (.int block.scope)),
        ("instructions", some (listOrNull instructions))]
        [reads "index" readInt block.index, reads "scope" readInt block.scope,
          reads "instructions" (readList readInstruction) block.instructions])
    (by decide : IsSchema ["index", "scope", "instructions"])
  simp only [List.forall_mem_cons, reads] at hsaid
  obtain ⟨hindex, hscope, hw, -⟩ := hsaid
  refine ⟨_, by rw [blockText?, hinstructions]; rfl, .obj members, hspells, rfl, ?_⟩
  simp [readBlock, readMembers_obj, hindex, hscope, hw]

theorem writes_parameter {p : ParameterRecord} (h : isInt64 p.id) :
    Writes (room + 1) (parameterText p) readParameter p := by
  obtain ⟨members, hspells, hsaid⟩ := exists_members
    (.cons ⟨rfl, (writes_int room h).carries⟩ <|
      .cons ⟨rfl, (writes_string room p.name).carries⟩ .nil :
      List.Forall₂ _ [("id", some (.int p.id)), ("name", some (.string p.name))]
        [reads "id" readInt p.id, reads "name" readString p.name])
    (by decide : IsSchema ["id", "name"])
  simp only [List.forall_mem_cons, reads] at hsaid
  obtain ⟨hid, hname, -⟩ := hsaid
  refine ⟨.obj members, hspells, rfl, ?_⟩
  simp [readParameter, readMembers_obj, hid, hname]

theorem writes_function {f : FunctionRecord} (h : f.Portable) :
    ∃ t, functionText? f = some t ∧ Writes (room + 7) t readFunction f := by
  obtain ⟨blocks, hblocks, hb⟩ := exists_mapM_pure fun block hblock =>
    writes_block room (h.blocks block hblock)
  obtain ⟨closures, hclosures, hc⟩ := exists_mapM_pure fun v hv =>
    writes_value (room + 4) (h.closures v hv)
  have hp : List.Forall₂ (fun t p => Writes (room + 5) t readParameter p)
      (f.parameters.map parameterText) f.parameters := by
    rw [List.forall₂_map_left_iff, List.forall₂_same]
    exact fun p hp => writes_parameter (room + 4) (h.parameters p hp)
  obtain ⟨members, hspells, hsaid⟩ := exists_members
    (.cons ⟨rfl, (writes_string (room + 6) f.definition.name).carries⟩ <|
      .cons ⟨rfl, (writes_string (room + 6) f.definition.signature).carries⟩ <|
      .cons ⟨rfl, carries_listOrNull hp⟩ <|
      .cons ⟨rfl, carries_listOrNull hb⟩ <|
      .cons ⟨rfl, carries_optionalList hc⟩ .nil :
      List.Forall₂ _ [("name", some (.string f.definition.name)),
        ("signature", some (.string f.definition.signature)),
        ("parameters", some (listOrNull (f.parameters.map parameterText))),
        ("blocks", some (listOrNull blocks)),
        ("closures", if closures.isEmpty then none else some (.list closures))]
        [reads "name" readString f.definition.name,
          reads "signature" readString f.definition.signature,
          reads "parameters" (readList readParameter) f.parameters,
          reads "blocks" (readList readBlock) f.blocks,
          reads "closures" (readList readValue) f.closures])
    (by decide : IsSchema ["name", "signature", "parameters", "blocks", "closures"])
  simp only [List.forall_mem_cons, reads] at hsaid
  obtain ⟨hname, hsignature, hp, hb, hc, -⟩ := hsaid
  refine ⟨_, ?_, .obj members, hspells, rfl, ?_⟩
  · cases closures <;>
      simp [functionText?, hblocks, hclosures, h.whole, cutText, JsonText.string, present]
  · obtain ⟨⟨name, signature, cut⟩, parameters, blocks, closures⟩ := f
    obtain rfl : cut = false := h.whole
    simp [readFunction, readMembers_obj, hname, hsignature, hp, hb, hc]

theorem writes_document {d : Document} (h : ∀ f ∈ d.functions, f.Portable) :
    ∃ t, d.text? = some t ∧ Writes (room + 9) t read d := by
  obtain ⟨functions, hfunctions, hf⟩ := exists_mapM_pure fun f hf =>
    writes_function room (h f hf)
  obtain ⟨members, hspells, hsaid⟩ := exists_members
    (.cons ⟨rfl, (writes_string (room + 8) d.version).carries⟩ <|
      .cons ⟨rfl, (writes_string (room + 8) d.file).carries⟩ <|
      .cons ⟨rfl, carries_list hf⟩ .nil :
      List.Forall₂ _ [("version", some (.string d.version)), ("file", some (.string d.file)),
        ("functions", some (.list functions))]
        [reads "version" readString d.version, reads "file" readString d.file,
          reads "functions" (readList readFunction) d.functions])
    (by decide : IsSchema ["version", "file", "functions"])
  simp only [List.forall_mem_cons, reads] at hsaid
  obtain ⟨hversion, hfile, hf, -⟩ := hsaid
  refine ⟨_, by rw [text?, hfunctions]; rfl, .obj members, hspells, rfl, ?_⟩
  simp [read, readMembers_obj, hversion, hfile, hf]

theorem load_render {d : Document} (hv : d.version = currentVersion)
    (h : ∀ f ∈ d.functions, f.Portable) :
    ∃ t, d.text? = some t ∧ load t.render = .ok d := by
  obtain ⟨t, ht, j, hspells, -, hread⟩ := writes_document 9991 h
  have hcheck : Version.check d.version = .ok () := by
    rw [hv]
    decide
  refine ⟨t, ht, ?_⟩
  simp [load, parse?_render hspells, hread, Outcome.within, Except.mapError, hcheck]

end Document

end ScopeIR
