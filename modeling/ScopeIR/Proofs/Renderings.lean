import ScopeIR.CommandLine.Run
import ScopeIR.Proofs.Printing

/-! What is compiled can be written, as a document and as a dump. The numbers of a program are
those of its text, so that each has a spelling. -/
namespace ScopeIR

namespace Document

variable {file : String} {functions : List Function}

def InstructionRecord.written (x : InstructionRecord) : List ValueRecord :=
  x.receiver.toList ++ x.operands ++ x.value.toList

def FunctionRecord.written (f : FunctionRecord) : List ValueRecord :=
  f.blocks.flatMap (·.instructions.flatMap InstructionRecord.written) ++ f.closures

theorem exists_mapM_some {α β : Type} {f : α → Option β} {as : List α}
    (h : ∀ a ∈ as, ∃ b, f a = some b) : ∃ bs, as.mapM f = some bs := by
  obtain ⟨bs, hbs, -⟩ := exists_mapM_pure (f := f) (P := fun _ _ => True) fun a ha =>
    (h a ha).imp fun b hb => ⟨hb, trivial⟩
  exact ⟨bs, hbs⟩

theorem exists_valueText {v : ValueRecord} (h : v.literal.Portable) :
    ∃ text, valueText? v = some text := by
  obtain ⟨_, -, htext⟩ := valueText?_eq 0 h
  exact ⟨_, htext⟩

theorem exists_optionalText {value : Option ValueRecord}
    (h : ∀ v ∈ value.toList, v.literal.Portable) : ∃ text, value.mapM valueText? = some text := by
  cases value with
  | none => exact ⟨none, rfl⟩
  | some v =>
    obtain ⟨text, htext⟩ := exists_valueText (h v (List.mem_singleton_self v))
    exact ⟨some text, by simp [htext]⟩

theorem exists_instructionText {x : InstructionRecord}
    (h : ∀ v ∈ x.written, v.literal.Portable) : ∃ text, instructionText? x = some text := by
  simp only [InstructionRecord.written, List.forall_mem_append] at h
  obtain ⟨receiver, hreceiver⟩ := exists_optionalText h.1.1
  obtain ⟨operands, hoperands⟩ := exists_mapM_some fun v hv => exists_valueText (h.1.2 v hv)
  obtain ⟨value, hvalue⟩ := exists_optionalText h.2
  rw [instructionText?, hreceiver, hoperands, hvalue]
  exact ⟨_, rfl⟩

theorem exists_functionText {f : FunctionRecord} (h : ∀ v ∈ f.written, v.literal.Portable) :
    ∃ text, functionText? f = some text := by
  simp only [FunctionRecord.written, List.forall_mem_append, List.forall_mem_flatMap] at h
  obtain ⟨blocks, hblocks⟩ : ∃ texts, f.blocks.mapM blockText? = some texts := by
    refine exists_mapM_some fun block hb => ?_
    obtain ⟨code, hcode⟩ := exists_mapM_some fun x hx => exists_instructionText (h.1 block hb x hx)
    rw [blockText?, hcode]
    exact ⟨_, rfl⟩
  obtain ⟨closures, hclosures⟩ := exists_mapM_some fun v hv => exists_valueText (h.2 v hv)
  rw [functionText?, hblocks, hclosures]
  exact ⟨_, rfl⟩

theorem portable_literal {v : Value} (hp : v.Proper file functions) (hf : v.From .portable) :
    (valueRecord v).literal.Portable := by
  cases v with
  | const c =>
    rcases hp with hnull | htyped
    · rw [hnull]
      trivial
    · rw [valueRecord, if_neg (Bool.eq_false_iff.mp (isNull_eq_false htyped))]
      refine portable_literalOf htyped.2 ?_
      cases hc : c.literal with
      | num x => exact hf.number c x rfl hc
      | _ => rfl
  | _ => trivial

theorem portable_literals_instruction {x : Instruction} {r : InstructionRecord}
    (hr : instructionRecord x = .ok r) (hc : x.Complete file functions)
    (hf : ∀ v ∈ x.values, v.From .portable) : ∀ v ∈ r.written, v.literal.Portable := by
  cases x with
  | call loc dest receiver callee operands =>
    obtain ⟨rfl, values, rfl, hvalues⟩ := hc
    cases hr
    simp only [InstructionRecord.written, Option.map_none, Option.toList_none, List.nil_append,
      List.append_nil, List.map_map, List.forall_mem_map]
    intro v hv
    refine portable_literal (hvalues v hv) (hf v ?_)
    exact Instruction.mem_values_call.mpr (.inr (List.mem_map_of_mem hv))
  | ret loc value =>
    obtain ⟨v, rfl, hv⟩ := hc
    cases hr
    refine List.forall_mem_singleton.mpr (portable_literal hv (hf v ?_))
    exact List.mem_singleton_self v
  | branch loc target =>
    cases target with
    | none => cases hr
    | some target =>
      cases hr
      exact List.forall_mem_nil _
  | scope loc id =>
    cases hr
    exact List.forall_mem_nil _

theorem portable_literals {f : Function} {r : FunctionRecord} (hr : functionRecord f = .ok r)
    (hc : f.Complete file functions) (hf : f.From .portable) :
    ∀ v ∈ r.written, v.literal.Portable := by
  obtain ⟨-, -, hblocks, hclosures⟩ := functionRecord_eq_ok.mp hr
  simp only [FunctionRecord.written, List.forall_mem_append, List.forall_mem_flatMap]
  constructor
  · intro record hrecord code hcode
    obtain ⟨block, hb, hrb⟩ := exists_of_forall₂_of_mem hblocks hrecord
    obtain ⟨x, hx, hrx⟩ := exists_of_forall₂_of_mem (blockRecord_eq_ok.mp hrb).2.2 hcode
    have hmem : x ∈ f.code := List.mem_flatMap.mpr ⟨block, hb, hx⟩
    exact portable_literals_instruction hrx (hc.code x hmem) (hf x hmem).values
  · rw [hclosures, List.forall_mem_map]
    exact fun closure _ => trivial

theorem exists_marshal {functions : List Function} (hc : ∀ f ∈ functions, f.Complete file functions)
    (hw : ∀ f ∈ functions, f.Whole) (hf : ∀ f ∈ functions, f.From .portable) :
    ∃ text, marshal file functions = .ok text := by
  obtain ⟨d, hd⟩ := exists_ofFunctions file hw
  obtain ⟨-, -, hrecords⟩ := ofFunctions_eq_ok.mp hd
  obtain ⟨texts, htexts⟩ := exists_mapM_some fun r hr => by
    obtain ⟨f, hm, hrf⟩ := exists_of_forall₂_of_mem hrecords hr
    exact exists_functionText (portable_literals hrf (hc f hm) (hf f hm))
  rw [marshal, hd, Outcome.ok_bind, text?, htexts]
  exact ⟨_, rfl⟩

open JsonText

theorem quoted_append_inj {a b : String} {rest rest' : List Char}
    (h : (quoted a).toList ++ rest = (quoted b).toList ++ rest') : a = b := by
  have hread : ∀ (text : String) (rest : List Char),
      Json.stringBody ((quoted text).toList ++ rest).tail = some (text.toList, rest) := by
    intro text rest
    rw [Json.toList_quoted, List.cons_append, List.tail_cons, List.append_assoc,
      List.singleton_append, Json.stringBody_escaped]
  have hsame := hread a rest
  rw [h, hread b rest'] at hsame
  exact (String.toList_inj.mp (Prod.mk.inj (Option.some.inj hsame)).1).symm

def opening : List Char :=
  '\x7b' :: indent 1 ++ (quoted "version").toList ++ [':', ' '] ++ (quoted currentVersion).toList ++
    ',' :: indent 1 ++ (quoted "file").toList ++ [':', ' ']

theorem exists_chars_of_marshal {text : String} (h : marshal file functions = .ok text) :
    ∃ rest, text.toList = opening ++ ((quoted file).toList ++ rest) := by
  obtain ⟨d, hd, hrender⟩ := Outcome.bind_eq_ok.mp h
  obtain ⟨hversion, hfile, -⟩ := ofFunctions_eq_ok.mp hd
  cases hf : d.functions.mapM functionText? with
  | none =>
    rw [text?, hf] at hrender
    cases hrender
  | some texts =>
    have htext : d.text? = some (.record [("version", string currentVersion),
        ("file", string file), ("functions", .list texts)]) := by
      rw [text?, hf, hversion, hfile]
      rfl
    rw [htext] at hrender
    refine ⟨fieldChars 1 [("functions", .list texts)] ++ indent 0 ++ ['\x7d', '\n'], ?_⟩
    rw [← Except.ok.inj hrender, render, String.toList_ofList]
    simp [chars, fieldChars, string, opening]

/-- Documents of different files differ. -/
theorem file_of_marshal {file' text : String} {functions' : List Function}
    (h : marshal file functions = .ok text) (h' : marshal file' functions' = .ok text) :
    file = file' := by
  obtain ⟨rest, hrest⟩ := exists_chars_of_marshal h
  obtain ⟨rest', hrest'⟩ := exists_chars_of_marshal h'
  exact quoted_append_inj (List.append_cancel_left (hrest.symm.trans hrest'))

end Document

theorem CommandLine.exists_render {options : CompileOptions} {file source : String}
    {functions : List Function} (h : (compile options file source).functions = .ok functions)
    (format : OutputFormat) : ∃ text, render ⟨file, functions⟩ format = .ok text := by
  obtain ⟨node, hnode, hlower⟩ := exists_lower_of_compile h
  obtain ⟨_, ⟨p⟩⟩ := exists_programRun hlower
  have hw : ∀ f ∈ functions, f.Whole := fun f hf =>
    (p.complete f hf).whole (linear_of_mem p.comesFrom f hf)
  cases format with
  | json =>
    exact Document.exists_marshal p.complete hw
      (lower_from hlower (Node.yields_parseProgram source node hnode))
  | text => exact Function.exists_dumpAll hw

end ScopeIR
