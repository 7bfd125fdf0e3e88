import ScopeIR.Dump
import ScopeIR.Proofs.Documents
import ScopeIR.Proofs.LiteralTexts
import ScopeIR.Proofs.Positions

/-! Lines of a dump. Headers, blocks, instructions and closings have a line each, and functions a
blank one between them. Literals never break a line, but names are shown as they are: a break in
a name is one in the text. Names have breaks only if the program has one in a name, an operator or
a key. -/
namespace ScopeIR

/-- What has a line of its own. -/
inductive DumpLine where
  | header (f : Function)
  | block (b : Block)
  | instruction (x : Instruction)
  | closing
  | blank
deriving Repr

def DumpLine.text : DumpLine → Outcome String
  | .header f => .ok ("func " ++ f.definition.shownName ++ "(" ++
      ", ".intercalate (f.parameters.map Parameter.text) ++ ") " ++ f.definition.shownSignature ++
      " \x7b")
  | .block b => .ok ("b" ++ toString b.index ++ ": scope s" ++ toString b.scope)
  | .instruction x => return "\t" ++ (← x.text) ++ x.note
  | .closing => .ok "\x7d"
  | .blank => .ok ""

def Block.lines (b : Block) : List DumpLine := .block b :: b.instructions.map .instruction

def Function.lines (f : Function) : List DumpLine :=
  .header f :: (f.blocks.flatMap Block.lines ++ [.closing])

def Function.allLines (functions : List Function) : List DumpLine :=
  [DumpLine.blank].intercalate (functions.map Function.lines)

/-- The names in a line, which are shown as they are. -/
def DumpLine.names : DumpLine → List String
  | .header f =>
    f.definition.shownName :: f.definition.shownSignature :: f.parameters.map (·.name)
  | .instruction x =>
    (Stats.callee? x).toList.map (·.shownName) ++ x.values.flatMap Value.shownNames
  | .block _ | .closing | .blank => []

/-- The text is that of the lines, each with a break behind it. -/
def Prints (lines : List DumpLine) (chars : List Char) : Prop :=
  ∃ texts, List.Forall₂ (fun line text => line.text = .ok text) lines texts ∧
    chars = texts.flatMap fun text => text.toList ++ ['\n']

namespace Prints

variable {lines more : List DumpLine} {chars rest : List Char}

theorem nil : Prints [] [] := ⟨[], .nil, rfl⟩

theorem append (h : Prints lines chars) (h' : Prints more rest) :
    Prints (lines ++ more) (chars ++ rest) := by
  obtain ⟨texts, htexts, rfl⟩ := h
  obtain ⟨others, hothers, rfl⟩ := h'
  exact ⟨texts ++ others, List.rel_append htexts hothers, List.flatMap_append.symm⟩

theorem single (line : DumpLine) {text : String} (h : line.text = .ok text) :
    Prints [line] (text.toList ++ ['\n']) :=
  ⟨[text], .cons h .nil, (List.flatMap_singleton _ _).symm⟩

theorem flatMap {α : Type} {f : α → List DumpLine} {as : List α} {texts : List String}
    (h : List.Forall₂ (fun a text => Prints (f a) text.toList) as texts) :
    Prints (as.flatMap f) (String.join texts).toList := by
  rw [String.toList_join]
  induction h with
  | nil => exact .nil
  | cons ha _ ih => exact ha.append ih

end Prints

theorem Block.prints_dump {b : Block} {text : String} (h : b.dump = .ok text) :
    Prints b.lines text.toList := by
  obtain ⟨lines, hlines, ⟨⟩⟩ := Outcome.bind_eq_ok.mp h
  have hcode : List.Forall₂ (fun x line => Prints [.instruction x] line.toList) b.instructions
      lines := (Outcome.mapM_eq_ok.mp hlines).imp fun x line hx => by
    obtain ⟨shown, hshown, ⟨⟩⟩ := Outcome.bind_eq_ok.mp hx
    rw [String.toList_append]
    refine .single (.instruction x) ?_
    rw [DumpLine.text, hshown]
    rfl
  have hlabel : Prints [.block b] _ := .single (.block b) rfl
  rw [Block.lines, List.map_eq_flatMap, String.toList_append, String.toList_append]
  exact hlabel.append (.flatMap hcode)

theorem Function.prints_dump {f : Function} {text : String} (h : f.dump = .ok text) :
    Prints f.lines text.toList := by
  obtain ⟨texts, htexts, ⟨⟩⟩ := Outcome.bind_eq_ok.mp h
  have hblocks := Prints.flatMap
    ((Outcome.mapM_eq_ok.mp htexts).imp fun b text hb => b.prints_dump hb)
  have hheader : Prints [.header f] _ := .single (.header f) rfl
  have hclosing : Prints [.closing] _ := .single (.closing) rfl
  have hprints := hheader.append (hblocks.append hclosing)
  -- the break behind the brace is part of its text
  have hopen : (" \x7b\n" : String) = " \x7b" ++ "\n" := rfl
  have hclose : ("\x7d\n" : String) = "\x7d" ++ "\n" := rfl
  rw [hopen, hclose]
  simp only [String.toList_append, List.append_assoc] at hprints ⊢
  exact hprints

theorem Function.prints_dumpAll {functions : List Function} {text : String}
    (h : dumpAll functions = .ok text) : Prints (allLines functions) text.toList := by
  obtain ⟨texts, htexts, ⟨⟩⟩ := Outcome.bind_eq_ok.mp h
  rw [String.toList_intercalate, allLines]
  have hprints := (Outcome.mapM_eq_ok.mp htexts).imp fun f text hf => Function.prints_dump hf
  clear h htexts
  have hblank : Prints [.blank] _ := .single (.blank) rfl
  induction hprints with
  | nil => exact .nil
  | @cons f text rest texts hf hrest ih =>
    cases hrest with
    | nil => simpa using hf
    | cons hnext hrest =>
      rw [List.map_cons, List.map_cons, List.map_cons, List.map_cons] at *
      rw [List.intercalate_cons_cons, List.intercalate_cons_cons, List.append_assoc,
        List.append_assoc]
      exact hf.append (hblank.append ih)

theorem length_lines (f : Function) :
    f.lines.length = 2 + f.blocks.length + f.code.length := by
  have hblocks : (f.blocks.flatMap Block.lines).length = f.blocks.length + f.code.length := by
    unfold Function.code
    induction f.blocks with
    | nil => rfl
    | cons b rest ih => simp [Block.lines, ih]; omega
  simp only [Function.lines, List.length_cons, List.length_append, hblocks, List.length_nil]
  omega

theorem length_allLines (functions : List Function) : (Function.allLines functions).length =
    (functions.map fun f => 2 + f.blocks.length + f.code.length).sum + (functions.length - 1) := by
  unfold Function.allLines
  induction functions with
  | nil => rfl
  | cons f rest ih =>
    cases rest with
    | nil => simp [length_lines]
    | cons g rest =>
      simp only [List.map_cons] at ih ⊢
      rw [List.intercalate_cons_cons, List.length_append, List.length_append, ih, length_lines]
      simp only [List.length_cons, List.length_nil, List.sum_cons]
      omega

theorem mem_allLines {functions : List Function} {line : DumpLine}
    (h : line ∈ Function.allLines functions) : line = .blank ∨ ∃ f ∈ functions, line ∈ f.lines := by
  unfold Function.allLines at h
  induction functions with
  | nil => cases h
  | cons f rest ih =>
    cases rest with
    | nil => exact .inr ⟨f, List.mem_cons_self, by simpa using h⟩
    | cons g rest =>
      simp only [List.map_cons] at h ih
      rw [List.intercalate_cons_cons, List.mem_append, List.mem_append] at h
      rcases h with (h | h) | h
      · exact .inr ⟨f, List.mem_cons_self, h⟩
      · exact .inl (List.mem_singleton.mp h)
      · obtain hblank | ⟨f', hf', hline⟩ := ih h
        · exact .inl hblank
        · exact .inr ⟨f', List.mem_cons_of_mem f hf', hline⟩

theorem mem_code_of_lines {f : Function} {x : Instruction} (h : .instruction x ∈ f.lines) :
    x ∈ f.code := by
  simpa [Function.lines, Block.lines, Function.code] using h

theorem Parameter.breaks_text (p : Parameter) : breaks p.text = breaks p.name := by
  unfold Parameter.text
  split
  · rename_i hempty
    rw [String.isEmpty_iff.mp hempty]
    simp [breaks]
  · simp [breaks]

variable {file : String} {functions : List Function}

theorem Constant.breaks_text {c : Constant} (h : c.IsTyped) : breaks (Value.const c).text = 0 := by
  obtain ⟨-, hadmits⟩ := h
  simp only [Value.text]
  split
  · rfl
  · generalize c.type.kind = kind at hadmits
    generalize c.literal = literal at hadmits
    cases hadmits with
    | boolean value =>
      cases value <;> simp [breaks, TypeKind.boolean, Literal.plainText, Literal.boolText]
    | _ =>
      simp [breaks, TypeKind.number, TypeKind.string, TypeKind.regExp, TypeKind.bigint,
        Literal.plainText]

theorem Value.breaks_text {v : Value} (h : v.Proper file functions) :
    breaks v.text = (v.shownNames.map breaks).sum := by
  cases v with
  | ref id => simp [text, shownNames, breaks]
  | scope id x =>
    simp only [text, shownNames]
    split <;> simp [breaks]
  | func id link =>
    obtain ⟨name, position, f, rfl, -, -⟩ := h
    simp [text, shownNames, breaks]
  | const c =>
    rcases h with hnull | htyped
    · cases hnull
      rfl
    · exact Constant.breaks_text htyped

theorem Instruction.breaks_note (x : Instruction) : breaks x.note = 0 := by
  simp only [note]
  split <;> simp [breaks]

theorem breaks_values {values : List Value} (h : ∀ v ∈ values, v.Proper file functions) :
    breaks (", ".intercalate (values.map Value.text)) =
      ((values.flatMap Value.shownNames).map breaks).sum := by
  rw [breaks_intercalate rfl]
  induction values with
  | nil => rfl
  | cons v rest ih =>
    obtain ⟨hv, hrest⟩ := List.forall_mem_cons.mp h
    rw [List.map_cons, List.map_cons, List.sum_cons, ih hrest, Value.breaks_text hv,
      List.flatMap_cons, List.map_append, List.sum_append]

theorem Instruction.breaks_text {x : Instruction} {text : String} (hx : x.Complete file functions)
    (h : x.text = .ok text) :
    breaks text = ((DumpLine.instruction x).names.map breaks).sum := by
  cases x with
  | call loc dest receiver callee operands =>
    obtain ⟨rfl, values, rfl, hvalues⟩ := hx
    cases h
    have hnames : (DumpLine.instruction (.call loc dest none callee (values.map some))).names =
        callee.shownName :: values.flatMap Value.shownNames :=
      congrArg (fun shown : List Value => callee.shownName :: shown.flatMap Value.shownNames)
        (values_apply loc dest callee values)
    have hshown := breaks_values hvalues
    have htexts : (values.map some).map Value.textOrNil = values.map Value.text := List.map_map
    rw [hnames, List.map_cons, List.sum_cons, ← hshown, htexts]
    generalize ", ".intercalate (values.map Value.text) = shown
    simp [breaks]
  | ret loc value =>
    obtain ⟨v, rfl, hv⟩ := hx
    cases h
    have hnames : (DumpLine.instruction (.ret loc (some v))).names = v.shownNames :=
      List.flatMap_singleton _ _
    rw [hnames, ← Value.breaks_text hv]
    simp [breaks, Value.textOrNil]
  | branch loc target =>
    cases target with
    | none => cases h
    | some link =>
      cases h
      simp [breaks, DumpLine.names, Stats.callee?, values]
  | scope loc id =>
    cases h
    simp [breaks, DumpLine.names, Stats.callee?, values]

theorem DumpLine.breaks_text {line : DumpLine} {text : String}
    (hx : ∀ x, line = .instruction x → x.Complete file functions) (h : line.text = .ok text) :
    breaks text = (line.names.map breaks).sum := by
  cases line with
  | header f =>
    cases h
    have hparameters : breaks (", ".intercalate (f.parameters.map Parameter.text)) =
        ((f.parameters.map (·.name)).map breaks).sum := by
      rw [breaks_intercalate rfl, List.map_map, List.map_map]
      exact congrArg List.sum (List.map_congr_left fun p _ => p.breaks_text)
    rw [names, List.map_cons, List.map_cons, List.sum_cons, List.sum_cons, ← hparameters]
    generalize ", ".intercalate (f.parameters.map Parameter.text) = shown
    simp [breaks]
    omega
  | block b =>
    cases h
    simp [breaks, names]
  | instruction x =>
    obtain ⟨shown, hshown, ⟨⟩⟩ := Outcome.bind_eq_ok.mp h
    have hnote := x.breaks_note
    rw [← Instruction.breaks_text (hx x rfl) hshown]
    unfold breaks at hnote ⊢
    simp [hnote]
  | closing | blank =>
    cases h
    simp [breaks, names]

/-- No name, operator or key of the tree has a break. -/
def Node.Unbroken (node : Node) : Prop :=
  ∀ inner, node.Contains inner → ∀ word ∈ inner.words, '\n' ∉ word.toList

def Stock.unbroken : Stock where
  place _ := True
  number _ := True
  letter c := c ≠ '\n'
  nowhere := trivial
  one := trivial
  visible := by
    rintro c hc rfl
    exact absurd hc (by decide)

theorem Stock.spells_unbroken {text : String} : Stock.unbroken.Spells text ↔ '\n' ∉ text.toList :=
  ⟨fun h hm => h _ hm rfl, fun h _ hc he => h (he ▸ hc)⟩

theorem Node.Unbroken.offers {node : Node} (h : node.Unbroken) : node.Offers .unbroken :=
  .intro trivial (fun _ _ _ _ _ => trivial)
    (fun word hw => Stock.spells_unbroken.mpr (h node .refl word hw))
    fun child hchild => Node.Unbroken.offers fun inner hi => h inner (.head ⟨child.1, hchild⟩ hi)
termination_by sizeOf node
decreasing_by exact Holds.sizeOf_lt ⟨child.1, hchild⟩

/-- The names in the lines of a function are its own, those of its parameters, and those that its
code shows. -/
theorem spells_of_lines {k : Stock} {f : Function} (hf : f.From k) (hn : f.Named k)
    (hd : f.definition = .user f.definition.name file) (hfile : k.Spells file) {line : DumpLine}
    (hline : line ∈ f.lines) : ∀ name ∈ line.names, k.Spells name := by
  cases line with
  | header g =>
    have hg : g = f := by simpa [Function.lines, Block.lines] using hline
    subst hg
    have hsignature : k.Spells (file ++ "." ++ g.definition.name) :=
      (hfile.append (Stock.spells_visible (by decide))).append hn.1
    rw [DumpLine.names, hd]
    exact List.forall_mem_cons.mpr ⟨hn.1, List.forall_mem_cons.mpr
      ⟨hsignature, List.forall_mem_map.mpr hn.2⟩⟩
  | instruction x =>
    have hx := hf x (mem_code_of_lines hline)
    refine List.forall_mem_append.mpr ⟨List.forall_mem_map.mpr fun callee hc => ?_,
      List.forall_mem_flatMap.mpr fun v hv => (hx.values v hv).names⟩
    exact hx.callee callee (Option.mem_toList.mp hc)
  | block | closing | blank => exact List.forall_mem_nil _

/-- Every line has a break behind it, and those in its names. -/
theorem count_newline {lines : List DumpLine} {texts : List String}
    (h : List.Forall₂ (fun line text => breaks text = (line.names.map breaks).sum) lines texts) :
    (texts.flatMap fun text => text.toList ++ ['\n']).count '\n' =
      lines.length + ((lines.flatMap DumpLine.names).map breaks).sum := by
  induction h with
  | nil => rfl
  | @cons line text lines texts hline _ ih =>
    have htext : (text.toList ++ ['\n']).count '\n' = breaks text + 1 := by simp [breaks]
    rw [List.flatMap_cons, List.count_append, htext, ih, hline, List.length_cons, List.flatMap_cons,
      List.map_append, List.sum_append]
    omega

/-- Line by line, a dump shows what the functions hold. It has a header and a closing for each
function, a line for each block and each instruction, and a blank line between functions. Its
breaks are those behind the lines and those in names, whatever the literals are; so these are the
lines of the text exactly if no name has a break. That is so if the program has none in a name, an
operator or a key, nor in the name of the file or of something that the host defines. -/
theorem lower_dump_lines {file : String} {hosts : List String} {node : Node}
    {functions : List Function} (h : (lower file hosts node).1 = .ok functions) :
    functions ≠ [] ∧ ∃ dump texts, Function.dumpAll functions = .ok dump ∧
      List.Forall₂ (fun line text => line.text = .ok text ∧
        breaks text = (line.names.map breaks).sum) (Function.allLines functions) texts ∧
      dump.toList = (texts.flatMap fun text => text.toList ++ ['\n']) ∧
      (Function.allLines functions).length =
        (functions.map fun f => 2 + f.blocks.length + f.code.length).sum +
          (functions.length - 1) ∧
      breaks dump = (Function.allLines functions).length +
        (((Function.allLines functions).flatMap DumpLine.names).map breaks).sum ∧
      (breaks dump = (Function.allLines functions).length ↔
        ∀ line ∈ Function.allLines functions, ∀ name ∈ line.names, '\n' ∉ name.toList) ∧
      ('\n' ∉ file.toList → (∀ host ∈ hosts, '\n' ∉ host.toList) → node.Unbroken →
        breaks dump = (Function.allLines functions).length) := by
  obtain ⟨_, ⟨p⟩⟩ := exists_programRun h
  have hl := linear_of_mem p.comesFrom
  obtain ⟨dumps, hdumps⟩ := exists_forall₂ fun f hf =>
    ((p.complete f hf).whole (hl f hf)).exists_dump
  have hdump : Function.dumpAll functions = .ok ("\n".intercalate dumps) := by
    rw [Function.dumpAll, Outcome.mapM_eq_ok.mpr hdumps]
    rfl
  obtain ⟨texts, htexts, hchars⟩ := Function.prints_dumpAll hdump
  have hcomplete : ∀ line ∈ Function.allLines functions, ∀ x, line = .instruction x →
      x.Complete file functions := by
    rintro line hline x rfl
    obtain hblank | ⟨f, hf, hx⟩ := mem_allLines hline
    · cases hblank
    · exact (p.complete f hf).code x (mem_code_of_lines hx)
  have hlines : List.Forall₂ (fun line text => line.text = .ok text ∧
      breaks text = (line.names.map breaks).sum) (Function.allLines functions) texts :=
    ((List.forall₂_and_left _ _).mpr ⟨hcomplete, htexts⟩).imp fun line text hline =>
      ⟨hline.2, line.breaks_text hline.1 hline.2⟩
  have hcount : breaks ("\n".intercalate dumps) = (Function.allLines functions).length +
      (((Function.allLines functions).flatMap DumpLine.names).map breaks).sum := by
    rw [breaks, hchars]
    exact count_newline (hlines.imp fun _ _ hline => hline.2)
  have hexact : breaks ("\n".intercalate dumps) = (Function.allLines functions).length ↔
      ∀ line ∈ Function.allLines functions, ∀ name ∈ line.names, '\n' ∉ name.toList := by
    rw [hcount, Nat.add_eq_left, List.sum_eq_zero_iff]
    simp only [List.forall_mem_map, List.forall_mem_flatMap]
    exact forall₂_congr fun line hline => forall₂_congr fun name hname => List.count_eq_zero
  refine ⟨?_, _, texts, hdump, hlines, hchars, length_allLines functions, hcount, hexact,
    fun hfile hhosts hnode => hexact.mpr fun line hline name hname => ?_⟩
  · rw [p.output]
    exact List.append_ne_nil_of_right_ne_nil _ (List.cons_ne_nil _ _)
  · obtain rfl | ⟨f, hf, hline⟩ := mem_allLines hline
    · cases hname
    · obtain ⟨hfrom, hnamed⟩ := lower_named h hnode.offers
        (fun host hm => Stock.spells_unbroken.mpr (hhosts host hm)) f hf
      exact Stock.spells_unbroken.mp (spells_of_lines hfrom hnamed (p.complete f hf).definition
        (Stock.spells_unbroken.mpr hfile) hline name hname)

theorem Node.Unbroken.intro {node : Node} (hwords : ∀ word ∈ node.words, '\n' ∉ word.toList)
    (hchildren : ∀ child ∈ node.children, child.2.Unbroken) : node.Unbroken := by
  intro inner hi
  rcases hi.cases_head with rfl | ⟨child, ⟨slot, hc⟩, hi⟩
  · exact hwords
  · exact hchildren (slot, child) hc inner hi

/-- `o["a\nb"]`, with a break in the key. -/
def brokenKey : Node :=
  .program {} "script" [.expressionStatement {} (.member {} (.identifier {} "o")
    (.literal {} { value := .str "a\nb" }) true false)]

/-- `f("a\nb")`, with a break in a literal that is no key. -/
def brokenLiteral : Node :=
  .program {} "script" [.expressionStatement {} (.call {} (.identifier {} "f")
    [.literal {} { value := .str "a\nb" }] false)]

/-- The read of the field takes two lines, but the call takes one. -/
theorem lower_dump_lines_broken : (∃ functions dump,
    (lower "a.js" [] brokenKey).1 = .ok functions ∧ Function.dumpAll functions = .ok dump ∧
      breaks dump = (functions.map fun f => 2 + f.blocks.length + f.code.length).sum +
        (functions.length - 1) + 1) ∧
    ∃ functions dump,
      (lower "a.js" [] brokenLiteral).1 = .ok functions ∧ Function.dumpAll functions = .ok dump ∧
        breaks dump = (functions.map fun f => 2 + f.blocks.length + f.code.length).sum +
          (functions.length - 1) := by
  constructor
  · obtain ⟨functions, h, hnames⟩ := Outcome.exists_ok (x := (lower "a.js" [] brokenKey).1)
      (f := fun output => (((Function.allLines output).flatMap DumpLine.names).map breaks).sum)
      (b := 1) (by decide +kernel)
    obtain ⟨-, dump, texts, hdump, -, -, hlength, hcount, -⟩ := lower_dump_lines h
    refine ⟨functions, dump, h, hdump, ?_⟩
    rw [hcount, hlength, hnames]
  · obtain ⟨functions, h, -⟩ := Outcome.exists_ok (x := (lower "a.js" [] brokenLiteral).1)
      (f := List.length) (b := 1) (by decide +kernel)
    have hcall : Node.Unbroken (.call {} (.identifier {} "f")
        [.literal {} { value := .str "a\nb" }] false) :=
      .intro (List.forall_mem_nil _) (List.forall_mem_cons.mpr ⟨.intro
        (List.forall_mem_singleton.mpr (by decide)) (List.forall_mem_nil _),
        List.forall_mem_singleton.mpr (.intro (List.forall_mem_nil _) (List.forall_mem_nil _))⟩)
    have hnode : brokenLiteral.Unbroken :=
      .intro (List.forall_mem_nil _) (List.forall_mem_singleton.mpr (.intro (List.forall_mem_nil _)
        (List.forall_mem_singleton.mpr hcall)))
    obtain ⟨-, dump, texts, hdump, -, -, hlength, -, -, hunbroken⟩ := lower_dump_lines h
    refine ⟨functions, dump, h, hdump, ?_⟩
    rw [hunbroken (by decide) (List.forall_mem_nil _) hnode, hlength]

end ScopeIR
