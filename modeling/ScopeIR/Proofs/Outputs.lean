import Mathlib.Tactic.Choose
import ScopeIR.Proofs.Batches
import ScopeIR.Proofs.Directories
import ScopeIR.Proofs.Renderings

/-! Outputs in a directory. Each is named after its file, without directories and extension, so
that files which have only that name in common share an output: the last of them stays, and the
command succeeds. -/
namespace ScopeIR.CommandLine

open Effect

variable {w w' : World} {settings : Settings} {name text : String}

def target (settings : Settings) (name : String) : String :=
  outputName settings.dir settings.outputFormat.extension name

def place (settings : Settings) (name : String) : Path :=
  Path.clean settings.dir ++ [baseName name ++ settings.outputFormat.extension]

theorem slash_notMem_baseName (name : String) : '/' ∉ (baseName name).toList := by
  have hlast : '/' ∉ ((Path.ofString name).getLast?.getD "").toList := by
    cases h : (Path.ofString name).getLast? with
    | none => exact List.not_mem_nil
    | some part => exact Path.slash_notMem_of_mem_ofString (List.mem_of_getLast? h)
  unfold baseName
  extract_lets last
  split
  · rename_i c stem hstem
    rw [String.toList_ofList, List.mem_reverse]
    intro hmem
    have hdrop : '/' ∈ last.reverse.dropWhile (· != '.') := hstem ▸ List.mem_cons_of_mem c hmem
    exact hlast (List.mem_reverse.mp ((List.dropWhile_suffix _).subset hdrop))
  · rwa [String.toList_ofList]

theorem isName_output (name : String) (format : OutputFormat) :
    Path.IsName (baseName name ++ format.extension) where
  proper := by
    have hlength : 2 < (baseName name ++ format.extension).length := by
      have hextension : 2 < format.extension.length := by cases format <;> decide
      rw [String.length_append]
      omega
    intro hmem
    have hshort : ∀ part ∈ ["", ".", ".."], part.length ≤ 2 := by decide
    exact absurd hlength (Nat.not_lt.mpr (hshort _ hmem))
  undivided := by
    have hextension : '/' ∉ format.extension.toList := by cases format <;> decide
    rw [String.toList_append, List.mem_append, not_or]
    exact ⟨slash_notMem_baseName name, hextension⟩

theorem place_inj {name other : String} :
    place settings name = place settings other ↔ baseName name = baseName other := by
  simp [place]

theorem target_eq (hdir : settings.dir ≠ "") (name : String) :
    target settings name = Path.toString (place settings name) := by
  rw [target, outputName, String.append_assoc,
    Path.clean_append_name hdir (isName_output name _)]
  rfl

theorem exists_cleaned_place (settings : Settings) (name : String) :
    ∃ start rest, place settings name = start ++ rest ∧ rest ≠ [] ∧ Path.Cleaned start rest := by
  obtain ⟨rest, hclean, hcleaned⟩ := Path.exists_cleaned settings.dir
  refine ⟨_, _, ?_, List.append_ne_nil_of_right_ne_nil _ (List.cons_ne_nil _ _),
    hcleaned.append (isName_output name settings.outputFormat)⟩
  rw [place, hclean, List.append_assoc]

theorem clean_target (hdir : settings.dir ≠ "") (name : String) :
    Path.clean (target settings name) = place settings name := by
  obtain ⟨start, rest, hplace, hne, hcleaned⟩ := exists_cleaned_place settings name
  rw [target_eq hdir, hplace, hcleaned.clean_toString hne]

/-- A file can be written under the name. -/
def World.admits (w : World) (name : String) : Bool :=
  (w.entry name).isOpen && Directory.fits name

namespace Effect

theorem get_bind {α : Type} (f : World → Effect α) (w : World) : (get >>= f) w = f w w := rfl

theorem bind_unit_eq_ok {α : Type} {x : Effect Unit} {f : Unit → Effect α} {a : α} :
    (x >>= f) w = .ok a w' ↔ ∃ w₁, x w = .ok () w₁ ∧ f () w₁ = .ok a w' := by
  rw [bind_eq_ok]
  constructor
  · rintro ⟨_, w₁, h⟩
    exact ⟨w₁, h⟩
  · rintro ⟨w₁, h⟩
    exact ⟨(), w₁, h⟩

theorem set_eq_ok {w₁ : World} : (set w₁ : Effect Unit) w = .ok () w' ↔ w₁ = w' := by
  change EStateM.Result.ok () w₁ = _ ↔ _
  simp

theorem throw_ne_ok {α : Type} {failure : Failure} {a : α} :
    (throw failure : Effect α) w ≠ .ok a w' := nofun

theorem writeFile_eq_ok : writeFile name text w = .ok () w' ↔
    w.admits name ∧ { w with files := w.files.write name text } = w' := by
  rw [writeFile, get_bind, World.admits]
  cases w.entry name with
  | file _ | missing =>
    by_cases hfits : Directory.fits name
    · simp [Directory.Entry.isOpen, hfits, set_eq_ok]
    · simp [Directory.Entry.isOpen, hfits, throw_ne_ok]
  | _ => simp [Directory.Entry.isOpen, throw_ne_ok]

theorem makeDirectory_eq_ok {dir : String} : makeDirectory dir w = .ok () w' ↔
    dir ∈ w.made ∧ w = w' ∨ dir ∉ w.made ∧ w.files.makeAll dir = .ok () ∧
      { w with made := w.made ++ Directory.lineage dir } = w' := by
  rw [makeDirectory, get_bind]
  by_cases hmade : dir ∈ w.made
  · have hcontains : w.made.contains dir := List.contains_iff_mem.mpr hmade
    rw [if_pos hcontains]
    change EStateM.Result.ok () w = _ ↔ _
    simp [hmade]
  · have hcontains : ¬ w.made.contains dir := fun h => hmade (List.contains_iff_mem.mp h)
    rw [if_neg hcontains, bind_unit_eq_ok]
    constructor
    · rintro ⟨w₁, hlift, hset⟩
      obtain ⟨hmake, rfl⟩ := lift_eq_ok.mp hlift
      exact .inr ⟨hmade, hmake, set_eq_ok.mp hset⟩
    · rintro (⟨hmem, -⟩ | ⟨-, hmake, hset⟩)
      · exact absurd hmem hmade
      · exact ⟨w, lift_eq_ok.mpr ⟨hmake, rfl⟩, set_eq_ok.mpr hset⟩

end Effect

theorem mem_lineage {dir : String} (h : dir ≠ "") : dir ∈ Directory.lineage dir := by
  rw [ne_eq, ← String.toList_eq_nil_iff] at h
  obtain ⟨c, chars, hchars⟩ := List.exists_cons_of_ne_nil h
  have hlength : dir.length = chars.length + 1 := by
    rw [← String.length_toList, hchars, List.length_cons]
  have hdir : dir = String.ofList (c :: chars) := by rw [← hchars, String.ofList_toList]
  rw [Directory.lineage, hlength, hchars, Directory.around, ← hdir]
  · exact List.mem_append_right _ (List.mem_singleton_self dir)
  · exact List.cons_ne_nil c chars

theorem admits_target (hdir : settings.dir ≠ "") (name : String) :
    w.admits (target settings name) ↔ (∀ dir ∈ w.made, Path.clean dir ≠ place settings name) ∧
      Directory.fits (target settings name) ∧ '\x00' ∉ (target settings name).toList ∧
      w.files.HasRoom (place settings name) := by
  obtain ⟨start, rest, hplace, hne, hcleaned⟩ := exists_cleaned_place settings name
  have hopen := fun hfits => Directory.isOpen_entry (d := w.files) hcleaned hne hfits
  rw [← hplace, ← target_eq hdir] at hopen
  have hentry : (w.entry (target settings name)).isOpen ↔
      (∀ dir ∈ w.made, Path.clean dir ≠ place settings name) ∧
        (w.files.entry (target settings name)).isOpen := by
    rw [World.entry, clean_target hdir]
    by_cases hmade : ∃ dir ∈ w.made, Path.clean dir = place settings name
    · rw [if_pos (by simpa using hmade)]
      refine ⟨nofun, fun h => ?_⟩
      obtain ⟨dir, hmem, hclean⟩ := hmade
      exact absurd hclean (h.1 dir hmem)
    · rw [if_neg (by simpa using hmade)]
      refine (and_iff_right fun dir hmem hclean => ?_).symm
      exact hmade ⟨dir, hmem, hclean⟩
  rw [World.admits, Bool.and_eq_true, hentry, and_assoc, and_comm (b := Directory.fits _ = true)]
  exact and_congr_right fun _ => and_congr_right hopen

theorem admits_write_iff (hdir : settings.dir ≠ "") (h : w.admits (target settings name))
    (other : String) :
    World.admits { w with files := w.files.write (target settings name) text }
      (target settings other) ↔ w.admits (target settings other) := by
  rw [admits_target hdir] at h ⊢
  rw [admits_target hdir, place, h.2.2.2.write_iff (clean_target hdir name)]

theorem writeOutput_eq_ok {c : Compiled} (hdir : settings.dir ≠ "")
    (hr : render c settings.outputFormat = .ok text) : writeOutput settings c w = .ok () w' ↔
      ∃ w₁, makeDirectory settings.dir w = .ok () w₁ ∧ w₁.admits (target settings c.file) ∧
        { w₁ with files := w₁.files.write (target settings c.file) text } = w' := by
  have hempty : ¬ settings.dir.isEmpty := by simpa using hdir
  rw [writeOutput, hr, bind_of_ok (lift_eq_ok.mpr ⟨rfl, rfl⟩), if_neg hempty, bind_unit_eq_ok]
  simp only [within_eq_ok]
  exact exists_congr fun w₁ => and_congr_right fun _ => writeFile_eq_ok

theorem writeOutput_eq_ok_of_made {c : Compiled} (hdir : settings.dir ≠ "")
    (hmade : settings.dir ∈ w.made) (hr : render c settings.outputFormat = .ok text) :
    writeOutput settings c w = .ok () w' ↔ w.admits (target settings c.file) ∧
      { w with files := w.files.write (target settings c.file) text } = w' := by
  simp only [writeOutput_eq_ok hdir hr, makeDirectory_eq_ok, hmade, true_and, not_true_eq_false,
    false_and, or_false, exists_eq_left']

theorem writeOutput_eq_ok_of_not_made {c : Compiled} (hdir : settings.dir ≠ "")
    (hmade : settings.dir ∉ w.made) (hr : render c settings.outputFormat = .ok text) :
    writeOutput settings c w = .ok () w' ↔ w.files.makeAll settings.dir = .ok () ∧
      writeOutput settings c { w with made := w.made ++ Directory.lineage settings.dir } =
        .ok () w' := by
  have hmem : settings.dir ∈ w.made ++ Directory.lineage settings.dir :=
    List.mem_append_right _ (mem_lineage hdir)
  rw [writeOutput_eq_ok_of_made (w := { w with made := w.made ++ _ }) hdir hmem hr]
  simp only [writeOutput_eq_ok hdir hr, makeDirectory_eq_ok, hmade, false_and, not_false_eq_true,
    true_and, false_or, and_assoc, exists_and_left, exists_eq_left']

theorem writeOutputs_nil_eq_ok : writeOutputs settings [] w = .ok () w' ↔ w = w' := by
  change EStateM.Result.ok () w = _ ↔ _
  simp

theorem writeOutputs_cons_eq_ok {c : Compiled} {compiled : List Compiled} :
    writeOutputs settings (c :: compiled) w = .ok () w' ↔
      ∃ w₁, writeOutput settings c w = .ok () w₁ ∧ writeOutputs settings compiled w₁ = .ok () w' := by
  change (within _ (writeOutput settings c) >>= fun _ => writeOutputs settings compiled) w = _ ↔ _
  rw [bind_unit_eq_ok]
  simp only [within_eq_ok]

def outputs (settings : Settings) (text : String → String) (names : List String) :
    List (String × String) :=
  names.map fun name => (target settings name, text name)

/-- Outputs are written one after the other to a directory that is there, if each of them can be
written. -/
theorem writeOutputs_eq_ok_of_made {compiled : List Compiled} {text : String → String}
    (hdir : settings.dir ≠ "") (hmade : settings.dir ∈ w.made)
    (hr : ∀ c ∈ compiled, render c settings.outputFormat = .ok (text c.file)) :
    writeOutputs settings compiled w = .ok () w' ↔
      (∀ name ∈ compiled.map (·.file), w.admits (target settings name)) ∧
        { w with files := w.files.writeAll (outputs settings text (compiled.map (·.file))) } =
          w' := by
  induction compiled generalizing w with
  | nil => simp [writeOutputs_nil_eq_ok, outputs, Directory.writeAll]
  | cons c compiled ih =>
    rw [List.forall_mem_cons] at hr
    rw [writeOutputs_cons_eq_ok, List.map_cons, List.forall_mem_cons, outputs, List.map_cons,
      Directory.writeAll_cons, ← outputs]
    simp only [writeOutput_eq_ok_of_made hdir hmade hr.1]
    have hrest := ih (w := { w with files := w.files.write (target settings c.file) (text c.file) })
      hmade hr.2
    constructor
    · rintro ⟨_, ⟨hadmits, rfl⟩, h⟩
      obtain ⟨hothers, hfinal⟩ := hrest.mp h
      refine ⟨⟨hadmits, fun name hn => ?_⟩, hfinal⟩
      exact (admits_write_iff hdir hadmits name).mp (hothers name hn)
    · rintro ⟨⟨hadmits, hothers⟩, hfinal⟩
      refine ⟨_, ⟨hadmits, rfl⟩, hrest.mpr ⟨?_, hfinal⟩⟩
      exact fun name hn => (admits_write_iff hdir hadmits name).mpr (hothers name hn)

theorem writeOutputs_eq_ok {compiled : List Compiled} {text : String → String}
    (hdir : settings.dir ≠ "") (hmade : w.made = []) (hne : compiled ≠ [])
    (hr : ∀ c ∈ compiled, render c settings.outputFormat = .ok (text c.file)) :
    writeOutputs settings compiled w = .ok () w' ↔ w.files.makeAll settings.dir = .ok () ∧
      (∀ name ∈ compiled.map (·.file),
        World.admits { w with made := Directory.lineage settings.dir } (target settings name)) ∧
      { w with
        made := Directory.lineage settings.dir
        files := w.files.writeAll (outputs settings text (compiled.map (·.file))) } = w' := by
  have hnew : settings.dir ∉ w.made := hmade ▸ List.not_mem_nil
  obtain ⟨c, compiled, rfl⟩ := List.exists_cons_of_ne_nil hne
  rw [← writeOutputs_eq_ok_of_made (w := { w with made := Directory.lineage settings.dir }) hdir
    (mem_lineage hdir) hr]
  simp only [writeOutputs_cons_eq_ok,
    writeOutput_eq_ok_of_not_made hdir hnew (hr c List.mem_cons_self), hmade, List.nil_append,
    and_assoc, exists_and_left]

/-- Whether all outputs can be written is known before the first is. -/
theorem exists_writeOutputs_iff {compiled : List Compiled} {text : String → String}
    (hdir : settings.dir ≠ "") (hmade : w.made = [])
    (hr : ∀ c ∈ compiled, render c settings.outputFormat = .ok (text c.file)) :
    (∃ w', writeOutputs settings compiled w = .ok () w') ↔ compiled.map (·.file) = [] ∨
      w.files.makeAll settings.dir = .ok () ∧ ∀ name ∈ compiled.map (·.file),
        World.admits { w with made := Directory.lineage settings.dir } (target settings name) := by
  by_cases hnil : compiled = []
  · subst hnil
    exact iff_of_true ⟨w, rfl⟩ (.inl rfl)
  · simp only [writeOutputs_eq_ok hdir hmade hnil hr, exists_and_left, exists_eq', and_true,
      List.map_eq_nil_iff, hnil, false_or]

theorem files_of_writeOutputs {compiled : List Compiled} {text : String → String}
    (hdir : settings.dir ≠ "") (hmade : w.made = [])
    (hr : ∀ c ∈ compiled, render c settings.outputFormat = .ok (text c.file))
    (h : writeOutputs settings compiled w = .ok () w') : w'.stdout = w.stdout ∧
      w'.files = w.files.writeAll (outputs settings text (compiled.map (·.file))) := by
  by_cases hnil : compiled = []
  · subst hnil
    cases h
    exact ⟨rfl, rfl⟩
  · obtain ⟨-, -, rfl⟩ := (writeOutputs_eq_ok hdir hmade hnil hr).mp h
    exact ⟨rfl, rfl⟩

def outputText (files : Directory) (settings : Settings) (name : String) : Outcome String := do
  let functions ← (compileFile files ⟨settings.globals, settings.verify⟩ name).functions
  render ⟨name, functions⟩ settings.outputFormat

theorem exists_outputText {files : Directory} {functions : List Function}
    (h : (compileFile files ⟨settings.globals, settings.verify⟩ name).functions = .ok functions) :
    ∃ text, outputText files settings name = .ok text ∧
      render ⟨name, functions⟩ settings.outputFormat = .ok text := by
  obtain ⟨source, hsource⟩ : ∃ source,
      (compile ⟨settings.globals, settings.verify⟩ name source).functions = .ok functions := by
    unfold compileFile at h
    split at h
    · cases h
    · exact ⟨_, h⟩
  obtain ⟨text, htext⟩ := exists_render hsource settings.outputFormat
  refine ⟨text, ?_, htext⟩
  rw [outputText, h, Outcome.ok_bind, htext]

theorem transpile_eq_writeOutputs {i : Invocation} {w₁ : World}
    (hworkers : Batch.Sound w.workers) (hsettings : configure i w = .ok settings w₁)
    (hcompile : ∀ name ∈ i.arguments, ∃ functions,
      (compileFile w.files ⟨settings.globals, settings.verify⟩ name).functions = .ok functions) :
    ∃ compiled topics log, List.Forall₂ (fun name c => c.file = name ∧
        (compileFile w.files ⟨settings.globals, settings.verify⟩ name).functions =
          .ok c.functions) i.arguments compiled ∧
      transpile i w = writeOutputs settings compiled { w with topics, log } := by
  obtain ⟨topics, rfl⟩ := configure_eq_ok hsettings
  obtain ⟨p, hp⟩ := hworkers settings.jobs
    (tasksOf w.files ⟨settings.globals, settings.verify⟩ i.arguments)
  rw [tasksOf, List.length_map] at hp
  have hall := allOrFailure hp
  obtain ⟨compiled, hresults⟩ := hall.success.mpr hcompile
  obtain ⟨log, hlog⟩ := compileAll_eq settings i.arguments { w with topics }
  refine ⟨compiled, topics, log, hall.each compiled hresults, ?_⟩
  rw [transpile, bind_of_ok hsettings]
  refine bind_of_ok (hlog.trans ?_)
  exact lift_eq_ok.mpr ⟨hresults, rfl⟩

/-- The output for a file is where it was written. -/
def Holds (settings : Settings) (before after : Directory) (name : String) : Prop :=
  ∃ text, outputText before settings name = .ok text ∧
    after.file? (place settings name) = some text

/-- Where outputs go stands the text for the last of the files that have it there. All other
files are as they were. -/
structure LastStays (settings : Settings) (names : List String) (before after : Directory) :
    Prop where
  last : ∀ earlier name later, names = earlier ++ name :: later →
    baseName name ∉ later.map baseName → Holds settings before after name
  others : ∀ path, (∀ name ∈ names, place settings name ≠ path) →
    after.file? path = before.file? path

/-- One output for each file, at a path of its own. -/
structure OneEach (settings : Settings) (names : List String) (before after : Directory) :
    Prop where
  apart : (names.map (place settings)).Nodup
  holds : ∀ name ∈ names, Holds settings before after name

theorem lastStays_writeAll {names : List String} {text : String → String} {before : Directory}
    (hdir : settings.dir ≠ "")
    (htext : ∀ name ∈ names, outputText before settings name = .ok (text name)) :
    LastStays settings names before (before.writeAll (outputs settings text names)) where
  last := by
    rintro earlier name later rfl hlast
    refine ⟨text name, htext name (by simp), ?_⟩
    rw [← clean_target hdir, outputs, List.map_append, List.map_cons]
    refine Directory.file?_writeAll_last (List.forall_mem_map.mpr fun other hother => ?_)
    rw [clean_target hdir, clean_target hdir, ne_eq, place_inj]
    exact fun heq => hlast (heq ▸ List.mem_map_of_mem hother)
  others path hpath := by
    refine Directory.file?_writeAll_of_ne (List.forall_mem_map.mpr fun name hn => ?_)
    rw [clean_target hdir]
    exact hpath name hn

theorem LastStays.oneEach_iff {names : List String} {before after : Directory}
    (h : LastStays settings names before after) :
    OneEach settings names before after ↔ (names.map baseName).Nodup := by
  have hapart : (names.map (place settings)).Nodup ↔ (names.map baseName).Nodup := by
    simp only [List.Nodup, List.pairwise_map, ne_eq, place_inj]
  refine ⟨fun hone => hapart.mp hone.apart, fun hnodup => ⟨hapart.mpr hnodup, fun name hn => ?_⟩⟩
  obtain ⟨earlier, later, rfl⟩ := List.append_of_mem hn
  refine h.last earlier name later rfl ?_
  rw [List.map_append, List.map_cons] at hnodup
  exact (List.nodup_cons.mp hnodup.of_append_right).1

/-- Documents of different files do not stand in for each other. -/
theorem name_eq_of_holds {before after : Directory} {other : String}
    (hformat : settings.outputFormat = .json) (hbase : baseName name = baseName other)
    (h : Holds settings before after name) (h' : Holds settings before after other) :
    name = other := by
  obtain ⟨text, htext, hfile⟩ := h
  obtain ⟨text', htext', hfile'⟩ := h'
  rw [place_inj.mpr hbase] at hfile
  obtain rfl := Option.some.inj (hfile.symm.trans hfile')
  rw [outputText, hformat] at htext htext'
  obtain ⟨functions, -, hrender⟩ := Outcome.bind_eq_ok.mp htext
  obtain ⟨functions', -, hrender'⟩ := Outcome.bind_eq_ok.mp htext'
  exact Document.file_of_marshal hrender hrender'

/-- If all files can be compiled, the command succeeds if and only if the output directory can be
made and each output can be written there, as things stand before. It then leaves, for each output
name, the text for the last of the files with that name, and all other files as they were. There
is one output for each file if and only if no two files have the same name without directories and
extension. If two different files have, the document of one of them is lost. -/
theorem transpile_leaves {i : Invocation} {w w₁ : World} {settings : Settings}
    (hworkers : Batch.Sound w.workers) (hmade : w.made = [])
    (hsettings : configure i w = .ok settings w₁) (hdir : settings.dir ≠ "")
    (hcompile : ∀ name ∈ i.arguments, ∃ functions,
      (compileFile w.files ⟨settings.globals, settings.verify⟩ name).functions = .ok functions) :
    ((∃ w₂, transpile i w = .ok () w₂) ↔ i.arguments = [] ∨
      w.files.makeAll settings.dir = .ok () ∧ ∀ name ∈ i.arguments,
        World.admits { w with made := Directory.lineage settings.dir } (target settings name)) ∧
    ∀ w₂, transpile i w = .ok () w₂ → w₂.stdout = w.stdout ∧
      LastStays settings i.arguments w.files w₂.files ∧
      (OneEach settings i.arguments w.files w₂.files ↔ (i.arguments.map baseName).Nodup) ∧
      (settings.outputFormat = .json → i.arguments.Nodup →
        ((∀ name ∈ i.arguments, Holds settings w.files w₂.files name) ↔
          (i.arguments.map baseName).Nodup)) := by
  obtain ⟨compiled, topics, log, hcompiled, htranspile⟩ :=
    transpile_eq_writeOutputs hworkers hsettings hcompile
  have hnames : compiled.map (·.file) = i.arguments := by
    rw [map_eq_of_forall₂ (f := id) (hcompiled.imp fun _ _ => And.left), List.map_id]
  choose! text htext using fun name hn =>
    (hcompile name hn).elim fun _ hf => (exists_outputText hf).imp fun _ => And.left
  have hr : ∀ c ∈ compiled, render c settings.outputFormat = .ok (text c.file) := by
    intro c hc
    obtain ⟨name, hn, rfl, hf⟩ := exists_of_forall₂_of_mem hcompiled hc
    obtain ⟨t, ht, hrender⟩ := exists_outputText hf
    cases (htext c.file hn).symm.trans ht
    exact hrender
  rw [htranspile, ← hnames]
  refine ⟨exists_writeOutputs_iff hdir hmade hr, fun w₂ h => ?_⟩
  obtain ⟨hstdout, hfiles⟩ := files_of_writeOutputs (w := { w with topics, log }) hdir hmade hr h
  have hlast : LastStays settings (compiled.map (·.file)) w.files w₂.files := by
    rw [hfiles]
    exact lastStays_writeAll hdir (hnames ▸ htext)
  refine ⟨hstdout, hlast, hlast.oneEach_iff, fun hformat hnodup => ⟨fun hholds => ?_, fun hbases =>
    (hlast.oneEach_iff.mpr hbases).holds⟩⟩
  refine hnodup.map_on fun name hn other ho hbase => ?_
  exact name_eq_of_holds hformat hbase (hholds name hn) (hholds other ho)

def sameNames : World :=
  let program := "\x7b\"type\":\"Program\"\x7d"
  { files := ⟨[("x", program), ("d/x", program)]⟩ }

theorem transpile_leaves_lastDocument : ∃ w text,
    transpile { arguments := ["x", "d/x"], out := "o" } sameNames = .ok () w ∧
      outputText sameNames.files { dir := "o" } "d/x" = .ok text ∧
      w.files.file? ["o", "x.ir.json"] = some text ∧
      ¬ Holds { dir := "o" } sameNames.files w.files "x" ∧
      ¬ OneEach { dir := "o" } ["x", "d/x"] sameNames.files w.files := by
  have hcompile : ∀ name ∈ ["x", "d/x"], ∃ functions,
      (compileFile sameNames.files ⟨[], true⟩ name).functions = .ok functions := by
    have hok : ∀ name ∈ ["x", "d/x"],
        (compileFile sameNames.files ⟨[], true⟩ name).functions.toOption.map (fun _ => ()) =
          some () := by decide +kernel
    intro name hn
    obtain ⟨functions, hf, -⟩ := Outcome.exists_ok (hok name hn)
    exact ⟨functions, hf⟩
  obtain ⟨hsuccess, hleaves⟩ := transpile_leaves (i := { arguments := ["x", "d/x"], out := "o" })
    (w := sameNames) Batch.sound_oneByOne rfl rfl (by decide) hcompile
  obtain ⟨w, h⟩ := hsuccess.mpr (.inr ⟨by decide +kernel, by decide +kernel⟩)
  obtain ⟨-, hlast, hone, hdocuments⟩ := hleaves w h
  have hsame : ¬ (["x", "d/x"].map baseName).Nodup := by decide
  obtain ⟨text, htext, hfile⟩ := hlast.last ["x"] "d/x" [] rfl List.not_mem_nil
  refine ⟨w, text, h, htext, hfile, fun hx => ?_, fun heach => hsame (hone.mp heach)⟩
  refine hsame ((hdocuments rfl (by decide)).mp ?_)
  exact List.forall_mem_cons.mpr ⟨hx, List.forall_mem_singleton.mpr ⟨text, htext, hfile⟩⟩

end ScopeIR.CommandLine
