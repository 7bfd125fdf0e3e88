import Mathlib.Data.List.Infix
import ScopeIR.Proofs.Paths

/-! Files that are written one after the other. A file is found where it was written, the last
text for a path is the one that stays, and files that are written to one directory are not in
each other's way. -/
namespace ScopeIR.Directory

variable {d : Directory} {path start rest front : Path} {name text part : String}

theorem file?_write (d : Directory) (name text : String) (path : Path) :
    (d.write name text).file? path =
      if Path.clean name = path then some text else d.file? path := by
  obtain ⟨files⟩ := d
  unfold write file?
  dsimp only
  induction files with
  | nil =>
    by_cases h : Path.clean name = path <;> simp [setFile, h]
  | cons file files ih =>
    rw [setFile]
    by_cases hsame : Path.clean file.1 = Path.clean name
    · rw [if_pos hsame]
      by_cases h : Path.clean name = path <;> simp [hsame, h]
    · rw [if_neg hsame]
      by_cases hfile : Path.clean file.1 = path
      · have hne : Path.clean name ≠ path := fun h => hsame (hfile.trans h.symm)
        simp [hfile, hne]
      · simpa [hfile] using ih

theorem exists_mem_setFile {files : List (String × String)} {P : Path → Prop} :
    (∃ file ∈ setFile name text files, P (Path.clean file.1)) ↔
      (∃ file ∈ files, P (Path.clean file.1)) ∨ P (Path.clean name) := by
  induction files with
  | nil => simp [setFile]
  | cons file files ih =>
    rw [setFile]
    split
    · rename_i hsame
      simp only [List.exists_mem_cons_iff, hsame]
      exact (or_iff_left_of_imp .inl).symm
    · simp only [List.exists_mem_cons_iff, ih, or_assoc]

theorem isDirectory_iff : d.isDirectory path ↔ (∀ part ∈ path, part = ".." ∨ part = "") ∨
    ∃ file ∈ d.files, path <+: Path.clean file.1 ∧ path ≠ Path.clean file.1 := by
  simp [isDirectory]

theorem isDirectory_write : (d.write name text).isDirectory path ↔
    d.isDirectory path ∨ path <+: Path.clean name ∧ path ≠ Path.clean name := by
  rw [isDirectory_iff, isDirectory_iff, write, or_assoc,
    exists_mem_setFile (P := fun other => path <+: other ∧ path ≠ other)]

theorem isDirectory_of_append (h : d.isDirectory (path ++ rest)) : d.isDirectory path := by
  rw [isDirectory_iff] at h ⊢
  rcases h with h | ⟨file, hf, hbelow, hne⟩
  · exact .inl (List.forall_mem_append.mp h).1
  · refine .inr ⟨file, hf, (List.prefix_append _ _).trans hbelow, fun heq => hne ?_⟩
    exact hbelow.eq_of_length_le (heq ▸ by simp)

theorem isDirectory_of_file? (h : d.file? (path ++ rest) = some text) (hne : rest ≠ []) :
    d.isDirectory path := by
  obtain ⟨file, hfind, -⟩ := Option.map_eq_some_iff.mp h
  have hclean : Path.clean file.1 = path ++ rest := by simpa using List.find?_some hfind
  refine isDirectory_iff.mpr (.inr ⟨file, List.mem_of_find?_eq_some hfind, ?_⟩)
  rw [hclean]
  exact ⟨List.prefix_append _ _, by simpa using hne⟩

/-- A file can be written where it is found or nothing is. -/
def Entry.isOpen : Entry → Bool
  | .file _ | .missing => true
  | _ => false

/-- There is room for a file at the path: no directory is there, and no file where its
directories are. -/
structure HasRoom (d : Directory) (path : Path) : Prop where
  free : ¬ d.isDirectory path
  above : ∀ dir, dir <+: path → dir ≠ path → d.isDirectory dir ∨ d.file? dir = none

theorem isOpen_follow (hs : Path.Straight start rest)
    (hlengths : ∀ part ∈ rest, part.utf8ByteSize ≤ maxPart)
    (habove : ∀ dir, dir <+: start → dir ≠ start → d.isDirectory dir) :
    (d.follow start rest).isOpen ↔ d.HasRoom (start ++ rest) := by
  induction rest generalizing start with
  | nil =>
    rw [List.append_nil, follow]
    constructor
    · intro h
      refine ⟨fun hdir => ?_, fun dir hdir hne => .inl (habove dir hdir hne)⟩
      rw [if_pos hdir] at h
      cases h
    · intro h
      rw [if_neg h.free]
      cases d.file? start <;> rfl
  | cons part rest ih =>
    rw [List.forall_mem_cons] at hlengths
    rw [follow]
    by_cases hdir : d.isDirectory start
    · rw [if_pos hdir, if_neg (Nat.not_lt.mpr hlengths.1), hs.1, ih hs.2 hlengths.2,
        List.append_assoc, List.singleton_append]
      intro dir hpre hne
      rcases List.prefix_concat_iff.mp hpre with heq | hpre
      · exact absurd heq hne
      · by_cases heq : dir = start
        · exact heq ▸ hdir
        · exact habove dir hpre heq
    · rw [if_neg hdir]
      cases hfile : d.file? start with
      | some text =>
        refine ⟨nofun, fun h => ?_⟩
        rcases h.above start (List.prefix_append _ _) (by simp) with h | h
        · exact absurd h hdir
        · cases hfile.symm.trans h
      | none =>
        refine ⟨fun _ => ⟨fun h => hdir (isDirectory_of_append h), fun dir hpre hne => ?_⟩,
          fun _ => rfl⟩
        -- Nothing is below the start, and all directories above it are there.
        rcases List.prefix_or_prefix_of_prefix hpre (List.prefix_append start _) with h | h
        · by_cases heq : dir = start
          · exact .inr (heq ▸ hfile)
          · exact .inl (habove dir h heq)
        · obtain ⟨more, rfl⟩ := h
          refine .inr (Option.eq_none_iff_forall_ne_some.mpr fun text htext => ?_)
          cases more with
          | nil =>
            rw [List.append_nil] at htext
            cases hfile.symm.trans htext
          | cons _ _ => exact hdir (isDirectory_of_file? htext (List.cons_ne_nil _ _))

theorem follow_start (h : Path.Cleaned start rest) :
    d.follow start (start ++ rest) = d.follow start rest := by
  rcases h.fixed with rfl | rfl
  · rfl
  · have hroot : d.isDirectory [""] := isDirectory_iff.mpr (.inl (by simp))
    rw [List.singleton_append, follow, if_pos hroot, if_neg (by decide)]
    rfl

theorem isOpen_entry (h : Path.Cleaned start rest) (hne : rest ≠ [])
    (hfits : fits (Path.toString (start ++ rest))) :
    (d.entry (Path.toString (start ++ rest))).isOpen ↔
      '\x00' ∉ (Path.toString (start ++ rest)).toList ∧ d.HasRoom (start ++ rest) := by
  obtain ⟨hlength, hlengths⟩ := Bool.and_eq_true_iff.mp hfits
  rw [h.ofString_toString hne, List.all_append, Bool.and_eq_true] at hlengths
  have hfollow : (d.follow start rest).isOpen ↔ d.HasRoom (start ++ rest) := by
    refine isOpen_follow h.straight (by simpa using hlengths.2) fun dir hpre _ => ?_
    refine isDirectory_iff.mpr (.inl fun part hpart => .inr ?_)
    have hmem := hpre.subset hpart
    rcases h.fixed with rfl | rfl
    · cases hmem
    · exact List.mem_singleton.mp hmem
  rw [entry, if_neg (Nat.not_le.mpr (of_decide_eq_true hlength)), h.root_toString hne,
    h.ofString_toString hne, follow_start h, ← hfollow]
  by_cases hnul : '\x00' ∈ (Path.toString (start ++ rest)).toList
  · simp [hnul, Entry.isOpen]
  · simp [hnul, h.toString_ne_empty hne]

/-- Files of one directory leave each other the room that they have. -/
theorem HasRoom.write_iff {other : String} (h : d.HasRoom (front ++ [other]))
    (hname : Path.clean name = front ++ [other]) :
    (d.write name text).HasRoom (front ++ [part]) ↔ d.HasRoom (front ++ [part]) := by
  have habove : ∀ dir, dir <+: front ++ [part] → dir ≠ front ++ [part] →
      dir <+: front ++ [other] ∧ dir ≠ front ++ [other] := by
    intro dir hpre hne
    have hfront : dir <+: front := (List.prefix_concat_iff.mp hpre).resolve_left hne
    refine ⟨hfront.trans (List.prefix_append _ _), ?_⟩
    rintro rfl
    exact absurd hfront.length_le (by simp)
  have hfree : (d.write name text).isDirectory (front ++ [part]) ↔
      d.isDirectory (front ++ [part]) := by
    rw [isDirectory_write, hname, or_iff_left]
    rintro ⟨hpre, hne⟩
    exact hne (hpre.eq_of_length (by simp))
  constructor
  · intro hroom
    refine ⟨fun hdir => hroom.free (hfree.mpr hdir), fun dir hpre hne => ?_⟩
    obtain ⟨hpre, hne⟩ := habove dir hpre hne
    exact h.above dir hpre hne
  · intro hroom
    refine ⟨fun hdir => hroom.free (hfree.mp hdir), fun dir hpre hne => .inl ?_⟩
    rw [isDirectory_write, hname]
    exact .inr (habove dir hpre hne)

def writeAll (d : Directory) (outputs : List (String × String)) : Directory :=
  outputs.foldl (fun d output => d.write output.1 output.2) d

theorem writeAll_cons (d : Directory) (output : String × String)
    (outputs : List (String × String)) :
    d.writeAll (output :: outputs) = (d.write output.1 output.2).writeAll outputs := rfl

theorem file?_writeAll_of_ne {outputs : List (String × String)}
    (h : ∀ output ∈ outputs, Path.clean output.1 ≠ path) :
    (d.writeAll outputs).file? path = d.file? path := by
  induction outputs generalizing d with
  | nil => rfl
  | cons output outputs ih =>
    rw [List.forall_mem_cons] at h
    rw [writeAll_cons, ih h.2, file?_write, if_neg h.1]

theorem file?_writeAll_last {earlier later : List (String × String)}
    (h : ∀ output ∈ later, Path.clean output.1 ≠ Path.clean name) :
    (d.writeAll (earlier ++ (name, text) :: later)).file? (Path.clean name) = some text := by
  rw [writeAll, List.foldl_append, List.foldl_cons, ← writeAll, file?_writeAll_of_ne h, file?_write,
    if_pos rfl]

end ScopeIR.Directory
