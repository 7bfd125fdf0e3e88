import Mathlib.Data.List.Basic
import ScopeIR.Directory

/-! Paths without detours. A cleaned path has no part that a path can do without, so that its
spelling leads to it again, and a file in a directory stands at the path of the directory with
its name behind it. -/
namespace ScopeIR.Path

variable {path start rest : Path} {name part : String}

theorem toList_toString (path : Path) :
    (toString path).toList = ['/'].intercalate (path.map String.toList) :=
  String.toList_intercalate

theorem slash_notMem_of_mem_splitOn {chars word : List Char} (h : word ∈ chars.splitOn '/') :
    '/' ∉ word := by
  induction chars generalizing word with
  | nil => simp_all
  | cons c chars ih =>
    rw [List.splitOn_cons_eq_if_modifyHead] at h
    split at h
    · rcases List.mem_cons.mp h with rfl | h
      · exact List.not_mem_nil
      · exact ih h
    · rename_i hc
      obtain ⟨first, others, hsplit⟩ := List.exists_cons_of_ne_nil (List.splitOn_ne_nil '/' chars)
      rw [hsplit] at h ih
      rcases List.mem_cons.mp h with rfl | h
      · rw [List.mem_cons, not_or]
        exact ⟨fun heq => hc (beq_iff_eq.mpr heq.symm), ih List.mem_cons_self⟩
      · exact ih (List.mem_cons_of_mem _ h)

theorem slash_notMem_of_mem_ofString (h : part ∈ ofString name) : '/' ∉ part.toList := by
  obtain ⟨word, hword, rfl⟩ := List.mem_map.mp h
  rw [String.toList_ofList]
  exact slash_notMem_of_mem_splitOn hword

theorem head?_toString_cons (h : part ≠ "") :
    (toString (part :: rest)).toList.head? = part.toList.head? := by
  rw [ne_eq, ← String.toList_eq_nil_iff] at h
  rw [toList_toString]
  cases rest with
  | nil => simp
  | cons next rest => simp [List.intercalate_cons_cons, List.head?_append_of_ne_nil _ h]

theorem ofString_toString (hne : path ≠ []) (h : ∀ part ∈ path, '/' ∉ part.toList) :
    ofString (toString path) = path := by
  rw [ofString, toList_toString, List.splitOn_intercalate]
  · simp [Function.comp_def]
  · simpa using h
  · simpa using hne

theorem ofString_append_slash (a b : String) :
    ofString (a ++ "/" ++ b) = ofString a ++ ofString b := by
  have hchars : (a ++ "/" ++ b).toList = a.toList ++ '/' :: b.toList := by simp
  rw [ofString, hchars, List.splitOn_append_cons_self, List.map_append]
  rfl

theorem ofString_eq_singleton (h : '/' ∉ name.toList) : ofString name = [name] := by
  rw [ofString, List.splitOn_eq_singleton h]
  simp

structure IsName (part : String) : Prop where
  proper : part ∉ ["", ".", ".."]
  undivided : '/' ∉ part.toList

theorem push_of_proper (h : part ∉ ["", ".", ".."]) (path : Path) :
    path.push part = path ++ [part] := by
  simp_all [push]

/-- A part is left out, put behind the others, or takes the last of them back. -/
theorem push_cases (path : Path) (part : String) :
    path.push part = path ∨ path.push part = path ++ [part] ∨
      ∃ last, last ≠ "" ∧ path = path.push part ++ [last] := by
  unfold push
  split
  · exact .inl rfl
  · split
    · split
      · exact .inr (.inl rfl)
      · exact .inr (.inl rfl)
      · exact .inl rfl
      · rename_i last hne hempty hlast
        refine .inr (.inr ⟨last, hempty, ?_⟩)
        obtain ⟨front, rfl⟩ := List.getLast?_eq_some_iff.mp hlast
        rw [List.dropLast_concat]
    · exact .inr (.inl rfl)

/-- Each part is put behind those before it: none is left out and none takes another back. -/
def Straight (start : Path) : Path → Prop
  | [] => True
  | part :: rest => start.push part = start ++ [part] ∧ Straight (start ++ [part]) rest

theorem Straight.foldl_push (h : Straight start rest) : rest.foldl push start = start ++ rest := by
  induction rest generalizing start with
  | nil => rw [List.foldl_nil, List.append_nil]
  | cons part rest ih => rw [List.foldl_cons, h.1, ih h.2, List.append_assoc, List.singleton_append]

theorem Straight.ne_empty (h : Straight start (part :: rest)) : part ≠ "" := by
  rintro rfl
  have hsame : start = start ++ [""] := h.1
  simp at hsame

theorem straight_append_singleton : Straight start (rest ++ [part]) ↔
    Straight start rest ∧ (start ++ rest).push part = start ++ rest ++ [part] := by
  induction rest generalizing start with
  | nil => simp [Straight]
  | cons first rest ih => simp [Straight, ih, and_assoc]

/-- A path from a start that no part takes back, without detours. -/
structure Cleaned (start rest : Path) : Prop where
  fixed : start = [] ∨ start = [""]
  straight : Straight start rest
  undivided : ∀ part ∈ rest, '/' ∉ part.toList

namespace Cleaned

theorem append (h : Cleaned start rest) (hp : IsName part) : Cleaned start (rest ++ [part]) where
  fixed := h.fixed
  straight := straight_append_singleton.mpr ⟨h.straight, push_of_proper hp.proper _⟩
  undivided := by
    rw [List.forall_mem_append]
    exact ⟨h.undivided, List.forall_mem_singleton.mpr hp.undivided⟩

theorem push (h : Cleaned start rest) (hp : '/' ∉ part.toList) :
    ∃ rest', (start ++ rest).push part = start ++ rest' ∧ Cleaned start rest' := by
  rcases push_cases (start ++ rest) part with hpush | hpush | ⟨last, hlast, hpath⟩
  · exact ⟨rest, hpush, h⟩
  · refine ⟨rest ++ [part], by rw [hpush, List.append_assoc], h.fixed,
      straight_append_singleton.mpr ⟨h.straight, hpush⟩, ?_⟩
    rw [List.forall_mem_append]
    exact ⟨h.undivided, List.forall_mem_singleton.mpr hp⟩
  · -- A part of the start would be empty, so the one that is taken back comes after it.
    rcases List.eq_nil_or_concat' rest with rfl | ⟨front, _, rfl⟩
    · rw [List.append_nil] at hpath
      have hmem : last ∈ start := by
        rw [hpath]
        exact List.mem_append_right _ (List.mem_singleton_self _)
      rcases h.fixed with rfl | rfl
      · cases hmem
      · exact absurd (List.mem_singleton.mp hmem) hlast
    · rw [← List.append_assoc] at hpath ⊢
      refine ⟨front, (List.append_inj_left' hpath rfl).symm, h.fixed,
        (straight_append_singleton.mp h.straight).1, fun part hm => ?_⟩
      exact h.undivided part (List.mem_append_left _ hm)

theorem foldl_push {parts : Path} (h : Cleaned start rest)
    (hp : ∀ part ∈ parts, '/' ∉ part.toList) :
    ∃ rest', parts.foldl Path.push (start ++ rest) = start ++ rest' ∧ Cleaned start rest' := by
  induction parts generalizing rest with
  | nil => exact ⟨rest, rfl, h⟩
  | cons part parts ih =>
    rw [List.forall_mem_cons] at hp
    obtain ⟨rest', hpush, h'⟩ := h.push hp.1
    rw [List.foldl_cons, hpush]
    exact ih h' hp.2

theorem ofString_toString (h : Cleaned start rest) (hne : rest ≠ []) :
    ofString (toString (start ++ rest)) = start ++ rest := by
  refine Path.ofString_toString (List.append_ne_nil_of_right_ne_nil _ hne) fun part hm => ?_
  rcases List.mem_append.mp hm with hm | hm
  · rcases h.fixed with rfl | rfl <;> simp_all
  · exact h.undivided part hm

theorem root_toString (h : Cleaned start rest) (hne : rest ≠ []) :
    root (toString (start ++ rest)) = start := by
  obtain ⟨part, rest, rfl⟩ := List.exists_cons_of_ne_nil hne
  rcases h.fixed with rfl | rfl
  · rw [root, if_neg]
    rw [List.nil_append, head?_toString_cons h.straight.ne_empty]
    exact fun hhead => h.undivided part List.mem_cons_self (List.mem_of_head? hhead)
  · rw [root, if_pos]
    rw [toList_toString]
    rfl

theorem toString_ne_empty (h : Cleaned start rest) (hne : rest ≠ []) :
    toString (start ++ rest) ≠ "" := by
  intro hempty
  have hparts : [""] = start ++ rest := by
    rw [← h.ofString_toString hne, hempty, ofString_eq_singleton List.not_mem_nil]
  obtain ⟨part, rest, rfl⟩ := List.exists_cons_of_ne_nil hne
  rcases h.fixed with rfl | rfl
  · exact h.straight.ne_empty (List.cons.inj hparts).1.symm
  · cases hparts

theorem clean_toString (h : Cleaned start rest) (hne : rest ≠ []) :
    clean (toString (start ++ rest)) = start ++ rest := by
  have hstart : start.foldl Path.push start = start := by
    rcases h.fixed with rfl | rfl <;> rfl
  rw [clean, h.ofString_toString hne, h.root_toString hne, List.foldl_append, hstart,
    h.straight.foldl_push]

end Cleaned

theorem exists_cleaned (name : String) :
    ∃ rest, clean name = root name ++ rest ∧ Cleaned (root name) rest := by
  have hroot : Cleaned (root name) [] := by
    refine ⟨?_, trivial, List.forall_mem_nil _⟩
    unfold root
    split
    · exact .inr rfl
    · exact .inl rfl
  have h := hroot.foldl_push fun part (hm : part ∈ ofString name) =>
    slash_notMem_of_mem_ofString hm
  rwa [List.append_nil] at h

theorem clean_append_name {dir : String} (hd : dir ≠ "") (hp : IsName part) :
    clean (dir ++ "/" ++ part) = clean dir ++ [part] := by
  have hroot : root (dir ++ "/" ++ part) = root dir := by
    have hchars : dir.toList ≠ [] := by rwa [ne_eq, String.toList_eq_nil_iff]
    rw [root, String.append_assoc, String.toList_append, List.head?_append_of_ne_nil _ hchars, root]
  rw [clean, hroot, ofString_append_slash, ofString_eq_singleton hp.undivided, List.foldl_append,
    List.foldl_cons, List.foldl_nil, push_of_proper hp.proper]
  rfl

end ScopeIR.Path
