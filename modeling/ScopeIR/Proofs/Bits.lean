import ScopeIR.Bits

namespace ScopeIR.Bits

variable (s : Bits) (key x : Nat)

@[simp] theorem wordOf_grow : (s.grow key).wordOf x = s.wordOf x := by
  simp only [wordOf, grow, List.getD_eq_getElem?_getD, List.getElem?_append]
  split
  · rfl
  · rename_i h
    rw [List.getElem?_eq_none (Nat.le_of_not_lt h), List.getElem?_replicate]
    split <;> rfl

theorem lt_length_grow : key / 64 < (s.grow key).words.length := by
  simp only [grow, List.length_append, List.length_replicate]
  omega

theorem wordOf_setWord (f : BitVec 64 → BitVec 64) (h : key / 64 < s.words.length) :
    (s.setWord key f).wordOf x = if key / 64 = x / 64 then f (s.wordOf x) else s.wordOf x := by
  simp only [wordOf, setWord, List.getD_eq_getElem?_getD, List.getElem?_modify]
  split
  · rename_i he
    rw [← he, List.getElem?_eq_getElem h]
    rfl
  · rw [id_map']

theorem mem_setWord_or (h : key / 64 < s.words.length) :
    (s.setWord key (· ||| BitVec.twoPow 64 (key % 64))).mem x = (s.mem x || decide (x = key)) := by
  rw [mem, wordOf_setWord s key x _ h, mem]
  have hbit : x % 64 < 64 := Nat.mod_lt _ (by decide)
  split
  · rename_i hword
    have heq : x % 64 = key % 64 ↔ x = key := by omega
    simp [hbit, heq]
  · rename_i hword
    have hne : x ≠ key := by
      rintro rfl
      exact hword rfl
    simp [hne]

theorem mem_setWord_clearBit :
    (s.setWord key (clearBit · (key % 64))).mem x = (s.mem x && decide (x ≠ key)) := by
  rcases Nat.lt_or_ge (key / 64) s.words.length with h | h
  · rw [mem, wordOf_setWord s key x _ h, mem]
    split
    · rename_i hword
      have heq : x % 64 = key % 64 ↔ x = key := by omega
      simp [getLsbD_clearBit, heq]
    · rename_i hword
      have hne : x ≠ key := by
        rintro rfl
        exact hword rfl
      simp [hne]
  · have hsame : s.setWord key (clearBit · (key % 64)) = s := by
      rw [setWord, List.modify_eq_self h]
    rw [hsame]
    by_cases he : x = key
    · have hword : s.wordOf x = 0 := by
        rw [he, wordOf, List.getD_eq_getElem?_getD, List.getElem?_eq_none h]
        rfl
      simp [mem, hword]
    · simp [he]

@[simp] theorem mem_grow : (s.grow key).mem x = s.mem x := by simp [mem]

@[simp] theorem has_natCast : s.has x = s.mem x := by simp [has]

theorem has_of_neg {k : Int} (h : k < 0) : s.has k = false := by
  simp [has, Int.not_le.mpr h]

@[simp] theorem has_ofSize (size k : Int) : (ofSize size).has k = false := by
  have hword : (ofSize size).wordOf k.toNat = 0 := by
    simp only [wordOf, ofSize, List.getD_eq_getElem?_getD, List.getElem?_replicate]
    split <;> rfl
  simp [has, mem, hword]

theorem add_of_neg {k : Int} (h : k < 0) : s.add k = (false, s) := if_pos h

theorem add_natCast : s.add key = if s.mem key then (false, s.grow key)
    else (true, (s.grow key).setWord key (· ||| BitVec.twoPow 64 (key % 64))) := by
  rw [add, if_neg (Int.not_lt.mpr (Int.natCast_nonneg key)), has_natCast]
  rfl

theorem add_fst (k : Int) : (s.add k).1 = (decide (0 ≤ k) && !s.has k) := by
  rcases Int.lt_or_le k 0 with hneg | hnat
  · simp [add_of_neg s hneg, Int.not_le.mpr hneg]
  · obtain ⟨key, rfl⟩ := Int.eq_ofNat_of_zero_le hnat
    cases hk : s.mem key <;> simp [add_natCast, hk]

theorem has_add (k y : Int) : (s.add k).2.has y = (s.has y || decide (0 ≤ k ∧ y = k)) := by
  rcases Int.lt_or_le k 0 with hneg | hnat
  · simp [add_of_neg s hneg, Int.not_le.mpr hneg]
  obtain ⟨key, rfl⟩ := Int.eq_ofNat_of_zero_le hnat
  rcases Int.lt_or_le y 0 with hy | hy
  · have hne : y ≠ key := by omega
    simp [has_of_neg _ hy, hne]
  obtain ⟨x, rfl⟩ := Int.eq_ofNat_of_zero_le hy
  cases hk : s.mem key with
  | true =>
    by_cases he : x = key
    · simp [add_natCast, hk, he]
    · simp only [add_natCast, hk, if_true, has_natCast, mem_grow, Int.natCast_nonneg,
        Int.ofNat_inj, he, and_false, decide_false, Bool.or_false]
  | false =>
    simpa [add_natCast, hk, Int.ofNat_inj] using
      mem_setWord_or (s.grow key) key x (lt_length_grow s key)

theorem has_remove (k y : Int) : (s.remove k).has y = (s.has y && decide (y ≠ k)) := by
  rcases Int.lt_or_le y 0 with hy | hy
  · simp [has_of_neg _ hy]
  obtain ⟨x, rfl⟩ := Int.eq_ofNat_of_zero_le hy
  rcases Int.lt_or_le k 0 with hneg | hnat
  · have hne : (x : Int) ≠ k := by omega
    simp [remove, hneg, hne]
  obtain ⟨key, rfl⟩ := Int.eq_ofNat_of_zero_le hnat
  simpa [remove, Int.not_lt.mpr hnat, Int.ofNat_inj] using mem_setWord_clearBit s key x

end ScopeIR.Bits
