import Mathlib.Data.Nat.Bitwise
import Mathlib.Data.Set.Card
import Mathlib.Tactic.SplitIfs
import BytePattern.Byte

/-!
# Byte sets by their members

The bitmap is read through one view: a byte is in the set where its bit of its word is one
(`contains_eq_testBit`). Inserting a byte adds that byte and no other (`contains_insert`), so the set that
is built from members between brackets holds what they hold (`contains_ofMembers`), and sets with the same
bytes are equal (`ext_contains`).

The size of a set is counted on the words, bit by bit. Each word lists the membership of 64 successive bytes
(`bitCount_word`) and the four words that of all bytes (`size_eq_countP`), so the size is the number of
bytes in the set (`ncard_contains`), and only the empty set has size zero.
-/
namespace BytePattern

theorem Byte.nodup_all : Byte.all.Nodup := by
  apply List.Nodup.map_on _ List.nodup_range
  intro i hi j hj h
  rw [List.mem_range] at hi hj
  rwa [← UInt8.toNat_inj, UInt8.toNat_ofNat_of_lt' hi, UInt8.toNat_ofNat_of_lt' hj] at h

namespace ByteSet

theorem toNat_bit (b : UInt8) : (bit b).toNat = 2 ^ (b.toNat % 64) := by
  have hlt : 2 ^ (b.toNat % 64) < 2 ^ 64 :=
    Nat.pow_lt_pow_right (by decide) (Nat.mod_lt _ (by decide))
  rw [bit, UInt64.toNat_shiftLeft, UInt8.toNat_toUInt64, UInt64.toNat_one, Nat.one_shiftLeft,
    Nat.mod_eq_of_lt hlt]

theorem and_bit_ne_zero (w : UInt64) (b : UInt8) :
    (w &&& bit b != 0) = w.toNat.testBit (b.toNat % 64) := by
  have hzero : (w &&& bit b = 0) ↔ w.toNat.testBit (b.toNat % 64) = false := by
    rw [← UInt64.toNat_inj, UInt64.toNat_and, toNat_bit, Nat.and_two_pow]
    have hpos : 2 ^ (b.toNat % 64) ≠ 0 := Nat.ne_of_gt (Nat.two_pow_pos _)
    cases w.toNat.testBit (b.toNat % 64) <;> simp
  cases h : w.toNat.testBit (b.toNat % 64) with
  | false => simp [hzero.2 h]
  | true =>
    have hne : ¬ (w &&& bit b = 0) := fun h0 => by simp [hzero.1 h0] at h
    simp [hne]

theorem contains_eq_testBit (s : ByteSet) (b : UInt8) :
    s.contains b = (s.word b).toNat.testBit (b.toNat % 64) := and_bit_ne_zero ..

/-- The high two bits of a byte select its word and the low six its bit. -/
theorem contains_eq_shift (s : ByteSet) (b : UInt8) : s.contains b =
    ([s.word0, s.word1, s.word2, s.word3].getD (b >>> 6).toNat 0 &&&
      1 <<< (b &&& 63).toUInt64 != 0) := by
  have hword : s.word b = [s.word0, s.word1, s.word2, s.word3].getD (b >>> 6).toNat 0 := by
    have hshift : (b >>> 6).toNat = b.toNat / 64 := by
      rw [UInt8.toNat_shiftRight]
      exact Nat.shiftRight_eq_div_pow ..
    have hb := b.toNat_lt
    simp only [hshift, word, UInt8.lt_iff_toNat_lt, UInt8.reduceToNat]
    split_ifs
    · rw [show b.toNat / 64 = 0 by omega]
      rfl
    · rw [show b.toNat / 64 = 1 by omega]
      rfl
    · rw [show b.toNat / 64 = 2 by omega]
      rfl
    · rw [show b.toNat / 64 = 3 by omega]
      rfl
  have hbit : bit b = bit (b &&& 63) := by
    have hmask : (b &&& 63).toNat = b.toNat % 64 := by
      rw [UInt8.toNat_and]
      exact Nat.and_two_pow_sub_one_eq_mod b.toNat 6
    rw [← UInt64.toNat_inj, toNat_bit, toNat_bit, hmask, Nat.mod_mod]
  rw [contains, hword, hbit, bit]

theorem word_congr (s : ByteSet) {b c : UInt8} (h : b.toNat / 64 = c.toNat / 64) :
    s.word b = s.word c := by
  have hb := b.toNat_lt
  have hc := c.toNat_lt
  simp only [word, UInt8.lt_iff_toNat_lt, UInt8.reduceToNat]
  split_ifs <;> first | rfl | omega

theorem word_insert (s : ByteSet) (b c : UInt8) : (s.insert b).word c =
    if b.toNat / 64 = c.toNat / 64 then s.word c ||| bit b else s.word c := by
  have hb := b.toNat_lt
  have hc := c.toNat_lt
  simp only [word, insert, UInt8.lt_iff_toNat_lt, UInt8.reduceToNat]
  split_ifs <;> first | rfl | omega

theorem contains_insert (s : ByteSet) (b c : UInt8) :
    (s.insert b).contains c = (s.contains c || c == b) := by
  rw [contains_eq_testBit, contains_eq_testBit, word_insert]
  split_ifs with h
  · have hbit : b.toNat % 64 = c.toNat % 64 ↔ c = b := by
      rw [← UInt8.toNat_inj]
      omega
    rw [UInt64.toNat_or, Nat.testBit_or, toNat_bit, Nat.testBit_two_pow, decide_eq_decide.2 hbit]
    rfl
  · have hne : c ≠ b := fun he => h (by rw [he])
    simp [hne]

theorem contains_empty (b : UInt8) : empty.contains b = false := by
  rw [contains_eq_testBit]
  simp [word, empty]

theorem contains_foldl_insert (test : UInt8 → Bool) (bytes : Bytes) (s : ByteSet) (c : UInt8) :
    (bytes.foldl (fun s b => if test b then s.insert b else s) s).contains c =
      (s.contains c || (bytes.contains c && test c)) := by
  induction bytes generalizing s with
  | nil => simp
  | cons b bytes ih =>
    rw [List.foldl_cons, ih, List.contains_cons]
    by_cases hc : c = b
    · subst hc
      cases ht : test c <;> simp [contains_insert]
    · have hne : (c == b) = false := beq_eq_false_iff_ne.2 hc
      cases ht : test b <;> simp [contains_insert, hne]

theorem contains_ofMembers (members : List SetMember) (negated : Bool) (b : UInt8) :
    (ofMembers members negated).contains b = (members.any (·.contains b) != negated) := by
  have hall : Byte.all.contains b = true := List.contains_iff_mem.2 (Byte.mem_all b)
  rw [ofMembers, contains_foldl_insert, contains_empty, hall, Bool.false_or, Bool.true_and]

theorem testBit_word (s : ByteSet) (b : UInt8) {i : Nat} (hi : i < 64) :
    (s.word b).toNat.testBit i = s.contains (UInt8.ofNat (b.toNat / 64 * 64 + i)) := by
  have hb := b.toNat_lt
  have hc : (UInt8.ofNat (b.toNat / 64 * 64 + i)).toNat = b.toNat / 64 * 64 + i :=
    UInt8.toNat_ofNat_of_lt' (by simp only [UInt8.size]; omega)
  generalize UInt8.ofNat (b.toNat / 64 * 64 + i) = c at hc
  have hword : c.toNat / 64 = b.toNat / 64 := by omega
  have hbit : c.toNat % 64 = i := by omega
  rw [contains_eq_testBit, hbit, s.word_congr hword]

theorem word_eq_of_contains {s t : ByteSet} (h : ∀ b, s.contains b = t.contains b) (b : UInt8) :
    s.word b = t.word b := by
  apply UInt64.toNat_inj.1
  apply Nat.eq_of_testBit_eq
  intro i
  by_cases hi : i < 64
  · rw [testBit_word s b hi, testBit_word t b hi, h]
  · have hle : 2 ^ 64 ≤ 2 ^ i := Nat.pow_le_pow_right (by decide) (Nat.le_of_not_lt hi)
    rw [Nat.testBit_lt_two_pow (Nat.lt_of_lt_of_le (UInt64.toNat_lt _) hle),
      Nat.testBit_lt_two_pow (Nat.lt_of_lt_of_le (UInt64.toNat_lt _) hle)]

theorem ext_contains {s t : ByteSet} (h : ∀ b, s.contains b = t.contains b) : s = t := by
  obtain ⟨s0, s1, s2, s3⟩ := s
  obtain ⟨t0, t1, t2, t3⟩ := t
  have h0 : s0 = t0 := word_eq_of_contains h 0
  have h1 : s1 = t1 := word_eq_of_contains h 64
  have h2 : s2 = t2 := word_eq_of_contains h 128
  have h3 : s3 = t3 := word_eq_of_contains h 192
  rw [h0, h1, h2, h3]

theorem mem_toList {s : ByteSet} {b : UInt8} : b ∈ s.toList ↔ s.contains b = true := by
  rw [toList, List.mem_filter, and_iff_right (Byte.mem_all b)]

theorem contains_foldl (s : ByteSet) (inserted : Bytes) (c : UInt8) :
    (inserted.foldl insert s).contains c = (s.contains c || inserted.contains c) := by
  simpa using contains_foldl_insert (fun _ => true) inserted s c

theorem bitCount_word (s : ByteSet) (b : UInt8) : bitCount (s.word b) =
    (List.range 64).countP fun i => s.contains (UInt8.ofNat (b.toNat / 64 * 64 + i)) := by
  apply List.countP_congr
  intro i hi
  have hlt : i < 64 := List.mem_range.1 hi
  have hbit : (UInt8.ofNat i).toNat % 64 = i := by
    rw [UInt8.toNat_ofNat_of_lt' (by simp only [UInt8.size]; omega), Nat.mod_eq_of_lt hlt]
  rw [and_bit_ne_zero, hbit, testBit_word s b hlt]

theorem size_eq_countP (s : ByteSet) : s.size = Byte.all.countP s.contains := by
  -- the words of the bytes 0, 64, 128 and 192
  have h0 : bitCount s.word0 = (List.range 64).countP fun i => s.contains (UInt8.ofNat (0 + i)) :=
    s.bitCount_word 0
  have h1 : bitCount s.word1 = (List.range 64).countP fun i => s.contains (UInt8.ofNat (64 + i)) :=
    s.bitCount_word 64
  have h2 : bitCount s.word2 = (List.range 64).countP fun i => s.contains (UInt8.ofNat (128 + i)) :=
    s.bitCount_word 128
  have h3 : bitCount s.word3 = (List.range 64).countP fun i => s.contains (UInt8.ofNat (192 + i)) :=
    s.bitCount_word 192
  have hblocks : List.range 256 = List.range (64 + 64 + 64 + 64) := rfl
  rw [size, h0, h1, h2, h3, Byte.all, List.countP_map, hblocks]
  simp only [List.range_add, List.countP_append, List.countP_map, Nat.zero_add]
  rfl

theorem length_toList (s : ByteSet) : s.toList.length = s.size := by
  rw [size_eq_countP, List.countP_eq_length_filter, toList]

theorem nodup_toList (s : ByteSet) : s.toList.Nodup := Byte.nodup_all.filter _

theorem ncard_contains (s : ByteSet) : {c | s.contains c = true}.ncard = s.size := by
  have hlist : {c | s.contains c = true} = (s.toList.toFinset : Set UInt8) := by
    ext c
    simp [mem_toList]
  rw [hlist, Set.ncard_coe_finset, List.toFinset_card_of_nodup s.nodup_toList, length_toList]

theorem isEmpty_iff {s : ByteSet} : s.isEmpty = true ↔ s = empty := by
  obtain ⟨s0, s1, s2, s3⟩ := s
  simp [isEmpty, empty, and_assoc]

theorem size_eq_zero_iff {s : ByteSet} : s.size = 0 ↔ s = empty := by
  rw [size_eq_countP, List.countP_eq_zero]
  constructor
  · intro h
    apply ext_contains
    intro c
    rw [contains_empty, ← Bool.not_eq_true]
    exact h c (Byte.mem_all c)
  · rintro rfl c _
    simp [contains_empty]

/-- A built set holds a byte that was inserted, and any other just when some member holds it or, with
`negated`, none does. An insertion adds one byte, the size counts the bytes, and the bytes determine the
set. -/
theorem contains_built (members : List SetMember) (negated : Bool) (inserted : Bytes) :
    (∀ c, (inserted.foldl insert (ofMembers members negated)).contains c = true ↔
      ((∃ m ∈ members, m.contains c = true) ↔ negated = false) ∨ c ∈ inserted) ∧
    (∀ (s : ByteSet) (b : UInt8), (s.insert b).contains b = true ∧
      ∀ c, c ≠ b → (s.insert b).contains c = s.contains c) ∧
    (∀ s : ByteSet, s.size = {c | s.contains c = true}.ncard) ∧
    (∀ s : ByteSet, s.isEmpty = true ↔ s.size = 0) ∧
    ∀ s t : ByteSet, (∀ c, s.contains c = t.contains c) → s = t := by
  refine ⟨fun c => ?_, fun s b => ⟨?_, fun c hne => ?_⟩, fun s => s.ncard_contains.symm,
    fun s => isEmpty_iff.trans size_eq_zero_iff.symm, fun s t => ext_contains⟩
  · have hany : (members.any (·.contains c) != negated) = true ↔
        ((∃ m ∈ members, m.contains c = true) ↔ negated = false) := by
      rw [← List.any_eq_true]
      cases members.any (·.contains c) <;> cases negated <;> simp
    rw [contains_foldl, contains_ofMembers, Bool.or_eq_true, List.contains_iff_mem, hany]
  · rw [contains_insert, beq_self_eq_true, Bool.or_true]
  · rw [contains_insert, beq_eq_false_iff_ne.2 hne, Bool.or_false]

theorem contains_built_digits :
    ((∀ c, (ofMembers [.range 48 57] false).contains c =
        (ofMembers [.ofClass ⟨.digit, false⟩] false).contains c) ∧
      ofMembers [.range 48 57] false = ofMembers [.ofClass ⟨.digit, false⟩] false) ∧
    (65 : UInt8) ≠ 1 ∧
      ((ofMembers [.range 48 57] false).insert 1).contains 65 =
        (ofMembers [.range 48 57] false).contains 65 := by
  obtain ⟨-, hinsert, -, -, hext⟩ := contains_built [.range 48 57] false []
  have h : ∀ c, (ofMembers [.range 48 57] false).contains c =
      (ofMembers [.ofClass ⟨.digit, false⟩] false).contains c := by
    intro c
    rw [contains_ofMembers, contains_ofMembers]
    simp [SetMember.contains, ClassTest.contains, ByteClass.contains, Byte.isDigit]
  exact ⟨⟨h, hext _ _ h⟩, by decide, (hinsert _ 1).2 65 (by decide)⟩

example : (ofMembers [.range 97 99, .byte 95, .ofClass ⟨.digit, false⟩] true).size = 242 := by
  decide +kernel

end ByteSet
end BytePattern
