import Mathlib.Algebra.Group.Int.Defs
import Mathlib.Algebra.Group.Nat.Defs
import BytePattern.Library.Basic

/-!
# Start offsets as integers

A start offset is computed from words. The position that it is for is the one that integers give, however
great the length is (`exists_absolutePosition`). So is the offset (`exists_startOffset`), as long as one more
than the length is a word, too: the only positions without one are those past the end
(`initOffset_eq_none_iff`). To the greatest length of all nothing can be added, and the sum overflows
whatever the position is (`startOffset_longest`).
-/
namespace BytePattern

def startPosition (i : Int) (length : Nat) : Int :=
  if 0 < i then i else if i = 0 ∨ length < -i then 1 else length + i + 1

/-- The offset of a position among the integers, the first if none is given. -/
def integerOffset (init : Option Int) (length : Nat) : Option Nat :=
  let p := startPosition (init.getD 1) length
  if length + 1 < p then none else some (p - 1).toNat

theorem lt_startPosition_iff {i : Int} {length : Nat} :
    length + 1 < startPosition i length ↔ length + 1 < i := by
  unfold startPosition
  omega

theorem one_le_startPosition (i : Int) (length : Nat) : 1 ≤ startPosition i length := by
  unfold startPosition
  omega

theorem integerOffset_eq_none_iff {init : Option Int} {length : Nat} :
    integerOffset init length = none ↔ length + 1 < init.getD 1 := by
  rw [← lt_startPosition_iff, integerOffset]
  simp

theorem integerOffset_le {init : Option Int} {length offset : Nat}
    (h : integerOffset init length = some offset) : offset ≤ length := by
  rw [integerOffset] at h
  split at h
  · cases h
  · cases h
    omega

namespace Word

theorem exists_sum {a b : UInt64} (h : a.toNat + b.toNat < 2 ^ 64) :
    ∃ c, sum a b = .ok c ∧ c.toNat = a.toNat + b.toNat := by
  refine ⟨a + b, if_pos h, ?_⟩
  rw [UInt64.toNat_add, Nat.mod_eq_of_lt h]

theorem exists_difference {a b : UInt64} (h : b ≤ a) :
    ∃ c, difference a b = .ok c ∧ c.toNat = a.toNat - b.toNat :=
  ⟨a - b, if_pos h, UInt64.toNat_sub_of_le _ _ h⟩

end Word

theorem toInt_eq_toNat (i : Int64) : i.toInt =
    if 2 * i.toUInt64.toNat < 2 ^ 64 then (i.toUInt64.toNat : Int) else i.toUInt64.toNat - 2 ^ 64 := by
  have h := BitVec.toInt_eq_toNat_cond i.toBitVec
  rw [Int64.toInt_toBitVec] at h
  exact_mod_cast h

theorem toNat_distance (i : Int64) : (distance i).toNat = i.toInt.natAbs := by
  have hword := toInt_eq_toNat i
  have hlt := i.toUInt64.toNat_lt
  rw [distance]
  by_cases hi : i < 0
  · rw [if_pos hi, UInt64.toNat_sub, UInt64.toNat_zero]
    rw [Int64.lt_iff_toInt_lt, Int64.toInt_zero] at hi
    omega
  · rw [if_neg hi, Int64.toNat_toUInt64_of_le (Int64.not_lt.1 hi), Int64.toNatClampNeg]
    rw [Int64.lt_iff_toInt_lt, Int64.toInt_zero] at hi
    omega

theorem lt_distance_iff {i : Int64} {length : UInt64} (hi : i.toInt < 0) :
    length < distance i ↔ length.toNat < -i.toInt := by
  have hdistance := toNat_distance i
  rw [UInt64.lt_iff_toNat_lt]
  omega

theorem exists_position_from_end {i : Int64} {length : UInt64} (hi : i.toInt < 0)
    (h : ¬ length < distance i) :
    ∃ p, (Word.difference length (distance i) >>= fun d => Word.sum d 1) = .ok p ∧
      (p.toNat : Int) = length.toNat + i.toInt + 1 := by
  -- the way back is one byte at least, so that the sum is no greater than the length
  have hnear := mt (lt_distance_iff hi).2 h
  have hdistance := toNat_distance i
  have hlength := length.toNat_lt
  obtain ⟨d, hd, hdnat⟩ := Word.exists_difference (UInt64.not_lt.1 h)
  obtain ⟨p, hp, hpnat⟩ := Word.exists_sum (a := d) (b := 1) (by rw [UInt64.toNat_one]; omega)
  refine ⟨p, by rw [hd, ok_bind, hp], ?_⟩
  rw [hpnat, hdnat, UInt64.toNat_one]
  omega

theorem exists_absolutePosition (i : Int64) (length : UInt64) :
    ∃ p, absolutePosition i length = .ok p ∧ (p.toNat : Int) = startPosition i.toInt length.toNat := by
  have hsign := Int64.lt_iff_toInt_lt (x := 0) (y := i)
  rw [Int64.toInt_zero] at hsign
  rw [absolutePosition, startPosition]
  by_cases hpos : 0 < i
  · refine ⟨i.toUInt64, if_pos hpos, ?_⟩
    rw [if_pos (hsign.1 hpos), Int64.toNat_toUInt64_of_le (Int64.le_of_lt hpos)]
    exact Int.toNat_of_nonneg (Int.le_of_lt (hsign.1 hpos))
  · rw [if_neg hpos, if_neg (mt hsign.2 hpos)]
    by_cases hzero : i = 0
    · refine ⟨1, if_pos hzero, ?_⟩
      rw [hzero]
      rfl
    · have hneg : i.toInt < 0 := by
        have hne : i.toInt ≠ 0 := fun h => hzero (Int64.toInt_inj.1 h)
        have hle := mt hsign.2 hpos
        omega
      rw [if_neg hzero]
      by_cases hfar : length < distance i
      · refine ⟨1, if_pos hfar, ?_⟩
        rw [if_pos (.inr ((lt_distance_iff hneg).1 hfar))]
        rfl
      · have hnear := mt (lt_distance_iff hneg).2 hfar
        obtain ⟨p, hp, hposition⟩ := exists_position_from_end hneg hfar
        refine ⟨p, (if_neg hfar).trans hp, ?_⟩
        rw [if_neg (not_or.2 ⟨Int.ne_of_lt hneg, hnear⟩), hposition]

theorem exists_startOffset (init : Option Int64) {length : UInt64} (h : length.toNat + 1 < 2 ^ 64) :
    ∃ offset, startOffset init length = .ok offset ∧
      offset.map UInt64.toNat = integerOffset (init.map Int64.toInt) length.toNat := by
  have hinit : (init.getD 1).toInt = (init.map Int64.toInt).getD 1 := by cases init <;> rfl
  have hone := one_le_startPosition (init.getD 1).toInt length.toNat
  obtain ⟨p, hp, hposition⟩ := exists_absolutePosition (init.getD 1) length
  obtain ⟨last, hlast, hlastnat⟩ := Word.exists_sum (a := length) (b := 1) h
  rw [UInt64.toNat_one] at hlastnat
  rw [startOffset, hp, ok_bind, hlast, ok_bind, integerOffset, ← hinit, ← hposition]
  by_cases hend : last < p
  · refine ⟨none, if_pos hend, ?_⟩
    have hlt := UInt64.lt_iff_toNat_lt.1 hend
    rw [if_pos (by omega)]
    rfl
  · have hle := mt UInt64.lt_iff_toNat_lt.2 hend
    obtain ⟨offset, hoffset, hoffsetnat⟩ := Word.exists_difference (a := p) (b := 1)
      (UInt64.le_iff_toNat_le.2 (by rw [UInt64.toNat_one]; omega))
    rw [UInt64.toNat_one] at hoffsetnat
    refine ⟨some offset, ?_, ?_⟩
    · rw [if_neg hend, hoffset]
      rfl
    · rw [if_neg (by omega), Option.map_some, hoffsetnat]
      congr 1
      omega

theorem startOffset_longest {length : UInt64} (h : length.toNat + 1 = 2 ^ 64) (init : Option Int64) :
    startOffset init length = .error .sum := by
  obtain ⟨p, hp, _⟩ := exists_absolutePosition (init.getD 1) length
  have hsum : Word.sum length 1 = .error .sum := if_neg (by rw [UInt64.toNat_one, h]; exact Nat.lt_irrefl _)
  rw [startOffset, hp, ok_bind, hsum]
  rfl

/-- The offset is the one among the integers, and no operation on the way to it overflows. The one
exception is the greatest length of all, to which one cannot be added. -/
theorem startOffset_exact (init : Option Int64) (length : UInt64) :
    if length.toNat + 1 < 2 ^ 64 then
      ∃ offset, startOffset init length = .ok offset ∧
        offset.map UInt64.toNat = integerOffset (init.map Int64.toInt) length.toNat ∧
        ∀ o, offset = some o → o ≤ length
    else startOffset init length = .error .sum := by
  split
  · rename_i h
    obtain ⟨offset, hoffset, hinteger⟩ := exists_startOffset init h
    refine ⟨offset, hoffset, hinteger, ?_⟩
    rintro o rfl
    exact UInt64.le_iff_toNat_le.2 (integerOffset_le hinteger.symm)
  · rename_i h
    have hlength := length.toNat_lt
    exact startOffset_longest (by omega) init

/-- In a subject of the greatest length the first byte is not past the end, but the sum overflows. -/
theorem startOffset_first_longest :
    integerOffset (some 1) (18446744073709551615 : UInt64).toNat = some 0 ∧
    startOffset (some 1) 18446744073709551615 = .error .sum :=
  ⟨by decide, rfl⟩

namespace Library

theorem initOffset_eq {s : Subject} (h : s.size + 1 < 2 ^ 64) (init : Option Int64) :
    initOffset s init = integerOffset (init.map Int64.toInt) s.size := by
  have hsize : (UInt64.ofNat s.size).toNat = s.size := by
    rw [UInt64.toNat_ofNat']
    exact Nat.mod_eq_of_lt (Nat.lt_of_succ_lt h)
  have hword : (UInt64.ofNat s.size).toNat + 1 < 2 ^ 64 := by rwa [hsize]
  obtain ⟨offset, hoffset, hinteger⟩ := exists_startOffset init hword
  rw [hsize] at hinteger
  rw [initOffset, hoffset, ← hinteger]

theorem initOffset_eq_none_iff {s : Subject} {init : Option Int64} (h : s.size + 1 < 2 ^ 64) :
    initOffset s init = none ↔ ∃ i, init = some i ∧ s.size + 1 < i.toInt := by
  rw [initOffset_eq h, integerOffset_eq_none_iff]
  cases init with
  | none => exact iff_of_false (by simp only [Option.map_none, Option.getD_none]; omega) (by simp)
  | some i => simp

end Library
end BytePattern
