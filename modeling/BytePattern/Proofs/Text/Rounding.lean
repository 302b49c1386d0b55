import Mathlib.Algebra.Order.Field.Power
import Mathlib.Data.Int.Log
import Mathlib.Data.Rat.Floor
import Mathlib.Tactic.FieldSimp
import Mathlib.Tactic.Linarith
import Mathlib.Tactic.NormNum
import Mathlib.Tactic.Positivity
import Mathlib.Tactic.Ring
import BytePattern.Proofs.Text.Decimal
import BytePattern.Text.Number

/-!
# Rounding to significant digits

A ratio is rounded to the multiple nearest to it of the place that its last significant digit has, and a
half goes to the even multiple (`RoundsTo`). The digit counts of the two numbers leave two places for the
leading digit, and one comparison decides between them (`leading_eq`). Where rounding up carries into one
more digit, the ratio is so close to a power of ten that rounding it again, in the place that the carry
makes the last one, gives that power, too (`IsNearest.carried`). So the digits are the nearest ones also in
their own place (`ofRatio_rounded`), and rounding to that place finds them again (`nearest_places`).
-/
namespace BytePattern

/-- An integer nearest to a number, the even one if there are two. -/
structure IsNearest (q : ℚ) (n : ℤ) : Prop where
  close : |q - n| ≤ 1 / 2
  even_of_tie : |q - n| = 1 / 2 → Even n

/-- What digit `precision` of a number is worth. -/
def place (precision : ℕ) (q : ℚ) : ℚ := 10 ^ (Int.log 10 |q| - (precision - 1 : ℤ))

/-- `d` is `q` with so many significant digits. -/
def RoundsTo (precision : ℕ) (q d : ℚ) : Prop :=
  ∃ n : ℤ, IsNearest (q / place precision q) n ∧ d = n * place precision q

theorem ten_zpow (k : ℤ) : (10 : ℚ) ^ k = 10 ^ k.toNat / 10 ^ (-k).toNat := by
  have h := zpow_sub₀ (by norm_num : (10 : ℚ) ≠ 0) (k.toNat : ℤ) ((-k).toNat : ℤ)
  rwa [zpow_natCast, zpow_natCast, Int.toNat_sub_toNat_neg] at h

theorem log_ten_eq {q : ℚ} {e : ℤ} (hle : 10 ^ e ≤ q) (hlt : q < 10 ^ (e + 1)) : Int.log 10 q = e := by
  have hq : 0 < q := lt_of_lt_of_le (by positivity) hle
  have hge := (Int.zpow_le_iff_le_log (R := ℚ) (b := 10) (by decide) hq).1 (by exact_mod_cast hle)
  have hup := (Int.lt_zpow_iff_log_lt (R := ℚ) (b := 10) (by decide) hq).1 (by exact_mod_cast hlt)
  omega

namespace IsNearest

variable {q : ℚ} {n m : ℤ}

theorem of_lt (h : |q - n| < 1 / 2) : IsNearest q n := ⟨h.le, fun htie => absurd htie h.ne⟩

theorem neg (h : IsNearest q n) : IsNearest (-q) (-n) := by
  have hsub : -q - (-n : ℤ) = -(q - n) := by push_cast; ring
  constructor
  · rw [hsub, abs_neg]
    exact h.close
  · rw [hsub, abs_neg, even_neg]
    exact h.even_of_tie

theorem unique (hn : IsNearest q n) (hm : IsNearest q m) : n = m := by
  -- two of them would be neighbours with the number half way between, and one of the two is odd
  wlog hlt : n < m generalizing n m
  · rcases lt_trichotomy n m with h | h | h
    · exact this hn hm h
    · exact h
    · exact (this hm hn h).symm
  have hstep : (n : ℚ) + 1 ≤ m := by exact_mod_cast hlt
  have hqn := abs_le.1 hn.close
  have hqm := abs_le.1 hm.close
  have htie : |q - n| = 1 / 2 := by
    rw [abs_of_nonneg] <;> linarith
  have htie' : |q - m| = 1 / 2 := by
    rw [abs_of_nonpos] <;> linarith
  have hnext : m = n + 1 := by
    have : (m : ℚ) ≤ n + 1 := by linarith
    have : m ≤ n + 1 := by exact_mod_cast this
    omega
  obtain ⟨a, ha⟩ := hn.even_of_tie htie
  obtain ⟨b, hb⟩ := hm.even_of_tie htie'
  omega

theorem le_of_le (h : IsNearest q n) (hm : (m : ℚ) ≤ q) : m ≤ n := by
  have hclose := (abs_le.1 h.close).2
  have : (m : ℚ) < n + 1 := by linarith
  have : m < n + 1 := by exact_mod_cast this
  omega

theorem le_of_ge (h : IsNearest q n) (hm : q ≤ m) : n ≤ m := by
  have hclose := (abs_le.1 h.close).1
  have : (n : ℚ) < m + 1 := by linarith
  have : n < m + 1 := by exact_mod_cast this
  omega

theorem zero : IsNearest 0 0 := ⟨by norm_num, fun _ => Even.zero⟩

theorem carried (h : IsNearest q (10 * n)) (hle : q ≤ 10 * n) : IsNearest (q / 10) n := by
  have hclose := (abs_le.1 h.close).1
  push_cast at hclose
  have hsmall : |q / 10 - n| ≤ 1 / 20 := by
    rw [abs_le]
    constructor <;> linarith
  exact of_lt (by linarith)

end IsNearest

theorem RoundsTo.neg {precision : ℕ} {q d : ℚ} (h : RoundsTo precision q d) :
    RoundsTo precision (-q) (-d) := by
  obtain ⟨n, hn, rfl⟩ := h
  have hplace : place precision (-q) = place precision q := by rw [place, place, abs_neg]
  refine ⟨-n, ?_, ?_⟩
  · rw [hplace, neg_div]
    exact hn.neg
  · rw [hplace]
    push_cast
    ring

namespace Significant

theorem nearest_isNearest (num : ℕ) {den : ℕ} (hden : 0 < den) :
    IsNearest (num / den) (nearest num den) := by
  have hpos : (0 : ℚ) < den := by exact_mod_cast hden
  have hratio : (num : ℚ) / den = (num / den : ℕ) + (num % den : ℕ) / (den : ℚ) := by
    have hsplit : ((num / den : ℕ) : ℚ) * den + (num % den : ℕ) = num := by
      exact_mod_cast Nat.div_add_mod' num den
    field_simp
    linarith
  rw [hratio, nearest]
  generalize num / den = a
  have hlt := Nat.mod_lt num hden
  generalize num % den = r at *
  have hr : (r : ℚ) < den := by exact_mod_cast hlt
  rcases Nat.lt_trichotomy (2 * r) den with hlow | hhalf | hhigh
  · rw [if_pos hlow]
    have hlow' : (2 * r : ℚ) < den := by exact_mod_cast hlow
    have hdiff : (a : ℚ) + r / den - (a : ℤ) = r / den := by push_cast; ring
    apply IsNearest.of_lt
    rw [hdiff, abs_of_nonneg (by positivity), div_lt_iff₀ hpos]
    linarith
  · rw [if_neg (by omega), if_neg (by omega)]
    have hmiddle : (r : ℚ) / den = 1 / 2 := by
      rw [div_eq_iff hpos.ne', ← hhalf]
      push_cast
      ring
    rw [hmiddle]
    rcases Nat.mod_two_eq_zero_or_one a with heven | hodd
    · rw [heven]
      refine ⟨by norm_num, fun _ => ?_⟩
      exact_mod_cast Nat.even_iff.2 heven
    · rw [hodd]
      refine ⟨by norm_num, fun _ => ?_⟩
      exact_mod_cast (Nat.odd_iff.2 hodd).add_one
  · rw [if_neg (by omega), if_pos hhigh]
    have hhigh' : (den : ℚ) < 2 * r := by exact_mod_cast hhigh
    have hdiff : (a : ℚ) + r / den - ((a + 1 : ℕ) : ℤ) = -((den - r) / den) := by
      push_cast
      field_simp
      ring
    apply IsNearest.of_lt
    rw [hdiff, abs_neg, abs_of_nonneg (by apply div_nonneg <;> linarith), div_lt_iff₀ hpos]
    linarith

theorem tenPowLe_iff (e : ℤ) (num : ℕ) {den : ℕ} (hden : 0 < den) :
    tenPowLe e num den = true ↔ (10 : ℚ) ^ e ≤ num / den := by
  have hpos : (0 : ℚ) < den := by exact_mod_cast hden
  rw [tenPowLe, decide_eq_true_eq, ten_zpow, div_le_div_iff₀ (by positivity) hpos, Nat.pow_eq,
    Nat.pow_eq, Nat.mul_comm den]
  exact_mod_cast Iff.rfl

theorem ratio_bounds {num den : ℕ} (hnum : 0 < num) (hden : 0 < den) {e : ℤ}
    (he : e = (Decimal.ofNat num).length - (Decimal.ofNat den).length) :
    (10 : ℚ) ^ (e - 1) ≤ num / den ∧ (num / den : ℚ) < 10 ^ (e + 1) := by
  have hpos : (0 : ℚ) < den := by exact_mod_cast hden
  have hnumLe : (10 : ℚ) ^ Nat.log 10 num ≤ num := by
    exact_mod_cast Nat.pow_log_le_self 10 hnum.ne'
  have hnumLt : (num : ℚ) < 10 ^ (Nat.log 10 num + 1) := by
    exact_mod_cast Nat.lt_pow_succ_log_self (by decide) num
  have hdenLe : (10 : ℚ) ^ Nat.log 10 den ≤ den := by
    exact_mod_cast Nat.pow_log_le_self 10 hden.ne'
  have hdenLt : (den : ℚ) < 10 ^ (Nat.log 10 den + 1) := by
    exact_mod_cast Nat.lt_pow_succ_log_self (by decide) den
  rw [Decimal.length_ofNat, Decimal.length_ofNat] at he
  have hlow : e - 1 = (Nat.log 10 num : ℤ) - (Nat.log 10 den + 1 : ℕ) := by omega
  have hhigh : e + 1 = (Nat.log 10 num + 1 : ℕ) - (Nat.log 10 den : ℤ) := by omega
  rw [hlow, hhigh, zpow_sub₀ (by norm_num), zpow_sub₀ (by norm_num), zpow_natCast, zpow_natCast,
    zpow_natCast, zpow_natCast]
  exact ⟨div_le_div₀ (by positivity) hnumLe hpos hdenLt.le,
    div_lt_div₀ hnumLt hdenLe (by positivity) (by positivity)⟩

theorem leading_eq {num den : ℕ} (hnum : 0 < num) (hden : 0 < den) :
    leading num den = Int.log 10 (num / den : ℚ) := by
  obtain ⟨hlow, hhigh⟩ := ratio_bounds hnum hden rfl
  rw [leading]
  split
  · rename_i h
    exact (log_ten_eq ((tenPowLe_iff _ _ hden).1 h) hhigh).symm
  · rename_i h
    have hlt := lt_of_not_ge (mt (tenPowLe_iff _ _ hden).2 h)
    exact (log_ten_eq hlow (by rwa [Int.sub_add_cancel])).symm

theorem shifted_ratio (k : ℤ) (num den : ℕ) :
    ((num * Nat.pow 10 (-k).toNat : ℕ) : ℚ) / (den * Nat.pow 10 k.toNat : ℕ) = num / den / 10 ^ k := by
  rw [Nat.pow_eq, Nat.pow_eq, ten_zpow]
  push_cast
  field_simp

def value (d : Significant) : ℚ := d.digits * 10 ^ (d.exponent - (precision - 1 : ℤ))

structure Rounded (q : ℚ) (d : Significant) : Prop where
  rounds : RoundsTo precision q d.value
  again : IsNearest (q / 10 ^ (d.exponent - (precision - 1 : ℤ))) d.digits
  normal : d = ⟨0, 0⟩ ∨ 10 ^ (precision - 1) ≤ d.digits ∧ d.digits < 10 ^ precision

theorem rounded_zero : Rounded 0 ⟨0, 0⟩ where
  rounds := ⟨0, by rw [zero_div]; exact IsNearest.zero, by simp [value]⟩
  again := by rw [zero_div]; exact IsNearest.zero
  normal := .inl rfl

theorem cast_precision_sub_one : ((precision - 1 : ℕ) : ℤ) = precision - 1 := rfl

theorem scaled_bounds {q : ℚ} (hq : 0 < q) :
    (10 ^ (precision - 1) : ℚ) ≤ q / 10 ^ (Int.log 10 q - (precision - 1 : ℤ)) ∧
      q / 10 ^ (Int.log 10 q - (precision - 1 : ℤ)) < 10 ^ precision := by
  have hlow : (10 : ℚ) ^ Int.log 10 q ≤ q := by exact_mod_cast Int.zpow_log_le_self (by decide) hq
  have hhigh : q < (10 : ℚ) ^ (Int.log 10 q + 1) := by
    exact_mod_cast Int.lt_zpow_succ_log_self (by decide) q
  rw [le_div_iff₀ (by positivity), div_lt_iff₀ (by positivity), ← zpow_natCast, ← zpow_natCast,
    ← zpow_add₀ (by norm_num), ← zpow_add₀ (by norm_num)]
  rw [cast_precision_sub_one]
  ring_nf at hlow hhigh ⊢
  exact ⟨hlow, hhigh⟩

theorem rounded_of_nearest {q : ℚ} (hq : 0 < q) {n : ℕ}
    (hn : IsNearest (q / 10 ^ (Int.log 10 q - (precision - 1 : ℤ))) n) :
    Rounded q (if n = Nat.pow 10 precision then
      ⟨Nat.pow 10 (precision - 1), Int.log 10 q + 1⟩ else ⟨n, Int.log 10 q⟩) := by
  -- rounding up can carry into one more digit; then the digits are those of the power of ten
  obtain ⟨hlow, hhigh⟩ := scaled_bounds hq
  have hrounds : RoundsTo precision q (n * 10 ^ (Int.log 10 q - (precision - 1 : ℤ))) := by
    refine ⟨n, ?_, ?_⟩ <;> rw [place, abs_of_pos hq]
    · exact hn
    · rw [Int.cast_natCast]
  have hge : 10 ^ (precision - 1) ≤ n := by
    exact_mod_cast hn.le_of_le (m := 10 ^ (precision - 1)) (by exact_mod_cast hlow)
  have hle : n ≤ 10 ^ precision := by
    exact_mod_cast hn.le_of_ge (m := 10 ^ precision) (by exact_mod_cast hhigh.le)
  split
  · rename_i hcarry
    have hten : Nat.pow 10 precision = 10 * Nat.pow 10 (precision - 1) := rfl
    rw [hcarry, hten] at hrounds hn
    push_cast at hrounds hn
    have hshift : Int.log 10 q + 1 - (precision - 1 : ℤ) =
        Int.log 10 q - (precision - 1 : ℤ) + 1 := by ring
    refine ⟨?_, ?_, .inr ⟨Nat.le_refl _, Nat.pow_lt_pow_right (by decide) (by decide)⟩⟩
    · rw [value, hshift, zpow_add_one₀ (by norm_num), ← mul_assoc, mul_right_comm, mul_comm _ 10]
      exact hrounds
    · rw [hshift, zpow_add_one₀ (by norm_num), ← div_div]
      exact hn.carried (hhigh.le.trans_eq (by norm_num [precision]))
  · rename_i hcarry
    exact ⟨hrounds, hn, .inr ⟨hge, lt_of_le_of_ne hle hcarry⟩⟩

theorem ofRatio_rounded (num : ℕ) {den : ℕ} (hden : 0 < den) :
    Rounded (num / den) (ofRatio num den) := by
  rw [ofRatio]
  by_cases hnum : num = 0
  · rw [if_pos hnum, hnum, Nat.cast_zero, zero_div]
    exact rounded_zero
  · have hpos : (0 : ℚ) < num / den := by
      have := Nat.pos_of_ne_zero hnum
      positivity
    rw [if_neg hnum, leading_eq (Nat.pos_of_ne_zero hnum) hden]
    apply rounded_of_nearest hpos
    rw [← shifted_ratio]
    exact nearest_isNearest _ (Nat.mul_pos hden (Nat.pow_pos (by decide)))

theorem Rounded.log_value {q : ℚ} {d : Significant} (h : d.Rounded q) :
    Int.log 10 d.value = d.exponent := by
  rcases h.normal with rfl | ⟨hge, hlt⟩
  · rw [value, Nat.cast_zero, zero_mul, Int.log_zero_right]
  · have hge' : (10 : ℚ) ^ (precision - 1 : ℤ) ≤ d.digits := by
      rw [← cast_precision_sub_one, zpow_natCast]
      exact_mod_cast hge
    have hlt' : (d.digits : ℚ) < 10 ^ (precision : ℤ) := by exact_mod_cast hlt
    have hplace : (0 : ℚ) < 10 ^ (d.exponent - (precision - 1 : ℤ)) := by positivity
    apply log_ten_eq
    · calc (10 : ℚ) ^ d.exponent
          = 10 ^ (precision - 1 : ℤ) * 10 ^ (d.exponent - (precision - 1 : ℤ)) := by
            rw [← zpow_add₀ (by norm_num)]
            ring_nf
        _ ≤ d.value := mul_le_mul_of_nonneg_right hge' hplace.le
    · calc d.value < 10 ^ (precision : ℤ) * 10 ^ (d.exponent - (precision - 1 : ℤ)) :=
            mul_lt_mul_of_pos_right hlt' hplace
        _ = (10 : ℚ) ^ (d.exponent + 1) := by
            rw [← zpow_add₀ (by norm_num)]
            ring_nf

theorem nearest_places {num den : ℕ} (hden : 0 < den) {d : Significant}
    (h : d.Rounded (num / den)) {places : ℕ} (hplaces : (places : ℤ) = precision - 1 - d.exponent) :
    nearest (num * Nat.pow 10 places) den = d.digits := by
  have hn := nearest_isNearest (num * Nat.pow 10 places) hden
  have hagain := h.again
  have hexponent : d.exponent - (precision - 1 : ℤ) = -places := by omega
  rw [hexponent, zpow_neg, zpow_natCast, div_inv_eq_mul, div_mul_eq_mul_div] at hagain
  push_cast [Nat.pow_eq] at hn
  exact_mod_cast hn.unique hagain

end Significant
end BytePattern
