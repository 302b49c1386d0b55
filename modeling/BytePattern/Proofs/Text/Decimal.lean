import Mathlib.Data.List.Basic
import Mathlib.Data.List.Induction
import Mathlib.Data.Nat.Log
import Mathlib.Tactic.Ring
import BytePattern.Text.Number

/-!
# Digits and the numbers they are read as

Reading takes one digit after the other, so the digits to the right of others shift these to the left
(`value_append`). Both ways of writing a number are read as that number, one of them up to what its width
cuts off, and a number has as many digits as its logarithm says.
-/
namespace BytePattern
namespace Decimal

def value (digits : Bytes) : Nat :=
  digits.foldl (fun n b => 10 * n + (b - Byte.digitZero).toNat) 0

def IsNumber (text : Bytes) : Prop := text ≠ [] ∧ ∀ b ∈ text, Byte.isDigit b = true

theorem value_concat (digits : Bytes) (b : UInt8) :
    value (digits ++ [b]) = 10 * value digits + (b - Byte.digitZero).toNat := by
  rw [value, List.foldl_append]
  rfl

theorem value_append (left right : Bytes) :
    value (left ++ right) = value left * 10 ^ right.length + value right := by
  induction right using List.reverseRecOn with
  | nil => simp [value]
  | append_singleton right b ih =>
    rw [← List.append_assoc, value_concat, ih, value_concat, List.length_append,
      List.length_singleton]
    ring

theorem value_append_zeros (digits : Bytes) (k : Nat) :
    value (digits ++ List.replicate k Byte.digitZero) = value digits * 10 ^ k := by
  induction k with
  | zero => rw [List.replicate_zero, List.append_nil, Nat.pow_zero, Nat.mul_one]
  | succ k ih =>
    rw [List.replicate_succ', ← List.append_assoc, value_concat, ih, UInt8.sub_self, Nat.pow_succ,
      Nat.mul_comm 10, Nat.mul_assoc]
    rfl

theorem digit_spec : ∀ d < 10, Byte.isDigit (digit d) = true ∧ (digit d - Byte.digitZero).toNat = d := by
  decide

theorem value_digit {d : Nat} (hd : d < 10) : value [digit d] = d := by
  rw [value, List.foldl_cons, (digit_spec d hd).2]
  exact Nat.zero_add d

theorem value_padded (width n : Nat) : value (padded width n) = n % 10 ^ width := by
  induction width generalizing n with
  | zero => rw [Nat.pow_zero, Nat.mod_one]; rfl
  | succ width ih =>
    rw [padded, value_concat, ih, (digit_spec _ (Nat.mod_lt n (by decide))).2, Nat.pow_succ',
      Nat.mod_mul]
    omega

theorem isDigit_of_mem_padded {width n : Nat} : ∀ b ∈ padded width n, Byte.isDigit b = true := by
  induction width generalizing n with
  | zero => exact fun b hb => by cases hb
  | succ width ih =>
    intro b hb
    rcases List.mem_append.1 hb with hb | hb
    · exact ih b hb
    · rw [List.mem_singleton.1 hb]
      exact (digit_spec _ (Nat.mod_lt n (by decide))).1

theorem value_ofNat (n : Nat) : value (ofNat n) = n := by
  fun_induction ofNat n with
  | case1 n hn => exact value_digit hn
  | case2 n hn ih =>
    rw [value_concat, ih, (digit_spec _ (Nat.mod_lt n (by decide))).2]
    omega

theorem ofNat_ne_nil (n : Nat) : ofNat n ≠ [] := by
  unfold ofNat
  split
  · exact List.cons_ne_nil _ _
  · exact List.append_ne_nil_of_right_ne_nil _ (List.cons_ne_nil _ _)

theorem isDigit_of_mem_ofNat {n : Nat} : ∀ b ∈ ofNat n, Byte.isDigit b = true := by
  fun_induction ofNat n with
  | case1 n hn =>
    intro b hb
    rw [List.mem_singleton.1 hb]
    exact (digit_spec n hn).1
  | case2 n hn ih =>
    intro b hb
    rcases List.mem_append.1 hb with hb | hb
    · exact ih b hb
    · rw [List.mem_singleton.1 hb]
      exact (digit_spec _ (Nat.mod_lt n (by decide))).1

theorem isNumber_ofNat (n : Nat) : IsNumber (ofNat n) := ⟨ofNat_ne_nil n, isDigit_of_mem_ofNat⟩

theorem toNat?_of_isNumber {text : Bytes} (h : IsNumber text) : toNat? text = some (value text) :=
  if_pos ⟨h.1, List.all_eq_true.2 h.2⟩

theorem toNat?_ofNat (n : Nat) : toNat? (ofNat n) = some n := by
  rw [toNat?_of_isNumber (isNumber_ofNat n), value_ofNat]

theorem length_ofNat (n : Nat) : (ofNat n).length = Nat.log 10 n + 1 := by
  fun_induction ofNat n with
  | case1 n hn => rw [Nat.log_of_lt hn]; rfl
  | case2 n hn ih =>
    rw [List.length_append, ih, Nat.log_of_one_lt_of_le (by decide) (Nat.le_of_not_lt hn)]
    rfl

theorem ofNat_of_head? {n : Nat} (h : (ofNat n).head? = some Byte.digitZero) :
    ofNat n = [Byte.digitZero] := by
  fun_induction ofNat n with
  | case1 n hn => rw [Option.some.inj h]
  | case2 n hn ih =>
    rw [List.head?_append_of_ne_nil _ (ofNat_ne_nil _)] at h
    have hvalue : 0 = n / 10 := by rw [← value_ofNat (n / 10), ih h]; rfl
    omega

end Decimal
end BytePattern
