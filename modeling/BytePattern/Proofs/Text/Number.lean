import BytePattern.Proofs.Text.Numeral
import BytePattern.Proofs.Text.Rounding

/-!
# The text of a number

The text of a finite number is that of a numeral, and the numeral is its exact value (`Binary64.value`, read
off the bits) rounded to fourteen significant digits: the exponent of the rounded value chooses between the
two notations, no fraction ends in a zero, and only a numeral with neither a point nor a power gets `.0`
(`Binary64.text_rounded`).
-/
namespace BytePattern

namespace Numeral

/-- Place notation for the exponents from `-4` up to thirteen; otherwise one digit in front of the point and
the exponent as a power, in two digits or more. -/
def HasForm (n : Numeral) (e : ℤ) : Prop :=
  if -4 ≤ e ∧ e < 14 then
    n.power = none ∧ (n.whole.head? = some Byte.digitZero → n.whole = [Byte.digitZero])
  else
    n.whole.length = 1 ∧ ∃ digits, n.power = some (decide (e < 0), digits) ∧
      Decimal.value digits = e.natAbs ∧ 2 ≤ digits.length ∧
      (2 < digits.length → digits.head? ≠ some Byte.digitZero)

/-- The numeral that a text is, but for the sign: it stands for a number and has the form that goes with the
number's exponent. -/
structure Writes (n : Numeral) (negative : Bool) (bare : Bytes) (q : ℚ) : Prop where
  valid : n.Valid
  sign : n.negative = negative
  text : n.text = signText negative ++ bare
  magnitude : n.magnitude = q
  fraction : n.fraction.getLast? ≠ some Byte.digitZero
  form : n.HasForm (Int.log 10 q)

end Numeral

namespace Significant

def exponentDigits (e : ℤ) : Bytes :=
  if e.natAbs < 10 then Decimal.padded 2 e.natAbs else Decimal.ofNat e.natAbs

theorem exponentText_eq (e : ℤ) :
    exponentText e = Numeral.powerText (some (decide (e < 0), exponentDigits e)) := by
  rw [exponentText, Numeral.powerText, exponentDigits]
  simp only [decide_eq_true_eq]

theorem value_exponentDigits (e : ℤ) : Decimal.value (exponentDigits e) = e.natAbs := by
  rw [exponentDigits]
  split
  · rw [Decimal.value_padded]
    omega
  · exact Decimal.value_ofNat _

theorem powerValue_exponentDigits (e : ℤ) :
    Numeral.powerValue (some (decide (e < 0), exponentDigits e)) = e := by
  rw [Numeral.powerValue, value_exponentDigits]
  simp only [decide_eq_true_eq]
  split <;> omega

theorem isNumber_exponentDigits (e : ℤ) : Decimal.IsNumber (exponentDigits e) := by
  rw [exponentDigits]
  split
  · exact ⟨List.ne_nil_of_length_pos (by rw [Decimal.length_padded]; decide),
      Decimal.isDigit_of_mem_padded⟩
  · exact Decimal.isNumber_ofNat _

theorem length_exponentDigits (e : ℤ) : 2 ≤ (exponentDigits e).length ∧
    (2 < (exponentDigits e).length → (exponentDigits e).head? ≠ some Byte.digitZero) := by
  rw [exponentDigits]
  split
  · rw [Decimal.length_padded]
    exact ⟨Nat.le_refl 2, fun h => absurd h (Nat.lt_irrefl 2)⟩
  · rename_i he
    refine ⟨?_, fun hlong hzero => ?_⟩
    swap
    · rw [Decimal.ofNat_of_head? hzero] at hlong
      exact absurd hlong (by decide)
    have hlog := Nat.log_pos (b := 10) (by decide) (Nat.le_of_not_lt he)
    rw [Decimal.length_ofNat]
    omega

theorem Rounded.digits_lt {q : ℚ} {d : Significant} (h : d.Rounded q) : d.digits < 10 ^ precision := by
  rcases h.normal with rfl | ⟨_, hlt⟩
  · exact Nat.pow_pos (by decide)
  · exact hlt

theorem writes_scientific {q : ℚ} {d : Significant} (h : d.Rounded q)
    (hrange : ¬ (-4 ≤ d.exponent ∧ d.exponent < 14)) (negative : Bool) :
    ∃ n : Numeral, n.Writes negative d.scientific d.value := by
  have hdigits : ∀ b ∈ Decimal.padded precision d.digits, Byte.isDigit b = true :=
    Decimal.isDigit_of_mem_padded
  have hlength : (Decimal.padded precision d.digits).length = precision := Decimal.length_padded ..
  have hvalue : Decimal.value (Decimal.padded precision d.digits) = d.digits := by
    rw [Decimal.value_padded, Nat.mod_eq_of_lt h.digits_lt]
  rw [scientific]
  generalize Decimal.padded precision d.digits = digits at *
  refine ⟨Numeral.trimmed negative (digits.take 1) (digits.drop 1)
    (some (decide (d.exponent < 0), exponentDigits d.exponent)), ?_, rfl, ?_, ?_,
    Numeral.getLast?_trimZeros _, ?_⟩
  · refine Numeral.valid_trimmed _ ⟨?_, fun b hb => hdigits b (List.mem_of_mem_take hb)⟩
      (fun b hb => hdigits b (List.mem_of_mem_drop hb)) fun p hp => ?_
    · exact List.ne_nil_of_length_pos (by rw [List.length_take, hlength]; decide)
    · rw [← Option.some.inj hp]
      exact isNumber_exponentDigits _
  · rw [Numeral.text_trimmed, exponentText_eq]
  · rw [Numeral.magnitude_trimmed, Numeral.magnitude, List.take_append_drop,
      powerValue_exponentDigits, hvalue, List.length_drop, hlength, value, cast_precision_sub_one]
  · rw [h.log_value, Numeral.HasForm, if_neg hrange]
    refine ⟨?_, _, rfl, value_exponentDigits _, length_exponentDigits _⟩
    exact List.length_take.trans (by rw [hlength]; rfl)

theorem writes_fixed {num den : ℕ} (hden : 0 < den) {d : Significant} (h : d.Rounded (num / den))
    (hrange : -4 ≤ d.exponent ∧ d.exponent < 14) (negative : Bool) :
    ∃ n : Numeral,
      n.Writes negative (fixed (precision - 1 - d.exponent).toNat num den) d.value := by
  obtain ⟨places, hplaces⟩ : ∃ places : ℕ, (places : ℤ) = precision - 1 - d.exponent :=
    ⟨_, Int.toNat_of_nonneg (by rw [precision]; omega)⟩
  rw [← hplaces, Int.toNat_natCast, fixed, nearest_places hden h hplaces, Nat.pow_eq]
  refine ⟨Numeral.trimmed negative (Decimal.ofNat (d.digits / 10 ^ places))
    (Decimal.padded places (d.digits % 10 ^ places)) none, ?_, rfl, ?_, ?_,
    Numeral.getLast?_trimZeros _, ?_⟩
  · exact Numeral.valid_trimmed _ (Decimal.isNumber_ofNat _) Decimal.isDigit_of_mem_padded
      fun p hp => by cases hp
  · rw [Numeral.text_trimmed, Numeral.powerText, List.append_nil]
  · rw [Numeral.magnitude_trimmed, Numeral.magnitude, Decimal.value_append, Decimal.value_ofNat,
      Decimal.value_padded, Decimal.length_padded, Nat.mod_mod, Nat.div_add_mod', value,
      Numeral.powerValue, hplaces]
    ring_nf
  · rw [h.log_value, Numeral.HasForm, if_pos hrange]
    exact ⟨rfl, Decimal.ofNat_of_head?⟩

theorem writes_bareText (num : ℕ) {den : ℕ} (hden : 0 < den) (negative : Bool) :
    ∃ (q : ℚ) (n : Numeral), RoundsTo precision (num / den) q ∧
      n.Writes negative (bareText num den) q := by
  have h := ofRatio_rounded num hden
  simp only [bareText]
  generalize ofRatio num den = d at *
  refine ⟨d.value, ?_⟩
  by_cases hrange : -4 ≤ d.exponent ∧ d.exponent < 14
  · obtain ⟨n, hn⟩ := writes_fixed hden h hrange negative
    rw [if_neg (by rw [precision]; omega)]
    exact ⟨n, h.rounds, hn⟩
  · obtain ⟨n, hn⟩ := writes_scientific h hrange negative
    rw [if_pos (by rw [precision]; omega)]
    exact ⟨n, h.rounds, hn⟩

end Significant

namespace Binary64

def magnitude (x : Binary64) : ℚ :=
  if x.exponentBits = 0 then x.fractionBits / 2 ^ 52 * 2 ^ (-1022 : ℤ)
  else (1 + x.fractionBits / 2 ^ 52) * 2 ^ (x.exponentBits - 1023 : ℤ)

def value (x : Binary64) : ℚ := if x.negative then -x.magnitude else x.magnitude

theorem cast_unitsPerOne : ((unitsPerOne : ℕ) : ℚ) = 2 ^ 52 * 2 ^ 1022 := by
  have hsplit : 1074 = 52 + 1022 := rfl
  unfold unitsPerOne
  generalize 1074 = n at *
  rw [Nat.pow_eq, Nat.cast_pow, Nat.cast_ofNat, hsplit, pow_add]

theorem magnitude_eq (x : Binary64) : x.magnitude = (x.units : ℚ) / (unitsPerOne : ℕ) := by
  rw [magnitude, units, cast_unitsPerOne]
  split
  · rw [zpow_neg, zpow_ofNat, ← div_eq_mul_inv, div_div]
  · rename_i hexponent
    obtain ⟨e, he⟩ := Nat.exists_eq_succ_of_ne_zero hexponent
    have hshift : (x.exponentBits - 1023 : ℤ) = (e : ℤ) - (1022 : ℕ) := by omega
    rw [hshift, zpow_sub₀ (by norm_num), zpow_natCast, zpow_natCast, he, Nat.succ_sub_one, Nat.pow_eq,
      Nat.pow_eq, one_add_div (by positivity), div_mul_div_comm]
    push_cast
    rfl

/-- The text of the number is that of a numeral for `d`, the number with fourteen significant digits. Only
where the numeral has neither a point nor a power is a zero added to it, behind a point. -/
structure Shown (x : Binary64) (d : ℚ) (bare : Numeral) : Prop where
  rounds : RoundsTo 14 x.value d
  denotes : ∀ q, Numeral.Denotes x.text q ↔ q = d
  text : x.text = bare.text ++
    if Byte.dot ∈ bare.text ∨ Byte.letterE ∈ bare.text then [] else [Byte.dot, Byte.digitZero]
  valid : bare.Valid
  value : bare.value = d
  sign : bare.negative = x.negative
  form : bare.HasForm (Int.log 10 |d|)
  fraction : bare.fraction.getLast? ≠ some Byte.digitZero

theorem text_of_bare {x : Binary64} (hx : x.isFinite = true) {bare : Numeral}
    (h : bare.text = Numeral.signText x.negative ++ Significant.bareText x.units unitsPerOne) :
    x.text = bare.text ++
      if Byte.dot ∈ bare.text ∨ Byte.letterE ∈ bare.text then [] else [Byte.dot, Byte.digitZero] := by
  have htext : x.text = Numeral.signText x.negative ++ Significant.text x.units unitsPerOne := by
    rw [Binary64.text, magnitudeText, if_pos hx, Numeral.signText]
    split <;> rfl
  rw [htext, Significant.text, h]
  generalize Significant.bareText x.units unitsPerOne = t
  -- the sign is neither a point nor the letter of a power
  have hmem {b : UInt8} (hb : b ≠ Byte.minus) : b ∈ Numeral.signText x.negative ++ t ↔ b ∈ t := by
    rw [List.mem_append, Numeral.signText]
    apply or_iff_right
    split <;> simp [hb]
  simp only [hmem (show Byte.dot ≠ Byte.minus by decide),
    hmem (show Byte.letterE ≠ Byte.minus by decide), List.append_assoc]
  split
  · rw [List.append_nil]
  · rfl

theorem unitsPerOne_pos : 0 < unitsPerOne := by
  unfold unitsPerOne
  generalize 1074 = n
  exact Nat.pow_pos (by decide)

theorem denotes_text {x : Binary64} {bare : Numeral} (hvalid : bare.Valid)
    (htext : x.text = bare.text ++
      if Byte.dot ∈ bare.text ∨ Byte.letterE ∈ bare.text then [] else [Byte.dot, Byte.digitZero]) :
    Numeral.Denotes x.text bare.value := by
  rw [htext]
  split
  · exact ⟨bare, hvalid, (List.append_nil _).symm, rfl⟩
  · rename_i h
    obtain ⟨hdot, hletter⟩ := not_or.1 h
    exact Numeral.denotes_pointZero hvalid hdot hletter

theorem text_rounded (x : Binary64) (hx : x.isFinite = true) :
    ∃ (d : ℚ) (bare : Numeral), x.Shown d bare := by
  obtain ⟨q, n, hrounds, hn⟩ := Significant.writes_bareText x.units unitsPerOne_pos x.negative
  have htext := text_of_bare hx hn.text
  have hdenotes := denotes_text hn.valid htext
  have hnonneg : 0 ≤ n.magnitude := by
    rw [Numeral.magnitude]
    positivity
  have habs : |n.value| = q := by
    rw [Numeral.value, ← hn.magnitude]
    split
    · rw [abs_neg, abs_of_nonneg hnonneg]
    · exact abs_of_nonneg hnonneg
  refine ⟨n.value, n, ?_, fun r => ⟨fun h => h.unique hdenotes, fun h => h ▸ hdenotes⟩, htext,
    hn.valid, rfl, hn.sign, ?_, hn.fraction⟩
  · rw [← magnitude_eq, ← hn.magnitude] at hrounds
    rw [Binary64.value, Numeral.value, hn.sign]
    split
    · exact hrounds.neg
    · exact hrounds
  · rw [habs]
    exact hn.form

theorem text_rounded_carried : (⟨0x3f1a36e2eb1c432c⟩ : Binary64).isFinite = true ∧
    ∃ (d : ℚ) (bare : Numeral), (⟨0x3f1a36e2eb1c432c⟩ : Binary64).Shown d bare :=
  ⟨by decide, text_rounded _ (by decide)⟩

example : (⟨0x8000000000000000⟩ : Binary64).text = utf8 "-0.0" := by decide +kernel

end Binary64
end BytePattern
