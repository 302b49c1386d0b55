import Mathlib.Algebra.Order.Field.Power
import Mathlib.Data.List.DropRight
import Mathlib.Data.Rat.Cast.Order
import Mathlib.Tactic.FieldSimp
import Mathlib.Tactic.NormNum
import Mathlib.Tactic.Ring
import BytePattern.Proofs.Text.Decimal
import BytePattern.Text.Number

/-!
# Numerals

The texts that denote decimal numbers: digits, behind a point more digits, and a power of ten with its sign.
A text is that of one numeral at most (`text_injective`), so it denotes one number at most
(`Denotes.unique`). Zeros at the end of a fraction do not count (`magnitude_trimmed`).
-/
namespace BytePattern

structure Numeral where
  negative : Bool
  whole : Bytes
  fraction : Bytes
  power : Option (Bool × Bytes)

namespace Numeral

structure Valid (n : Numeral) : Prop where
  whole : Decimal.IsNumber n.whole
  fraction : ∀ b ∈ n.fraction, Byte.isDigit b = true
  power : ∀ p ∈ n.power, Decimal.IsNumber p.2

def signText (negative : Bool) : Bytes := if negative then [Byte.minus] else []

def pointText (fraction : Bytes) : Bytes := if fraction = [] then [] else Byte.dot :: fraction

def powerText : Option (Bool × Bytes) → Bytes
  | none => []
  | some (negative, digits) =>
    Byte.letterE :: (if negative then Byte.minus else Byte.plus) :: digits

def text (n : Numeral) : Bytes :=
  signText n.negative ++ (n.whole ++ (pointText n.fraction ++ powerText n.power))

def powerValue : Option (Bool × Bytes) → ℤ
  | none => 0
  | some (negative, digits) => if negative then -Decimal.value digits else Decimal.value digits

def magnitude (n : Numeral) : ℚ :=
  Decimal.value (n.whole ++ n.fraction) * 10 ^ (powerValue n.power - n.fraction.length)

def value (n : Numeral) : ℚ := if n.negative then -n.magnitude else n.magnitude

def Denotes (text : Bytes) (q : ℚ) : Prop := ∃ n : Numeral, n.Valid ∧ n.text = text ∧ n.value = q

theorem digits_append_inj {a a' r r' : Bytes} (ha : ∀ b ∈ a, Byte.isDigit b = true)
    (ha' : ∀ b ∈ a', Byte.isDigit b = true) (hr : ∀ b ∈ r.head?, Byte.isDigit b = false)
    (hr' : ∀ b ∈ r'.head?, Byte.isDigit b = false) (h : a ++ r = a' ++ r') : a = a' ∧ r = r' := by
  have hspan {a r : Bytes} (ha : ∀ b ∈ a, Byte.isDigit b = true)
      (hr : ∀ b ∈ r.head?, Byte.isDigit b = false) : (a ++ r).takeWhile Byte.isDigit = a := by
    rw [List.takeWhile_append_of_pos ha]
    cases r with
    | nil => simp
    | cons b r => simp [hr b rfl]
  have haa : a = a' := by rw [← hspan ha hr, h, hspan ha' hr']
  subst haa
  exact ⟨rfl, List.append_cancel_left h⟩

theorem eq_letterE_of_head? {p : Option (Bool × Bytes)} :
    ∀ b ∈ (powerText p).head?, b = Byte.letterE := by
  intro b hb
  rcases p with _ | ⟨negative, digits⟩
  · cases hb
  · exact (Option.some.inj hb).symm

theorem not_isDigit_powerText (p : Option (Bool × Bytes)) :
    ∀ b ∈ (powerText p).head?, Byte.isDigit b = false := by
  intro b hb
  rw [eq_letterE_of_head? b hb]
  rfl

theorem not_isDigit_pointText (fraction : Bytes) (p : Option (Bool × Bytes)) :
    ∀ b ∈ (pointText fraction ++ powerText p).head?, Byte.isDigit b = false := by
  cases fraction with
  | nil => exact not_isDigit_powerText p
  | cons d fraction =>
    intro b hb
    cases hb
    rfl

theorem signText_append_inj {a a' : Bool} {r r' : Bytes} (hr : ∀ b ∈ r.head?, Byte.isDigit b = true)
    (hr' : ∀ b ∈ r'.head?, Byte.isDigit b = true) (h : signText a ++ r = signText a' ++ r') :
    a = a' ∧ r = r' := by
  cases a <;> cases a'
  · exact ⟨rfl, h⟩
  · exact absurd (hr Byte.minus (congrArg List.head? h)) (by decide)
  · exact absurd (hr' Byte.minus (congrArg List.head? h.symm)) (by decide)
  · exact ⟨rfl, List.append_cancel_left h⟩

theorem pointText_append_inj {f f' : Bytes} {p p' : Option (Bool × Bytes)}
    (hf : ∀ b ∈ f, Byte.isDigit b = true) (hf' : ∀ b ∈ f', Byte.isDigit b = true)
    (h : pointText f ++ powerText p = pointText f' ++ powerText p') :
    f = f' ∧ powerText p = powerText p' := by
  rcases f with _ | ⟨b, f⟩ <;> rcases f' with _ | ⟨b', f'⟩
  · exact ⟨rfl, h⟩
  · exact absurd (eq_letterE_of_head? Byte.dot (congrArg List.head? h)) (by decide)
  · exact absurd (eq_letterE_of_head? Byte.dot (congrArg List.head? h.symm)) (by decide)
  · exact digits_append_inj hf hf' (not_isDigit_powerText p) (not_isDigit_powerText p')
      (List.cons.inj h).2

theorem powerText_inj {p p' : Option (Bool × Bytes)} (h : powerText p = powerText p') : p = p' := by
  rcases p with _ | ⟨negative, digits⟩ <;> rcases p' with _ | ⟨negative', digits'⟩
  · rfl
  · cases h
  · cases h
  · obtain ⟨hsign, rfl⟩ := List.cons.inj (List.cons.inj h).2
    cases negative <;> cases negative' <;> first | rfl | cases hsign

theorem text_injective {n n' : Numeral} (hn : n.Valid) (hn' : n'.Valid) (h : n.text = n'.text) :
    n = n' := by
  have hhead {n : Numeral} (hn : n.Valid) (r : Bytes) :
      ∀ b ∈ (n.whole ++ r).head?, Byte.isDigit b = true := by
    rw [List.head?_append_of_ne_nil _ hn.whole.1]
    exact fun b hb => hn.whole.2 b (List.mem_of_mem_head? hb)
  obtain ⟨hsign, h⟩ := signText_append_inj (hhead hn _) (hhead hn' _) h
  obtain ⟨hwhole, h⟩ := digits_append_inj hn.whole.2 hn'.whole.2 (not_isDigit_pointText _ _)
    (not_isDigit_pointText _ _) h
  obtain ⟨hfraction, h⟩ := pointText_append_inj hn.fraction hn'.fraction h
  have hpower := powerText_inj h
  cases n
  cases n'
  congr

theorem Denotes.unique {text : Bytes} {q q' : ℚ} (h : Denotes text q) (h' : Denotes text q') :
    q = q' := by
  obtain ⟨n, hn, htext, rfl⟩ := h
  obtain ⟨n', hn', htext', rfl⟩ := h'
  rw [text_injective hn hn' (htext.trans htext'.symm)]

theorem trimZeros_concat (f : Bytes) (b : UInt8) : Significant.trimZeros (f ++ [b]) =
    if b = Byte.digitZero then Significant.trimZeros f else f ++ [b] := by
  by_cases hb : b = Byte.digitZero
  · simp [Significant.trimZeros, hb]
  · simp [Significant.trimZeros, hb]

theorem exists_trimZeros (f : Bytes) :
    ∃ k, f = Significant.trimZeros f ++ List.replicate k Byte.digitZero := by
  induction f using List.reverseRecOn with
  | nil => exact ⟨0, rfl⟩
  | append_singleton f b ih =>
    rw [trimZeros_concat]
    split
    · rename_i hb
      obtain ⟨k, hk⟩ := ih
      refine ⟨k + 1, ?_⟩
      rw [List.replicate_succ', ← List.append_assoc, ← hk, hb]
    · exact ⟨0, (List.append_nil _).symm⟩

theorem getLast?_trimZeros (f : Bytes) :
    (Significant.trimZeros f).getLast? ≠ some Byte.digitZero := by
  induction f using List.reverseRecOn with
  | nil => exact fun h => by cases h
  | append_singleton f b ih =>
    rw [trimZeros_concat]
    split
    · exact ih
    · rename_i hb
      rw [List.getLast?_concat]
      exact fun h => hb (Option.some.inj h)

def trimmed (negative : Bool) (whole fraction : Bytes) (power : Option (Bool × Bytes)) : Numeral :=
  ⟨negative, whole, Significant.trimZeros fraction, power⟩

section Trimmed

variable (negative : Bool) (whole fraction : Bytes) (power : Option (Bool × Bytes))

theorem text_trimmed : (trimmed negative whole fraction power).text =
    signText negative ++ (Significant.pointed whole fraction ++ powerText power) := by
  rw [text, trimmed, Significant.pointed]
  cases Significant.trimZeros fraction with
  | nil => rfl
  | cons b f =>
    rw [List.append_assoc]
    rfl

theorem magnitude_append_zeros (k : ℕ) :
    magnitude ⟨negative, whole, fraction ++ List.replicate k Byte.digitZero, power⟩ =
      magnitude ⟨negative, whole, fraction, power⟩ := by
  have hshift : (10 : ℚ) ^ (powerValue power - fraction.length) =
      10 ^ k * 10 ^ (powerValue power - (fraction.length + k : ℕ)) := by
    rw [← zpow_natCast, ← zpow_add₀ (by norm_num)]
    push_cast
    ring_nf
  rw [magnitude, magnitude, hshift]
  simp only [← List.append_assoc, Decimal.value_append_zeros, List.length_append,
    List.length_replicate]
  push_cast
  ring

theorem magnitude_trimmed : (trimmed negative whole fraction power).magnitude =
    magnitude ⟨negative, whole, fraction, power⟩ := by
  obtain ⟨k, hk⟩ := exists_trimZeros fraction
  conv_rhs => rw [hk]
  exact (magnitude_append_zeros ..).symm

theorem valid_trimmed {whole fraction : Bytes} {power : Option (Bool × Bytes)}
    (hwhole : Decimal.IsNumber whole) (hfraction : ∀ b ∈ fraction, Byte.isDigit b = true)
    (hpower : ∀ p ∈ power, Decimal.IsNumber p.2) : (trimmed negative whole fraction power).Valid where
  whole := hwhole
  fraction b hb := by
    obtain ⟨k, hk⟩ := exists_trimZeros fraction
    exact hfraction b (by rw [hk]; exact List.mem_append_left _ hb)
  power := hpower

end Trimmed

theorem denotes_pointZero {n : Numeral} (hn : n.Valid) (hdot : Byte.dot ∉ n.text)
    (hletter : Byte.letterE ∉ n.text) : Denotes (n.text ++ [Byte.dot, Byte.digitZero]) n.value := by
  obtain ⟨negative, whole, fraction, power⟩ := n
  rcases fraction with _ | ⟨b, fraction⟩
  · rcases power with _ | ⟨sign, digits⟩
    · refine ⟨⟨negative, whole, [Byte.digitZero], none⟩, ⟨hn.whole, by simp; decide, hn.power⟩, ?_, ?_⟩
      · simp [text, pointText, powerText]
      · have hmagnitude := magnitude_trimmed negative whole [Byte.digitZero] none
        rw [value, value, ← hmagnitude]
        rfl
    · exact absurd (by simp [text, powerText]) hletter
  · exact absurd (by simp [text, pointText]) hdot

end Numeral
end BytePattern
