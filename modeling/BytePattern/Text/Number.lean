import BytePattern.Byte

/-!
# The text of numbers

Integers are written in base ten without leading zeros; a negative one starts with a minus sign. Reading
takes digits alone: a sign is for the caller.

The text of a binary64 number has fourteen digits at most. Its exact value is rounded to fourteen
significant digits, a half to the even neighbour, and the exponent of the result chooses the notation. From
`0.0001` up to fourteen digits before the point that is place notation, for which the value is rounded to
the places that the exponent leaves behind the point; otherwise the digits are followed by an exponent of
two digits or more. Superfluous zeros are left out, and a number that would read as an integer ends in `.0`.
-/
namespace BytePattern
namespace Decimal

def digit (d : Nat) : UInt8 := Byte.digitZero + UInt8.ofNat d

def ofNat (n : Nat) : Bytes :=
  if n < 10 then [digit n] else ofNat (n / 10) ++ [digit (n % 10)]

def ofInt (i : Int) : Bytes :=
  if i < 0 then Byte.minus :: ofNat i.natAbs else ofNat i.toNat

def padded : Nat → Nat → Bytes
  | 0, _ => []
  | width + 1, n => padded width (n / 10) ++ [digit (n % 10)]

theorem length_padded (width n : Nat) : (padded width n).length = width := by
  induction width generalizing n with
  | zero => rfl
  | succ width ih => simp [padded, ih]

def toNat? (text : Bytes) : Option Nat :=
  if text ≠ [] ∧ text.all Byte.isDigit then
    some (text.foldl (fun n b => 10 * n + (b - Byte.digitZero).toNat) 0)
  else none

end Decimal

structure Binary64 where
  bits : UInt64
  deriving DecidableEq

/-- A decimal with `digits` as its significant digits, the first of them worth `10 ^ exponent`. -/
structure Significant where
  digits : Nat
  exponent : Int
  deriving DecidableEq

namespace Significant

def precision : Nat := 14

/-- The integer nearest to `num / den`, a half to the even one. -/
def nearest (num den : Nat) : Nat :=
  let q := num / den
  let r := num % den
  if 2 * r < den then q else if den < 2 * r then q + 1 else q + q % 2

def tenPowLe (e : Int) (num den : Nat) : Bool :=
  den * Nat.pow 10 e.toNat ≤ num * Nat.pow 10 (-e).toNat

/-- The exponent of the leading digit of `num / den`: the digit counts leave two candidates. -/
def leading (num den : Nat) : Int :=
  let e : Int := (Decimal.ofNat num).length - (Decimal.ofNat den).length
  if tenPowLe e num den then e else e - 1

def ofRatio (num den : Nat) : Significant :=
  if num = 0 then ⟨0, 0⟩
  else
    let e := leading num den
    let k := e - (precision - 1)
    let d := nearest (num * Nat.pow 10 (-k).toNat) (den * Nat.pow 10 k.toNat)
    if d = Nat.pow 10 precision then ⟨Nat.pow 10 (precision - 1), e + 1⟩ else ⟨d, e⟩

def trimZeros (fraction : Bytes) : Bytes :=
  (fraction.reverse.dropWhile (· == Byte.digitZero)).reverse

def pointed (whole fraction : Bytes) : Bytes :=
  match trimZeros fraction with
  | [] => whole
  | f => whole ++ Byte.dot :: f

def exponentText (e : Int) : Bytes :=
  Byte.letterE :: (if e < 0 then Byte.minus else Byte.plus) ::
    if e.natAbs < 10 then Decimal.padded 2 e.natAbs else Decimal.ofNat e.natAbs

def scientific (d : Significant) : Bytes :=
  let digits := Decimal.padded precision d.digits
  pointed (digits.take 1) (digits.drop 1) ++ exponentText d.exponent

def fixed (places num den : Nat) : Bytes :=
  let n := nearest (num * Nat.pow 10 places) den
  pointed (Decimal.ofNat (n / Nat.pow 10 places)) (Decimal.padded places (n % Nat.pow 10 places))

def bareText (num den : Nat) : Bytes :=
  let d := ofRatio num den
  if d.exponent < -4 ∨ precision ≤ d.exponent then d.scientific
  else fixed (precision - 1 - d.exponent).toNat num den

def text (num den : Nat) : Bytes :=
  let bare := bareText num den
  if Byte.dot ∈ bare ∨ Byte.letterE ∈ bare then bare else bare ++ [Byte.dot, Byte.digitZero]

end Significant

namespace Binary64

def negative (x : Binary64) : Bool := x.bits >>> 63 == 1

def exponentBits (x : Binary64) : Nat := (x.bits >>> 52).toNat % 2048

def fractionBits (x : Binary64) : Nat := x.bits.toNat % Nat.pow 2 52

def isFinite (x : Binary64) : Bool := x.exponentBits < 2047

def isNan (x : Binary64) : Bool := x.exponentBits == 2047 && x.fractionBits != 0

/-- A finite number is, up to its sign, this many times the least positive one, `1 / unitsPerOne`. -/
def units (x : Binary64) : Nat :=
  if x.exponentBits = 0 then x.fractionBits
  else (Nat.pow 2 52 + x.fractionBits) * Nat.pow 2 (x.exponentBits - 1)

def unitsPerOne : Nat := Nat.pow 2 1074

def magnitudeText (x : Binary64) : Bytes :=
  if x.isFinite then Significant.text x.units unitsPerOne
  else if x.isNan then utf8 "nan"
  else utf8 "inf"

def text (x : Binary64) : Bytes :=
  if x.negative then Byte.minus :: x.magnitudeText else x.magnitudeText

end Binary64
end BytePattern
