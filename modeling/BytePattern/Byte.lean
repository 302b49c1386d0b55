/-!
# Bytes, their classes and sets of them

Patterns, subjects and results are sequences of bytes in no particular encoding. `Bytes` is text read
from the left, `Subject` text addressed by offset. The named bytes are the ones with a meaning in
patterns, templates and command lines.

A class is a set of ASCII bytes named by a letter; the capital letter names its complement, which also
holds every byte above 127. A `ByteSet` is a bitmap of 256 bits in four words. It is built from the members
written between brackets, and `contains` is its only view: `insert` adds one byte and leaves every other as
it was.
-/
namespace BytePattern

abbrev Bytes := List UInt8

abbrev Subject := Array UInt8

def Subject.slice? (s : Subject) (i j : Nat) : Option Bytes :=
  if i ≤ j ∧ j ≤ s.size then some (s.extract i j).toList else none

def Subject.hasAt (s : Subject) (i : Nat) : Bytes → Bool
  | [] => true
  | b :: needle => s[i]? == some b && Subject.hasAt s (i + 1) needle

def utf8 (text : String) : Bytes := text.toList.flatMap String.utf8EncodeChar

namespace Byte

abbrev tab : UInt8 := 9
abbrev newline : UInt8 := 10
abbrev carriageReturn : UInt8 := 13
abbrev space : UInt8 := 32
abbrev dollar : UInt8 := 36
abbrev percent : UInt8 := 37
abbrev parenOpen : UInt8 := 40
abbrev parenClose : UInt8 := 41
abbrev star : UInt8 := 42
abbrev plus : UInt8 := 43
abbrev minus : UInt8 := 45
abbrev dot : UInt8 := 46
abbrev digitZero : UInt8 := 48
abbrev question : UInt8 := 63
abbrev bracketOpen : UInt8 := 91
abbrev bracketClose : UInt8 := 93
abbrev caret : UInt8 := 94
abbrev letterB : UInt8 := 98
abbrev letterE : UInt8 := 101
abbrev letterF : UInt8 := 102

def isUpper (b : UInt8) : Bool := 65 ≤ b && b ≤ 90
def isLower (b : UInt8) : Bool := 97 ≤ b && b ≤ 122
def isDigit (b : UInt8) : Bool := 48 ≤ b && b ≤ 57
def isAlpha (b : UInt8) : Bool := isUpper b || isLower b
def isAlphaNum (b : UInt8) : Bool := isAlpha b || isDigit b

def isGraph (b : UInt8) : Bool := 33 ≤ b && b ≤ 126

def toLower (b : UInt8) : UInt8 := if isUpper b then b + 32 else b

def all : Bytes := (List.range 256).map UInt8.ofNat

theorem mem_all (b : UInt8) : b ∈ all := by
  simp only [all, List.mem_map, List.mem_range]
  exact ⟨b.toNat, b.toNat_lt, UInt8.ofNat_toNat⟩

end Byte

inductive ByteClass
  | letter | control | digit | graph | lower | punct | space | upper | alphaNum | hex | nul
  deriving DecidableEq

namespace ByteClass

def contains : ByteClass → UInt8 → Bool
  | .letter, b => Byte.isAlpha b
  | .control, b => b < 32 || b == 127
  | .digit, b => Byte.isDigit b
  | .graph, b => Byte.isGraph b
  | .lower, b => Byte.isLower b
  | .punct, b => Byte.isGraph b && !Byte.isAlphaNum b
  | .space, b => b == Byte.space || (9 ≤ b && b ≤ 13)
  | .upper, b => Byte.isUpper b
  | .alphaNum, b => Byte.isAlphaNum b
  | .hex, b => Byte.isDigit b || (65 ≤ b && b ≤ 70) || (97 ≤ b && b ≤ 102)
  | .nul, b => b == 0

def name : ByteClass → Char
  | .letter => 'a'
  | .control => 'c'
  | .digit => 'd'
  | .graph => 'g'
  | .lower => 'l'
  | .punct => 'p'
  | .space => 's'
  | .upper => 'u'
  | .alphaNum => 'w'
  | .hex => 'x'
  | .nul => 'z'

def ofName? : Char → Option ByteClass
  | 'a' => some .letter
  | 'c' => some .control
  | 'd' => some .digit
  | 'g' => some .graph
  | 'l' => some .lower
  | 'p' => some .punct
  | 's' => some .space
  | 'u' => some .upper
  | 'w' => some .alphaNum
  | 'x' => some .hex
  | 'z' => some .nul
  | _ => none

theorem ofName?_name (k : ByteClass) : ofName? k.name = some k := by
  cases k <;> rfl

end ByteClass

structure ClassTest where
  kind : ByteClass
  negated : Bool
  deriving DecidableEq

namespace ClassTest

def contains (t : ClassTest) (b : UInt8) : Bool := t.kind.contains b != t.negated

/-- What `b` names after a percent sign: a small letter its class, a capital the complement. -/
def ofLetter? (b : UInt8) : Option ClassTest :=
  (ByteClass.ofName? (Char.ofUInt8 (Byte.toLower b))).map (⟨·, Byte.isUpper b⟩)

end ClassTest

inductive SetMember
  | byte (b : UInt8)
  | range (lo hi : UInt8)
  | ofClass (t : ClassTest)
  deriving DecidableEq

def SetMember.contains : SetMember → UInt8 → Bool
  | .byte x, b => b == x
  | .range lo hi, b => lo ≤ b && b ≤ hi
  | .ofClass t, b => t.contains b

/-- Word `i` holds the bytes from `64 * i` to `64 * i + 63`, the lowest bit first. -/
structure ByteSet where
  word0 : UInt64
  word1 : UInt64
  word2 : UInt64
  word3 : UInt64
  deriving DecidableEq

namespace ByteSet

def empty : ByteSet := ⟨0, 0, 0, 0⟩

/-- The bit of `b` in its word: a shift counts modulo the 64 bits of a word. -/
def bit (b : UInt8) : UInt64 := 1 <<< b.toUInt64

def word (s : ByteSet) (b : UInt8) : UInt64 :=
  if b < 64 then s.word0 else if b < 128 then s.word1 else if b < 192 then s.word2 else s.word3

def contains (s : ByteSet) (b : UInt8) : Bool := s.word b &&& bit b != 0

def insert (s : ByteSet) (b : UInt8) : ByteSet :=
  if b < 64 then { s with word0 := s.word0 ||| bit b }
  else if b < 128 then { s with word1 := s.word1 ||| bit b }
  else if b < 192 then { s with word2 := s.word2 ||| bit b }
  else { s with word3 := s.word3 ||| bit b }

def ofMembers (members : List SetMember) (negated : Bool) : ByteSet :=
  Byte.all.foldl
    (fun s b => if members.any (·.contains b) != negated then s.insert b else s) empty

def bitCount (w : UInt64) : Nat :=
  (List.range 64).countP fun i => w &&& bit (UInt8.ofNat i) != 0

def size (s : ByteSet) : Nat :=
  bitCount s.word0 + bitCount s.word1 + bitCount s.word2 + bitCount s.word3

def isEmpty (s : ByteSet) : Bool :=
  s.word0 == 0 && s.word1 == 0 && s.word2 == 0 && s.word3 == 0

def toList (s : ByteSet) : Bytes := Byte.all.filter s.contains

def summary (s : ByteSet) : String := s!"ByteSet({s.size} members)"

end ByteSet
end BytePattern
