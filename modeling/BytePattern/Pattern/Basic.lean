import BytePattern.Byte

/-!
# Patterns and the options they are compiled and searched with

A pattern is a list of items that a match passes from left to right. A single item repeats a token that
accepts one byte at a time; the other items take no byte of their own, except a balanced span and the
copy of a capture. Captures are numbered from zero in the order in which they open.

The step limit bounds one search, the capture limit what a pattern may contain. No pattern has more than
`captureLimit` captures, whatever is asked for.
-/
namespace BytePattern

def captureLimit : Nat := 32

structure Options where
  stepLimit : Option Nat := none
  maxCaptures : Nat := captureLimit
  deriving DecidableEq

namespace Options

def withStepLimit (o : Options) (limit : Nat) : Options := { o with stepLimit := some limit }

def withMaxCaptures (o : Options) (n : Nat) : Options := { o with maxCaptures := min n captureLimit }

def ceiling (o : Options) : Nat := min o.maxCaptures captureLimit

theorem ceiling_le (o : Options) : o.ceiling ≤ captureLimit := Nat.min_le_right ..

theorem ceiling_withMaxCaptures (o : Options) (n : Nat) :
    (o.withMaxCaptures n).ceiling = min n captureLimit := by
  simp [ceiling, withMaxCaptures]

end Options

inductive Token
  | byte (b : UInt8)
  | any
  | ofClass (t : ClassTest)
  | set (s : ByteSet)
  deriving DecidableEq

def Token.accepts : Token → UInt8 → Bool
  | .byte x, b => b == x
  | .any, _ => true
  | .ofClass t, b => t.contains b
  | .set s, b => s.contains b

inductive Quantifier
  | one | zeroOrMore | oneOrMore | lazy | zeroOrOne
  deriving DecidableEq

def Quantifier.ofByte? (b : UInt8) : Option Quantifier :=
  if b = Byte.star then some .zeroOrMore
  else if b = Byte.plus then some .oneOrMore
  else if b = Byte.minus then some .lazy
  else if b = Byte.question then some .zeroOrOne
  else none

inductive Item
  | single (token : Token) (quantifier : Quantifier)
  | openCapture (slot : Nat)
  | closeCapture (slot : Nat)
  | positionCapture (slot : Nat)
  | balanced (opener closer : UInt8)
  | backReference (slot : Nat)
  | frontier (set : ByteSet)
  | subjectEnd
  deriving DecidableEq

inductive CaptureKind
  | substring | position
  deriving DecidableEq

structure Pattern where
  source : Bytes
  items : List Item
  captures : List CaptureKind
  anchored : Bool
  deriving DecidableEq

def specials : Bytes :=
  [Byte.caret, Byte.dollar, Byte.star, Byte.plus, Byte.question, Byte.dot, Byte.parenOpen,
    Byte.parenClose, Byte.bracketOpen, Byte.percent, Byte.minus]

def isPlain (source : Bytes) : Bool := source.all (!specials.contains ·)

namespace Pattern

def captureCount (p : Pattern) : Nat := p.captures.length

def plain (p : Pattern) : Bool := isPlain p.source

def leadByte? (p : Pattern) : Option UInt8 :=
  match p.items with
  | .single (.byte b) .one :: _ => some b
  | .single (.byte b) .oneOrMore :: _ => some b
  | _ => none

end Pattern
end BytePattern
