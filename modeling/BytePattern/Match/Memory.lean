import BytePattern.Error
import BytePattern.Pattern.Basic
import BytePattern.Text.Number

/-!
# Matches and the matcher's memory

A match is a span of the subject with the captures taken on the way. Its values are what a caller sees:
the captures as text or as positions counted from one, or the whole span where there are none.

What a match attempt writes down are a slot for each capture, a trail of overwritten slots, the pending
choices and the number of steps. Taking a choice back first undoes the writes that came after it: the
trail is cut to the length it had when the choice was made.
-/
namespace BytePattern

inductive CaptureValue
  | text (bytes : Bytes)
  | position (n : Nat)
  deriving DecidableEq

def CaptureValue.toBytes : CaptureValue → Bytes
  | .text bytes => bytes
  | .position n => Decimal.ofNat n

inductive Capture
  | substring (start stop : Nat)
  | position (offset : Nat)
  deriving DecidableEq

def Capture.value (s : Subject) : Capture → Except Error CaptureValue
  | .substring i j => do return .text (← inRange (s.slice? i j))
  | .position i => .ok (.position (i + 1))

structure Match where
  start : Nat
  stop : Nat
  captures : List Capture
  deriving DecidableEq

namespace Match

def isEmpty (m : Match) : Bool := m.start == m.stop

def text (m : Match) (s : Subject) : Except Error Bytes := inRange (s.slice? m.start m.stop)

def captureValues (m : Match) (s : Subject) : Except Error (List CaptureValue) :=
  m.captures.mapM (·.value s)

def values (m : Match) (s : Subject) : Except Error (List CaptureValue) :=
  if m.captures = [] then do return [.text (← m.text s)] else m.captureValues s

def firstValue (m : Match) (s : Subject) : Except Error CaptureValue :=
  match m.captures with
  | [] => do return .text (← m.text s)
  | c :: _ => c.value s

end Match

inductive Extent
  | unfinished
  | position
  | length (n : Nat)
  deriving DecidableEq

structure Slot where
  start : Nat
  extent : Extent
  deriving DecidableEq

namespace Slot

def empty : Slot := ⟨0, .unfinished⟩

def capture? (s : Slot) : Option Capture :=
  match s.extent with
  | .unfinished => none
  | .position => some (.position s.start)
  | .length n => some (.substring s.start (s.start + n))

end Slot

inductive Alternative
  /-- A run from `start` of `least + spare` bytes, and after it shorter ones down to `least`. -/
  | fewer (start least spare : Nat)
  | another (token : Token) (i : Nat)
  | without (i : Nat)
  deriving DecidableEq

/-- A pending choice: the alternative, the items after the repeated one, and the length of the trail when
the choice was made. -/
structure Choice where
  alternative : Alternative
  next : List Item
  mark : Nat
  deriving DecidableEq

structure Memory where
  slots : List Slot
  trail : List (Nat × Slot)
  choices : List Choice
  steps : Nat
  deriving DecidableEq

def undo (mark : Nat) : List (Nat × Slot) → List Slot → List (Nat × Slot) × List Slot
  | [], slots => ([], slots)
  | (i, old) :: trail, slots =>
    if mark ≤ trail.length then undo mark trail (slots.set i old) else ((i, old) :: trail, slots)

namespace Memory

def fresh : Memory := ⟨List.replicate captureLimit .empty, [], [], 0⟩

def tick (m : Memory) : Memory := { m with steps := m.steps + 1 }

def resetSteps (m : Memory) : Memory := { m with steps := 0 }

def clear (m : Memory) : Memory := { m with trail := [], choices := [] }

def write (m : Memory) (i : Nat) (slot : Slot) : Option Memory :=
  match m.slots[i]? with
  | some old => some { m with slots := m.slots.set i slot, trail := (i, old) :: m.trail }
  | none => none

def push (m : Memory) (a : Alternative) (next : List Item) : Memory :=
  { m with choices := ⟨a, next, m.trail.length⟩ :: m.choices }

def unwind (m : Memory) (mark : Nat) : Memory :=
  let (trail, slots) := undo mark m.trail m.slots
  { m with trail, slots }

def captures (m : Memory) (count : Nat) : Except Error (List Capture) :=
  if count ≤ m.slots.length then (m.slots.take count).mapM fun s => inRange s.capture?
  else .error .outOfRange

end Memory
end BytePattern
