import BytePattern.Pattern.Basic
import BytePattern.Pattern.Element

/-!
# Compiling a pattern

The elements of a source become the items of a pattern, one for one. What an element may do depends on
the elements before it: which captures they opened and closed, and whether the last one was quantified.
`Scope` is that much of the past. The fault that is reported is the first from the left; an opening
parenthesis that is never closed is found last.
-/
namespace BytePattern

inductive CaptureState
  | position | opened | closed
  deriving DecidableEq

def CaptureState.kind : CaptureState → CaptureKind
  | .position => .position
  | .opened => .substring
  | .closed => .substring

structure Scope where
  captures : List CaptureState
  opened : List (Nat × Nat)
  barrier : Option Barrier
  deriving DecidableEq

namespace Scope

def start (anchored : Bool) : Scope :=
  ⟨[], [], if anchored then some .anchor else none⟩

/-- A quantifier byte may not begin an element right after an anchor or a quantifier; the minus sign may,
and stands for itself. -/
def checkLead (sc : Scope) (offset : Nat) (b : UInt8) : Except Fault Unit :=
  match sc.barrier with
  | some k =>
    if b = Byte.star ∨ b = Byte.plus ∨ b = Byte.question then
      .error ⟨.strayQuantifier b k, offset⟩
    else .ok ()
  | none => .ok ()

def capture (sc : Scope) (limit offset : Nat) (state : CaptureState) : Except Fault Scope :=
  if sc.captures.length < limit then .ok { sc with captures := sc.captures ++ [state] }
  else .error ⟨.tooManyCaptures, offset⟩

def add (sc : Scope) (limit offset : Nat) (e : Element) : Except Fault (Item × Scope) :=
  let past := { sc with barrier := none }
  let slot := sc.captures.length
  match e with
  | .position => do
    let next ← past.capture limit offset .position
    return (.positionCapture slot, next)
  | .opening => do
    let next ← past.capture limit offset .opened
    return (.openCapture slot, { next with opened := (slot, offset) :: sc.opened })
  | .closing =>
    match sc.opened with
    | [] => .error ⟨.strayClose, offset⟩
    | (i, _) :: outer =>
      .ok (.closeCapture i, { past with captures := sc.captures.set i .closed, opened := outer })
  | .subjectEnd => .ok (.subjectEnd, past)
  | .balanced x y => .ok (.balanced x y, past)
  | .frontier set => .ok (.frontier set, past)
  | .backReference d =>
    if 0 < d ∧ sc.captures[d - 1]? = some .closed then .ok (.backReference (d - 1), past)
    else .error ⟨.badBackReference d, offset⟩
  | .single t q =>
    .ok (.single t q, { past with barrier := if q = .one then none else some .quantifier })

def finish (sc : Scope) : Except Fault Scope :=
  match sc.opened with
  | [] => .ok sc
  | (_, offset) :: _ => .error ⟨.unfinishedCapture, offset⟩

end Scope

namespace Pattern

def compileFrom (limit offset : Nat) (sc : Scope) : Bytes → Except Fault (List Item × Scope)
  | [] => do
    let last ← sc.finish
    return ([], last)
  | b :: rest => do
    sc.checkLead offset b
    let (e, taken) ← Element.read offset b rest
    let (item, next) ← sc.add limit offset e
    let (items, last) ← compileFrom limit (offset + 1 + taken) next (rest.drop taken)
    return (item :: items, last)
termination_by source => source.length
decreasing_by simp only [List.length_cons, List.length_drop]; omega

def isAnchored (source : Bytes) : Bool := source.head? == some Byte.caret

def compileWithin (limit : Nat) (source : Bytes) : Except Fault Pattern := do
  let anchored := isAnchored source
  let offset := if anchored then 1 else 0
  let (items, last) ← compileFrom limit offset (Scope.start anchored) (source.drop offset)
  return ⟨source, items, last.captures.map (·.kind), anchored⟩

def compile (o : Options) (source : Bytes) : Except Error Pattern :=
  (compileWithin o.ceiling source).mapError .malformed

end Pattern
end BytePattern
