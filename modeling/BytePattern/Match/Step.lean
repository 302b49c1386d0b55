import BytePattern.Match.Memory

/-!
# One step of the matcher

A matcher passes the items of a pattern over a subject and takes choices back when an item fails. A step
executes one item or resumes the latest choice; each counts once against the step limit, before it has
any effect. Two items scan the subject in one go: a token for the longest run of bytes that it accepts
(`Subject.runEnd`), and a balanced item for the shortest balanced span (`Subject.balancedEnd`).
-/
namespace BytePattern

def Subject.runEnd (s : Subject) (t : Token) (i : Nat) : Nat :=
  if h : i < s.size then if t.accepts s[i] then s.runEnd t (i + 1) else i else i
termination_by s.size - i

theorem Subject.le_runEnd (s : Subject) (t : Token) (i : Nat) : i ≤ s.runEnd t i := by
  fun_induction Subject.runEnd s t i with
  | case1 i _ _ ih => omega
  | case2 i => exact Nat.le_refl i
  | case3 i => exact Nat.le_refl i

theorem Subject.runEnd_le (s : Subject) (t : Token) (i : Nat) (h : i ≤ s.size) :
    s.runEnd t i ≤ s.size := by
  fun_induction Subject.runEnd s t i with
  | case1 i hi _ ih => exact ih hi
  | case2 i => exact h
  | case3 i => exact h

theorem Subject.runEnd_sub_le (s : Subject) (t : Token) (i : Nat) : s.runEnd t i - i ≤ s.size := by
  by_cases h : i ≤ s.size
  · have := s.runEnd_le t i h
    omega
  · unfold Subject.runEnd
    simp [show ¬ i < s.size by omega]

/-- The end of the span whose first closer stands at or after `i` with `inner` spans open inside it. A
byte that both opens and closes is a closer. -/
def Subject.closeFrom (s : Subject) (opener closer : UInt8) (inner i : Nat) : Option Nat :=
  if h : i < s.size then
    if s[i] = closer then
      match inner with
      | 0 => some (i + 1)
      | inner + 1 => s.closeFrom opener closer inner (i + 1)
    else if s[i] = opener then s.closeFrom opener closer (inner + 1) (i + 1)
    else s.closeFrom opener closer inner (i + 1)
  else none
termination_by s.size - i

def Subject.balancedEnd (s : Subject) (opener closer : UInt8) (i : Nat) : Option Nat :=
  if s[i]? = some opener then s.closeFrom opener closer 0 (i + 1) else none

structure Matcher where
  pattern : Pattern
  subject : Subject
  stepLimit : Option Nat

inductive Focus
  | items (rest : List Item) (i : Nat)
  | retry
  deriving DecidableEq

inductive Step
  | halt (result : Except Error (Option Nat)) (m : Memory)
  | next (m : Memory) (f : Focus)

def Subject.before? (s : Subject) (i : Nat) : Option UInt8 :=
  if i = 0 then some 0 else s[i - 1]?

namespace Matcher

def ofPattern (p : Pattern) (s : Subject) (o : Options) : Matcher := ⟨p, s, o.stepLimit⟩

def acceptsAt (x : Matcher) (t : Token) (i : Nat) : Bool := x.subject[i]?.any t.accepts

def greedy (x : Matcher) (m : Memory) (t : Token) (least : Nat) (next : List Item) (i : Nat) :
    Option (Memory × Nat) :=
  let count := x.subject.runEnd t i - i
  if count < least then none
  else if count = least then some (m, i + count)
  else some (m.push (.fewer i least (count - least - 1)) next, i + count)

/-- Repeats a token at `i`; with `none` the item fails. -/
def repeatToken (x : Matcher) (m : Memory) (t : Token) (q : Quantifier) (next : List Item) (i : Nat) :
    Option (Memory × Nat) :=
  match q with
  | .one => if x.acceptsAt t i then some (m, i + 1) else none
  | .zeroOrMore => x.greedy m t 0 next i
  | .oneOrMore => x.greedy m t 1 next i
  | .lazy => some (m.push (.another t i) next, i)
  | .zeroOrOne =>
    if x.acceptsAt t i then some (m.push (.without i) next, i + 1) else some (m, i)

def close (m : Memory) (slot i : Nat) : Except Error Memory := do
  let old ← inRange m.slots[slot]?
  if i < old.start then .error .outOfRange
  else inRange (m.write slot ⟨old.start, .length (i - old.start)⟩)

def captured (x : Matcher) (m : Memory) (slot : Nat) : Except Error Bytes := do
  let old ← inRange m.slots[slot]?
  match old.extent with
  | .length n => inRange (x.subject.slice? old.start (old.start + n))
  | _ => .error .outOfRange

def execute (x : Matcher) (m : Memory) (next : List Item) (i : Nat) :
    Item → Except Error (Option (Memory × Nat))
  | .single t q => .ok (x.repeatToken m t q next i)
  | .openCapture slot => do
    return some (← inRange (m.write slot ⟨i, .unfinished⟩), i)
  | .closeCapture slot => do
    return some (← close m slot i, i)
  | .positionCapture slot => do
    return some (← inRange (m.write slot ⟨i, .position⟩), i)
  | .balanced opener closer => .ok ((x.subject.balancedEnd opener closer i).map (m, ·))
  | .backReference slot => do
    let text ← x.captured m slot
    if x.subject.size < i then .error .outOfRange
    else if x.subject.hasAt i text then return some (m, i + text.length)
    else return none
  | .frontier set => do
    let before ← inRange (x.subject.before? i)
    let after := x.subject[i]?.getD 0
    return if set.contains before = false ∧ set.contains after then some (m, i) else none
  | .subjectEnd => .ok (if i = x.subject.size then some (m, i) else none)

def resume (x : Matcher) (m : Memory) (c : Choice) : Memory × Focus :=
  match c.alternative with
  | .fewer start least 0 => (m, .items c.next (start + least))
  | .fewer start least (spare + 1) =>
    ({ m with choices := ⟨.fewer start least spare, c.next, c.mark⟩ :: m.choices },
      .items c.next (start + least + spare + 1))
  | .another t i =>
    if x.acceptsAt t i then
      ({ m with choices := ⟨.another t (i + 1), c.next, c.mark⟩ :: m.choices },
        .items c.next (i + 1))
    else (m, .retry)
  | .without i => (m, .items c.next i)

def exceeded? (x : Matcher) (m : Memory) : Option Nat :=
  x.stepLimit.filter fun limit => limit < m.steps

def step (x : Matcher) (m : Memory) : Focus → Step
  | .items [] i => .halt (.ok (some i)) m
  | .items (item :: next) i =>
    let m := m.tick
    match x.exceeded? m with
    | some limit => .halt (.error (.budgetExceeded limit)) m
    | none =>
      match x.execute m next i item with
      | .error e => .halt (.error e) m
      | .ok none => .next m .retry
      | .ok (some (m, i)) => .next m (.items next i)
  | .retry =>
    match m.choices with
    | [] => .halt (.ok none) m
    | c :: older =>
      let m := { m with choices := older }.tick
      match x.exceeded? m with
      | some limit => .halt (.error (.budgetExceeded limit)) m
      | none =>
        let (m, f) := x.resume (m.unwind c.mark) c
        .next m f

end Matcher
end BytePattern
