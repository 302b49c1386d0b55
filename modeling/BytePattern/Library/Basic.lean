import BytePattern.Pattern.Compile
import BytePattern.Replace.Substitute

/-!
# The library

Finding, matching, iterating and substituting for callers that count positions from one, and negative
positions from the end. `startOffset` turns such a position into an offset from zero for a subject of a
given length, in arithmetic on words of 64 bits that fails where a result is no word. A library has
options and may keep compiled patterns: its cache has one entry for every source that was compiled since
it was last cleared, and none for a malformed one. Every compilation makes a new object; the cache hands
out the object it made before.
-/
namespace BytePattern

/-- Why the result of an operation on words is no word. -/
inductive Overflow
  | sum | difference
  deriving DecidableEq

namespace Word

def sum (a b : UInt64) : Except Overflow UInt64 :=
  if a.toNat + b.toNat < UInt64.size then .ok (a + b) else .error .sum

def difference (a b : UInt64) : Except Overflow UInt64 :=
  if b ≤ a then .ok (a - b) else .error .difference

end Word

/-- The distance of a position from zero; the least position has one, too. -/
def distance (i : Int64) : UInt64 := if i < 0 then 0 - i.toUInt64 else i.toUInt64

/-- The position as counted from the start. One that lies before the first byte is the first. -/
def absolutePosition (i : Int64) (length : UInt64) : Except Overflow UInt64 :=
  if 0 < i then .ok i.toUInt64
  else if i = 0 then .ok 1
  else if length < distance i then .ok 1
  else do Word.sum (← Word.difference length (distance i)) 1

/-- The offset of a position, the first if none is given. Past `length + 1` there is none. -/
def startOffset (init : Option Int64) (length : UInt64) : Except Overflow (Option UInt64) := do
  let p ← absolutePosition (init.getD 1) length
  if (← Word.sum length 1) < p then return none
  return some (← Word.difference p 1)

structure Compiled where
  pattern : Pattern
  serial : Nat
  deriving DecidableEq

abbrev Cache := List (Bytes × Compiled)

structure Library where
  options : Options
  cache : Option Cache
  compilations : Nat

/-- A span counted from one, both ends included, with its captures. -/
structure Found where
  first : Nat
  last : Nat
  captures : List CaptureValue
  deriving DecidableEq

namespace Library

def ofOptions (o : Options) (cached : Bool) : Library := ⟨o, if cached then some [] else none, 0⟩

def clear (lib : Library) : Library := { lib with cache := lib.cache.map fun _ => [] }

def cacheSize (lib : Library) : Option Nat := lib.cache.map List.length

def compileFresh (source : Bytes) : Effect Library Compiled := do
  let lib ← get
  let p ← Pattern.compile lib.options source
  set { lib with compilations := lib.compilations + 1 }
  return ⟨p, lib.compilations⟩

def compile (source : Bytes) : Effect Library Compiled := do
  match (← get).cache with
  | none => compileFresh source
  | some entries =>
    match entries.lookup source with
    | some c => return c
    | none =>
      let c ← compileFresh source
      modify fun lib => { lib with cache := some ((source, c) :: entries) }
      return c

/-- The offset of the first search. A subject in memory is too short for its length to overflow. -/
def initOffset (s : Subject) (init : Option Int64) : Option Nat :=
  match startOffset init (UInt64.ofNat s.size) with
  | .ok offset => offset.map UInt64.toNat
  | .error _ => none

def searchFrom (s : Subject) (source : Bytes) (i : Nat) : Effect Library (Option Match) := do
  let c ← compile source
  (Matcher.ofPattern c.pattern s (← get).options).find i

def find (s : Subject) (source : Bytes) (init : Option Int64) (plain : Bool) :
    Effect Library (Option Found) := do
  match initOffset s init with
  | none => return none
  | some i =>
    if plain then
      return (s.findLiteral source i).map fun (start, stop) => ⟨start + 1, stop, []⟩
    else
      match ← searchFrom s source i with
      | none => return none
      | some m => return some ⟨m.start + 1, m.stop, ← m.captureValues s⟩

def firstValues (s : Subject) (source : Bytes) (init : Option Int64) :
    Effect Library (Option (List CaptureValue)) := do
  match initOffset s init with
  | none => return none
  | some i =>
    match ← searchFrom s source i with
    | none => return none
    | some m => return some (← m.values s)

/-- All matches. The source is compiled even if the sequence starts past the end and is empty. -/
def allMatches (s : Subject) (source : Bytes) (init : Option Int64) : Effect Library Matches := do
  let c ← compile source
  return Matches.ofPattern c.pattern s (← get).options ((initOffset s init).getD (s.size + 1))

def substitute {σ : Type} (s : Subject) (source : Bytes) (r : Replacement σ) (limit : Option Int64)
    (state : σ) : Effect Library (Except Error (Bytes × Nat) × σ) := do
  let c ← compile source
  let x := Matcher.ofPattern c.pattern s (← get).options
  return (x.substitute r (limit.map fun n => n.toInt.toNat)).run.run state

end Library
end BytePattern
