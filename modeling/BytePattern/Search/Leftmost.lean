import BytePattern.Match.Attempt

/-!
# The leftmost match

A search looks for the leftmost match at or after an offset. A plain pattern is searched as a literal, an
anchored one is tried at the offset alone, and any other is tried at one offset after the other, where
offsets without the leading byte of the pattern are passed over. Each search has a step budget of its
own. What is found never starts before the offset (`le_start_of_findAt`).
-/
namespace BytePattern
namespace Subject

/-- The least offset from `i` on at which the needle stands, for `i` inside the subject or at its end. -/
def findFrom (s : Subject) (needle : Bytes) (i : Nat) : Option Nat :=
  if s.hasAt i needle then some i
  else if i < s.size then s.findFrom needle (i + 1) else none
termination_by s.size - i

theorem le_of_findFrom {s : Subject} {needle : Bytes} {i j : Nat}
    (h : s.findFrom needle i = some j) : i ≤ j := by
  fun_induction findFrom s needle i with
  | case1 => cases h; exact Nat.le_refl _
  | case2 i _ _ ih => exact Nat.le_of_succ_le (ih h)
  | case3 => cases h

def findLiteral (s : Subject) (needle : Bytes) (init : Nat) : Option (Nat × Nat) :=
  if s.size < init then none
  else (s.findFrom needle init).map fun i => (i, i + needle.length)

end Subject

namespace Matcher

def canStart (x : Matcher) (i : Nat) : Bool :=
  match x.pattern.leadByte? with
  | some b => x.subject[i]? == some b
  | none => true

def attemptAt (x : Matcher) (m : Memory) (i : Nat) : Except Error (Option Match) × Memory :=
  if x.canStart i then x.attempt m i else (.ok none, m)

def scan (x : Matcher) (m : Memory) (i : Nat) : Except Error (Option Match) × Memory :=
  match x.attemptAt m i with
  | (.ok none, m) => if i < x.subject.size then x.scan m (i + 1) else (.ok none, m)
  | other => other
termination_by x.subject.size - i

def findPlain (x : Matcher) (init : Nat) : Option Match :=
  (x.subject.findFrom x.pattern.source init).map fun i =>
    ⟨i, i + x.pattern.source.length, []⟩

theorem start_eq_of_attempt {x : Matcher} {m m' : Memory} {i : Nat} {found : Match}
    (h : x.attempt m i = (.ok (some found), m')) : found.start = i := by
  unfold attempt at h
  split at h
  · simp only [Except.map, Prod.mk.injEq] at h
    obtain ⟨h, _⟩ := h
    split at h
    · cases h
    · cases h
      rfl
  · cases h
  · cases h

theorem start_eq_of_attemptAt {x : Matcher} {m m' : Memory} {i : Nat} {found : Match}
    (h : x.attemptAt m i = (.ok (some found), m')) : found.start = i := by
  unfold attemptAt at h
  split at h
  · exact start_eq_of_attempt h
  · cases h

theorem le_start_of_scan {x : Matcher} {m m' : Memory} {i : Nat} {found : Match}
    (h : x.scan m i = (.ok (some found), m')) : i ≤ found.start := by
  fun_induction scan x m i with
  | case1 m i m₁ hr _ ih => exact Nat.le_of_succ_le (ih h)
  | case2 => cases h
  | case3 m i hr => exact Nat.le_of_eq (start_eq_of_attemptAt h).symm

/-- The leftmost match at or after `init`; past the end there is none, and no search is made. -/
def findAt (x : Matcher) (m : Memory) (init : Nat) : Except Error (Option Match) × Memory :=
  if x.subject.size < init then (.ok none, m)
  else if x.pattern.plain then (.ok (x.findPlain init), m.resetSteps)
  else if x.pattern.anchored then x.attempt m.resetSteps init
  else x.scan m.resetSteps init

def find (x : Matcher) (init : Nat) : Except Error (Option Match) := (x.findAt .fresh init).1

theorem init_le_of_findAt {x : Matcher} {m m' : Memory} {init : Nat} {found : Match}
    (h : x.findAt m init = (.ok (some found), m')) : init ≤ x.subject.size := by
  unfold findAt at h
  split at h
  · cases h
  · omega

theorem le_start_of_findAt {x : Matcher} {m m' : Memory} {init : Nat} {found : Match}
    (h : x.findAt m init = (.ok (some found), m')) : init ≤ found.start := by
  unfold findAt at h
  split at h
  · cases h
  · split at h
    · simp only [Prod.mk.injEq, Except.ok.injEq, findPlain, Option.map_eq_some_iff] at h
      obtain ⟨⟨i, hi, rfl⟩, _⟩ := h
      exact Subject.le_of_findFrom hi
    · split at h
      · exact Nat.le_of_eq (start_eq_of_attempt h).symm
      · exact le_start_of_scan h

theorem find_past_end {x : Matcher} {init : Nat} (h : x.subject.size < init) :
    x.find init = .ok none := by
  simp [find, findAt, h]

theorem init_le_of_find {x : Matcher} {init : Nat} {found : Match}
    (h : x.find init = .ok (some found)) : init ≤ x.subject.size :=
  init_le_of_findAt (Prod.ext h rfl)

theorem le_start_of_find {x : Matcher} {init : Nat} {found : Match}
    (h : x.find init = .ok (some found)) : init ≤ found.start :=
  le_start_of_findAt (Prod.ext h rfl)

end Matcher
end BytePattern
