import BytePattern.Search.Leftmost

/-!
# All matches

The matches in a subject, one after the other. After a match the search goes on at its end, but at least
one byte after its start, so that an empty match does not repeat. An anchored pattern matches once at
most, at the first offset. After the end or an error nothing more follows.
-/
namespace BytePattern

structure Matches where
  pattern : Pattern
  subject : Subject
  options : Options
  offset : Nat
  done : Bool

def Match.resumeAt (m : Match) : Nat := max m.stop (m.start + 1)

theorem Match.start_lt_resumeAt (m : Match) : m.start < m.resumeAt := Nat.le_max_right ..

theorem Match.stop_le_resumeAt (m : Match) : m.stop ≤ m.resumeAt := Nat.le_max_left ..

namespace Matches

def ofPattern (p : Pattern) (s : Subject) (o : Options) (init : Nat) : Matches := ⟨p, s, o, init, false⟩

/-- The next match or the error that ends the sequence; every search has its own memory. -/
def next (it : Matches) : Option (Except Error Match) × Matches :=
  if it.done then (none, it)
  else
    match (Matcher.ofPattern it.pattern it.subject it.options).find it.offset with
    | .ok (some m) =>
      (some (.ok m), { it with offset := m.resumeAt, done := it.pattern.anchored })
    | .ok none => (none, { it with done := true })
    | .error e => (some (.error e), { it with done := true })

def rest (it : Matches) : Nat := if it.done then 0 else it.subject.size + 2 - it.offset

theorem rest_next {it it' : Matches} {r : Except Error Match} (h : it.next = (some r, it')) :
    it'.rest < it.rest := by
  unfold next at h
  split at h
  · cases h
  · rename_i hd
    have hpos : it.rest = it.subject.size + 2 - it.offset := by simp [rest, hd]
    split at h
    · rename_i m hm
      have h1 : it.offset ≤ it.subject.size := Matcher.init_le_of_find hm
      have h2 := Matcher.le_start_of_find hm
      have h3 := m.start_lt_resumeAt
      cases h
      rw [hpos]
      simp only [rest]
      split <;> omega
    · cases h
    · rename_i e he
      have h1 : it.offset ≤ it.subject.size := by
        false_or_by_contra
        rename_i hn
        rw [Matcher.find_past_end (Nat.lt_of_not_le hn)] at he
        cases he
      cases h
      rw [hpos]
      simp only [rest, if_true]
      omega

def toList (it : Matches) : List (Except Error Match) :=
  match _h : it.next with
  | (some r, it') => r :: it'.toList
  | (none, _) => []
termination_by it.rest
decreasing_by exact rest_next ‹_›

def valuesOf (s : Subject) (r : Except Error Match) : Except Error (List CaptureValue) := do
  (← r).values s

end Matches
end BytePattern
