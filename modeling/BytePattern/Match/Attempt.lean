import BytePattern.Match.Step

/-!
# Match attempts

An attempt starts at an offset and steps until it halts. It starts from the slots and the step count of the
attempts before it, with nothing pending. It halts because every step leaves less to try: an item weighs
more than all that it can leave pending together with the items after it, and a pending choice more than
what resuming it leads to. So every step lowers the weight of the choices and the focus (`step_weight`),
whatever the memory holds.
-/
namespace BytePattern

/-- An item outweighs, `n + 2` times over, the items after it. -/
def itemsWeight (n : Nat) : List Item → Nat
  | [] => 0
  | _ :: rest => (n + 2) * (1 + itemsWeight n rest)

def Choice.weight (n : Nat) (c : Choice) : Nat :=
  match c.alternative with
  | .fewer _ _ spare => (spare + 1) * (1 + itemsWeight n c.next)
  | .another _ i => (n - i) * (1 + itemsWeight n c.next) + 1
  | .without _ => 1 + itemsWeight n c.next

def Focus.weight (n : Nat) : Focus → Nat
  | .items rest _ => itemsWeight n rest
  | .retry => 0

def choicesWeight (n : Nat) : List Choice → Nat
  | [] => 0
  | c :: older => c.weight n + choicesWeight n older

def Memory.weight (n : Nat) (m : Memory) : Nat := choicesWeight n m.choices

namespace Memory

@[simp] theorem weight_tick (n : Nat) (m : Memory) : m.tick.weight n = m.weight n := rfl

@[simp] theorem weight_unwind (n mark : Nat) (m : Memory) :
    (m.unwind mark).weight n = m.weight n := rfl

theorem weight_write {n : Nat} {m m' : Memory} {i : Nat} {slot : Slot}
    (h : m.write i slot = some m') : m'.weight n = m.weight n := by
  unfold write at h
  split at h
  · cases h; rfl
  · cases h

theorem weight_push (n : Nat) (m : Memory) (a : Alternative) (next : List Item) :
    (m.push a next).weight n = Choice.weight n ⟨a, next, m.trail.length⟩ + m.weight n := by
  simp only [push, weight, choicesWeight]

end Memory

theorem inRange_eq_ok {α : Type} {o : Option α} {a : α} : inRange o = .ok a ↔ o = some a := by
  cases o <;> simp [inRange]

namespace Matcher

theorem greedy_weight {x : Matcher} {m m' : Memory} {t : Token} {least : Nat}
    {next : List Item} {i j : Nat} (h : x.greedy m t least next i = some (m', j)) :
    m'.weight x.subject.size + itemsWeight x.subject.size next <
      m.weight x.subject.size + (x.subject.size + 2) * (1 + itemsWeight x.subject.size next) := by
  have hc := x.subject.runEnd_sub_le t i
  unfold greedy at h
  generalize x.subject.runEnd t i - i = count at h hc
  generalize hw : itemsWeight x.subject.size next = w
  simp only at h
  split at h
  · cases h
  · split at h
    · cases h
      have : (x.subject.size + 2) * (1 + w) = x.subject.size * (1 + w) + 2 * (1 + w) :=
        Nat.add_mul ..
      omega
    · cases h
      rw [Memory.weight_push]
      simp only [Choice.weight, hw]
      have h1 : (count - least - 1 + 1) * (1 + w) ≤ (x.subject.size + 1) * (1 + w) :=
        Nat.mul_le_mul_right _ (by omega)
      have h2 : (x.subject.size + 2) * (1 + w) = (x.subject.size + 1) * (1 + w) + (1 + w) :=
        Nat.succ_mul ..
      omega

theorem repeatToken_weight {x : Matcher} {m m' : Memory} {t : Token} {q : Quantifier}
    {next : List Item} {i j : Nat} (h : x.repeatToken m t q next i = some (m', j)) :
    m'.weight x.subject.size + itemsWeight x.subject.size next <
      m.weight x.subject.size + (x.subject.size + 2) * (1 + itemsWeight x.subject.size next) := by
  have hadd (w : Nat) : (x.subject.size + 2) * (1 + w) = x.subject.size * (1 + w) + 2 * (1 + w) :=
    Nat.add_mul ..
  cases q with
  | one =>
    simp only [repeatToken] at h
    split at h
    · cases h
      have := hadd (itemsWeight x.subject.size next)
      omega
    · cases h
  | zeroOrMore => exact greedy_weight (show x.greedy m t 0 next i = some (m', j) from h)
  | oneOrMore => exact greedy_weight (show x.greedy m t 1 next i = some (m', j) from h)
  | lazy =>
    cases h
    rw [Memory.weight_push]
    simp only [Choice.weight]
    generalize itemsWeight x.subject.size next = w
    have h1 : (x.subject.size - i) * (1 + w) ≤ x.subject.size * (1 + w) :=
      Nat.mul_le_mul_right _ (Nat.sub_le ..)
    have := hadd w
    omega
  | zeroOrOne =>
    simp only [repeatToken] at h
    have := hadd (itemsWeight x.subject.size next)
    split at h
    · cases h
      rw [Memory.weight_push]
      simp only [Choice.weight]
      omega
    · cases h
      omega

theorem close_weight {n : Nat} {m m' : Memory} {slot i : Nat} (h : close m slot i = .ok m') :
    m'.weight n = m.weight n := by
  simp only [close, bind, Except.bind] at h
  split at h
  · cases h
  · split at h
    · cases h
    · exact Memory.weight_write (inRange_eq_ok.1 h)

theorem execute_weight {x : Matcher} {m m' : Memory} {next : List Item} {i j : Nat} {item : Item}
    (h : x.execute m next i item = .ok (some (m', j))) :
    m'.weight x.subject.size + itemsWeight x.subject.size next <
      m.weight x.subject.size + itemsWeight x.subject.size (item :: next) := by
  have hpos : itemsWeight x.subject.size next < itemsWeight x.subject.size (item :: next) := by
    have : (x.subject.size + 2) * (1 + itemsWeight x.subject.size next) =
        x.subject.size * (1 + itemsWeight x.subject.size next) +
          2 * (1 + itemsWeight x.subject.size next) := Nat.add_mul ..
    simp only [itemsWeight]
    omega
  suffices hm : m'.weight x.subject.size = m.weight x.subject.size ∨
      ∃ t q, item = .single t q by
    rcases hm with hm | ⟨t, q, rfl⟩
    · omega
    · simp only [execute, Except.ok.injEq] at h
      exact repeatToken_weight h
  cases item with
  | single t q => exact .inr ⟨t, q, rfl⟩
  | openCapture slot =>
    simp only [execute, bind, Except.bind, pure, Except.pure] at h
    split at h
    · cases h
    · cases h
      exact .inl (Memory.weight_write (inRange_eq_ok.1 ‹_›))
  | closeCapture slot =>
    simp only [execute, bind, Except.bind, pure, Except.pure] at h
    split at h
    · cases h
    · cases h
      exact .inl (close_weight ‹_›)
  | positionCapture slot =>
    simp only [execute, bind, Except.bind, pure, Except.pure] at h
    split at h
    · cases h
    · cases h
      exact .inl (Memory.weight_write (inRange_eq_ok.1 ‹_›))
  | balanced opener closer =>
    simp only [execute, Except.ok.injEq, Option.map_eq_some_iff] at h
    obtain ⟨_, _, h⟩ := h
    cases h
    exact .inl rfl
  | backReference slot =>
    simp only [execute, bind, Except.bind, pure, Except.pure] at h
    split at h
    · cases h
    · split at h
      · cases h
      · split at h <;> cases h
        exact .inl rfl
  | frontier set =>
    simp only [execute, bind, Except.bind, pure, Except.pure] at h
    split at h
    · cases h
    · split at h <;> cases h
      exact .inl rfl
  | subjectEnd =>
    simp only [execute, Except.ok.injEq] at h
    split at h <;> cases h
    exact .inl rfl

theorem resume_weight (x : Matcher) (m : Memory) (c : Choice) :
    (x.resume m c).1.weight x.subject.size + (x.resume m c).2.weight x.subject.size <
      c.weight x.subject.size + m.weight x.subject.size := by
  obtain ⟨a, next, mark⟩ := c
  cases a with
  | fewer start least spare =>
    cases spare with
    | zero =>
      simp only [resume, Choice.weight, Focus.weight]
      omega
    | succ spare =>
      simp only [resume, Choice.weight, Focus.weight, Memory.weight, choicesWeight,
        Nat.succ_mul]
      omega
  | another t i =>
    simp only [resume, Choice.weight]
    generalize hw : itemsWeight x.subject.size next = w
    split
    · have hi : i < x.subject.size := by
        have h : x.acceptsAt t i = true := ‹_›
        simp only [acceptsAt, Option.any_eq_true] at h
        obtain ⟨_, h, _⟩ := h
        exact (Array.getElem?_eq_some_iff.1 h).1
      simp only [Memory.weight, Choice.weight, Focus.weight, choicesWeight, hw]
      have h1 : (x.subject.size - i) * (1 + w) = (x.subject.size - (i + 1)) * (1 + w) + (1 + w) := by
        rw [← Nat.succ_mul]
        congr 1
        omega
      omega
    · simp only [Focus.weight]
      omega
  | without i =>
    simp only [resume, Choice.weight, Focus.weight]
    omega

theorem step_weight {x : Matcher} {m m' : Memory} {f f' : Focus} (h : x.step m f = .next m' f') :
    m'.weight x.subject.size + f'.weight x.subject.size <
      m.weight x.subject.size + f.weight x.subject.size := by
  cases f with
  | items rest i =>
    cases rest with
    | nil => cases h
    | cons item next =>
      simp only [step] at h
      split at h
      · cases h
      · split at h
        · cases h
        · cases h
          have : (x.subject.size + 2) * (1 + itemsWeight x.subject.size next) =
              x.subject.size * (1 + itemsWeight x.subject.size next) +
                2 * (1 + itemsWeight x.subject.size next) := Nat.add_mul ..
          simp only [Focus.weight, itemsWeight, Memory.weight_tick]
          omega
        · cases h
          exact execute_weight (m := m.tick) ‹_›
  | retry =>
    simp only [step] at h
    split at h
    · cases h
    · rename_i c older hc
      split at h
      · cases h
      · cases h
        have := resume_weight x (({ m with choices := older }.tick).unwind c.mark) c
        simp only [Memory.weight_unwind, Memory.weight_tick] at this
        simp only [Memory.weight, Focus.weight, hc, choicesWeight] at this ⊢
        omega


def run (x : Matcher) (m : Memory) (f : Focus) : Except Error (Option Nat) × Memory :=
  match _h : x.step m f with
  | .halt result m' => (result, m')
  | .next m' f' => x.run m' f'
termination_by m.weight x.subject.size + f.weight x.subject.size
decreasing_by exact step_weight ‹_›

theorem run_of_halt {x : Matcher} {m m' : Memory} {f : Focus} {result : Except Error (Option Nat)}
    (h : x.step m f = .halt result m') : x.run m f = (result, m') := by
  rw [run]
  split
  · rename_i h'
    cases h.symm.trans h'
    rfl
  · rename_i h'
    cases h.symm.trans h'

theorem run_of_next {x : Matcher} {m m' : Memory} {f f' : Focus} (h : x.step m f = .next m' f') :
    x.run m f = x.run m' f' := by
  rw [run]
  split
  · rename_i h'
    cases h.symm.trans h'
  · rename_i h'
    cases h.symm.trans h'
    rfl

def tryMatch (x : Matcher) (m : Memory) (start : Nat) : Except Error (Option Nat) × Memory :=
  x.run m.clear (.items x.pattern.items start)

def attempt (x : Matcher) (m : Memory) (start : Nat) : Except Error (Option Match) × Memory :=
  match x.tryMatch m start with
  | (.ok (some stop), m) =>
    ((m.captures x.pattern.captureCount).map fun captures => some ⟨start, stop, captures⟩, m)
  | (.ok none, m) => (.ok none, m)
  | (.error e, m) => (.error e, m)

end Matcher
end BytePattern
