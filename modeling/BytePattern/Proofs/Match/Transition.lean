import BytePattern.Match.Attempt

/-!
# What a step does

A step that does not halt executes an item, which passes or fails, or resumes the latest choice
(`Matcher.Transition`). Of the memory an item changes one thing at most: it pushes a choice of its own or
writes the slot that it is for (`Matcher.memory_of_execute`). A choice that is resumed leads past its item
or fails, and may go back on the stack with its mark (`Matcher.resume_cases`).
-/
namespace BytePattern

def Item.slot? : Item → Option Nat
  | .openCapture k => some k
  | .closeCapture k => some k
  | .positionCapture k => some k
  | _ => none

inductive Alternative.Of (t : Token) : Quantifier → Alternative → Prop
  | zeroOrMore {start spare : Nat} : Of t .zeroOrMore (.fewer start 0 spare)
  | oneOrMore {start spare : Nat} : Of t .oneOrMore (.fewer start 1 spare)
  | lazy {i : Nat} : Of t .lazy (.another t i)
  | zeroOrOne {i : Nat} : Of t .zeroOrOne (.without i)

namespace Matcher

variable {x : Matcher} {m m' : Memory} {f f' : Focus}

inductive Transition (x : Matcher) : Memory → Focus → Memory → Focus → Prop
  | fails {m : Memory} {item : Item} {next : List Item} {i : Nat} :
      x.execute m.tick next i item = .ok none →
      Transition x m (.items (item :: next) i) m.tick .retry
  | passes {m m' : Memory} {item : Item} {next : List Item} {i j : Nat} :
      x.execute m.tick next i item = .ok (some (m', j)) →
      Transition x m (.items (item :: next) i) m' (.items next j)
  | resumes {m : Memory} {c : Choice} {older : List Choice} :
      m.choices = c :: older →
      Transition x m .retry
        (x.resume (({ m with choices := older }.tick).unwind c.mark) c).1
        (x.resume (({ m with choices := older }.tick).unwind c.mark) c).2

theorem transition_of_step (h : x.step m f = .next m' f') : x.Transition m f m' f' := by
  cases f with
  | items rest i =>
    cases rest with
    | nil => cases h
    | cons item next =>
      simp only [step] at h
      split at h
      · cases h
      · split at h <;> cases h
        · exact .fails ‹_›
        · exact .passes ‹_›
  | retry =>
    simp only [step] at h
    split at h
    · cases h
    · split at h <;> cases h
      exact .resumes ‹_›

section Execute

variable {t : Token} {q : Quantifier} {next : List Item} {i j : Nat}

theorem close_eq_ok {k : Nat} (h : close m k i = .ok m') :
    ∃ old, m.slots[k]? = some old ∧ ¬ i < old.start ∧
      m.write k ⟨old.start, .length (i - old.start)⟩ = some m' := by
  obtain ⟨old, ho, h⟩ := bind_eq_ok.1 h
  split at h
  · cases h
  · exact ⟨old, inRange_eq_ok.1 ho, ‹_›, inRange_eq_ok.1 h⟩

theorem memory_of_greedy {least : Nat} (hq : ∀ start spare, Alternative.Of t q (.fewer start least spare))
    (h : x.greedy m t least next i = some (m', j)) :
    m' = m ∨ ∃ a, Alternative.Of t q a ∧ m' = m.push a next := by
  simp only [greedy] at h
  split at h
  · cases h
  · split at h <;> cases h
    · exact .inl rfl
    · exact .inr ⟨_, hq .., rfl⟩

theorem memory_of_repeatToken (h : x.repeatToken m t q next i = some (m', j)) :
    m' = m ∨ ∃ a, Alternative.Of t q a ∧ m' = m.push a next := by
  cases q with
  | one =>
    simp only [repeatToken] at h
    split at h <;> cases h
    exact .inl rfl
  | zeroOrMore => exact memory_of_greedy (fun _ _ => .zeroOrMore) h
  | oneOrMore => exact memory_of_greedy (fun _ _ => .oneOrMore) h
  | lazy =>
    cases h
    exact .inr ⟨_, .lazy, rfl⟩
  | zeroOrOne =>
    simp only [repeatToken] at h
    split at h <;> cases h
    · exact .inr ⟨_, .zeroOrOne, rfl⟩
    · exact .inl rfl

theorem memory_of_execute {item : Item} (h : x.execute m next i item = .ok (some (m', j))) :
    (item.slot? = none ∧ m' = m) ∨
    (∃ t q a, item = .single t q ∧ Alternative.Of t q a ∧ m' = m.push a next) ∨
    ∃ k slot, item.slot? = some k ∧ m.write k slot = some m' := by
  cases item with
  | single t q =>
    simp only [execute, Except.ok.injEq] at h
    rcases memory_of_repeatToken h with rfl | ⟨a, ha, rfl⟩
    · exact .inl ⟨rfl, rfl⟩
    · exact .inr (.inl ⟨t, q, a, rfl, ha, rfl⟩)
  | openCapture k =>
    obtain ⟨m₁, hw, h⟩ := bind_eq_ok.1 h
    cases h
    exact .inr (.inr ⟨k, _, rfl, inRange_eq_ok.1 hw⟩)
  | closeCapture k =>
    obtain ⟨m₁, hc, h⟩ := bind_eq_ok.1 h
    cases h
    obtain ⟨_, _, _, hw⟩ := close_eq_ok hc
    exact .inr (.inr ⟨k, _, rfl, hw⟩)
  | positionCapture k =>
    obtain ⟨m₁, hw, h⟩ := bind_eq_ok.1 h
    cases h
    exact .inr (.inr ⟨k, _, rfl, inRange_eq_ok.1 hw⟩)
  | balanced opener closer =>
    simp only [execute, Except.ok.injEq, Option.map_eq_some_iff] at h
    obtain ⟨_, _, h⟩ := h
    cases h
    exact .inl ⟨rfl, rfl⟩
  | backReference k =>
    obtain ⟨text, _, h⟩ := bind_eq_ok.1 h
    split at h
    · cases h
    · split at h <;> cases h
      exact .inl ⟨rfl, rfl⟩
  | frontier set =>
    obtain ⟨before, _, h⟩ := bind_eq_ok.1 h
    simp only [pure_eq_ok] at h
    split at h <;> cases h
    exact .inl ⟨rfl, rfl⟩
  | subjectEnd =>
    simp only [execute, Except.ok.injEq] at h
    split at h <;> cases h
    exact .inl ⟨rfl, rfl⟩

end Execute

theorem resume_cases (x : Matcher) (m : Memory) (c : Choice) :
    (∃ f', x.resume m c = (m, f') ∧ (f' = .retry ∨ ∃ j, f' = .items c.next j)) ∨
    ∃ a j, x.resume m c =
        ({ m with choices := ⟨a, c.next, c.mark⟩ :: m.choices }, .items c.next j) ∧
      ∀ t q, Alternative.Of t q c.alternative → Alternative.Of t q a := by
  obtain ⟨a, next, mark⟩ := c
  cases a with
  | fewer start least spare =>
    cases spare with
    | zero => exact .inl ⟨_, rfl, .inr ⟨_, rfl⟩⟩
    | succ spare =>
      refine .inr ⟨_, _, rfl, fun t q ha => ?_⟩
      cases ha with
      | zeroOrMore => exact .zeroOrMore
      | oneOrMore => exact .oneOrMore
  | another t i =>
    by_cases haccepts : x.acceptsAt t i
    · refine .inr ⟨_, _, if_pos haccepts, fun t q ha => ?_⟩
      cases ha with
      | lazy => exact .lazy
    · exact .inl ⟨_, if_neg haccepts, .inl rfl⟩
  | without i => exact .inl ⟨_, rfl, .inr ⟨_, rfl⟩⟩

theorem slots_resume (x : Matcher) (m : Memory) (c : Choice) : (x.resume m c).1.slots = m.slots := by
  rcases x.resume_cases m c with ⟨_, h, _⟩ | ⟨_, _, h, _⟩ <;> rw [h]

theorem steps_resume (x : Matcher) (m : Memory) (c : Choice) : (x.resume m c).1.steps = m.steps := by
  rcases x.resume_cases m c with ⟨_, h, _⟩ | ⟨_, _, h, _⟩ <;> rw [h]

end Matcher
end BytePattern
