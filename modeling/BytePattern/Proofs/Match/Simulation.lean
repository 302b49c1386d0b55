import BytePattern.Proofs.Match.FirstWay
import BytePattern.Proofs.Match.Transition

/-!
# The stack machine finds the first way

Each step of the matcher keeps what focus and stack together stand for (`outcome_step`), and the step that
halts answers with the first of it (`answers_of_halt`). So an attempt without a step limit answers with
the first way through the items of its pattern, and leaves the slots of that way behind
(`tryMatch_answers`). Nothing is asked of the pattern here: a read out of range is an outcome as well.
-/
namespace BytePattern
namespace Matcher

theorem findSome?_cons_or {α β : Type} (f : α → Option β) (a : α) (l : List α) :
    (a :: l).findSome? f = (f a).or (l.findSome? f) := by
  rw [List.findSome?_cons]
  cases f a <;> rfl

theorem marked_write {m m' : Memory} {i : Nat} {slot : Slot} (h : m.write i slot = some m')
    (hm : m.Marked) : m'.Marked := by
  unfold Memory.write at h
  split at h
  · cases h
    exact Marked.mono hm (Nat.le_succ _)
  · cases h

theorem remaining_write {x : Matcher} {m m' : Memory} {i : Nat} {slot : Slot}
    (h : m.write i slot = some m') (hm : m.Marked) : x.remaining m' = x.remaining m := by
  unfold Memory.write at h
  split at h
  · rename_i old hi
    cases h
    obtain ⟨slots, trail, choices, steps⟩ := m
    cases choices with
    | nil => rfl
    | cons c older => simp only [remaining, pending, undo_write hi hm.1]
  · cases h

theorem marked_push {m : Memory} (hm : m.Marked) (a : Alternative) (next : List Item) :
    (m.push a next).Marked := ⟨Nat.le_refl _, hm⟩

theorem remaining_push (x : Matcher) (m : Memory) (a : Alternative) (next : List Item) :
    x.remaining (m.push a next) = (x.firstLeft a next m.slots).or (x.remaining m) := by
  simp only [remaining, Memory.push, pending, undo_of_length_le (Nat.le_refl _)]

theorem greedy_eq_some {x : Matcher} {m m' : Memory} {t : Token} {least i j : Nat}
    {next : List Item} (hm : m.Marked) (h : x.greedy m t least next i = some (m', j)) :
    m'.Marked ∧ m'.slots = m.slots ∧ least ≤ x.subject.runEnd t i - i ∧
      (x.first next m'.slots j).or (x.remaining m') =
        ((shorter (i + least) (x.subject.runEnd t i - i - least)).findSome?
          (x.first next m.slots)).or (x.remaining m) := by
  unfold greedy at h
  generalize x.subject.runEnd t i - i = count at h ⊢
  simp only at h
  split at h
  · cases h
  · rename_i hle
    split at h
    · rename_i he
      cases h
      subst he
      refine ⟨hm, rfl, Nat.le_refl _, ?_⟩
      rw [Nat.sub_self, shorter, List.findSome?_singleton]
    · rename_i hne
      cases h
      refine ⟨marked_push hm _ _, rfl, by omega, ?_⟩
      obtain ⟨n, hn⟩ : ∃ n, count - least = n + 1 := ⟨count - least - 1, by omega⟩
      rw [remaining_push, hn, shorter, findSome?_cons_or, Option.or_assoc]
      have hj : i + least + n + 1 = i + count := by omega
      rw [hj]
      rfl

theorem repeatToken_eq_some {x : Matcher} {m m' : Memory} {t : Token} {q : Quantifier} {i j : Nat}
    {next : List Item} (hm : m.Marked) (h : x.repeatToken m t q next i = some (m', j)) :
    m'.Marked ∧ (x.first next m'.slots j).or (x.remaining m') =
      ((x.stops t i q).findSome? (x.first next m.slots)).or (x.remaining m) := by
  cases q with
  | one =>
    simp only [repeatToken] at h
    split at h
    · rename_i ha
      cases h
      refine ⟨hm, ?_⟩
      rw [stops, if_pos ha, List.findSome?_singleton]
    · cases h
  | zeroOrMore =>
    obtain ⟨hm', _, _, hf⟩ := greedy_eq_some hm (show x.greedy m t 0 next i = some (m', j) from h)
    exact ⟨hm', hf⟩
  | oneOrMore =>
    obtain ⟨hm', _, hle, hf⟩ := greedy_eq_some hm (show x.greedy m t 1 next i = some (m', j) from h)
    refine ⟨hm', ?_⟩
    obtain ⟨n, hn⟩ : ∃ n, x.subject.runEnd t i - i = n + 1 := ⟨_, (Nat.sub_add_cancel hle).symm⟩
    rw [hn, Nat.add_sub_cancel] at hf
    simp only [stops, hn, hf]
  | lazy =>
    cases h
    refine ⟨marked_push hm _ _, ?_⟩
    rw [remaining_push, ← Option.or_assoc, stops, findSome?_cons_or]
    rfl
  | zeroOrOne =>
    simp only [repeatToken] at h
    split at h
    · rename_i ha
      cases h
      refine ⟨marked_push hm _ _, ?_⟩
      rw [remaining_push, ← Option.or_assoc, stops, if_pos ha, findSome?_cons_or]
      rfl
    · rename_i ha
      cases h
      refine ⟨hm, ?_⟩
      rw [stops, if_neg ha, List.findSome?_singleton]

theorem repeatToken_eq_none {x : Matcher} {m : Memory} {t : Token} {q : Quantifier} {i : Nat}
    {next : List Item} (h : x.repeatToken m t q next i = none) : x.stops t i q = [] := by
  cases q with
  | one =>
    simp only [repeatToken] at h
    split at h
    · cases h
    · exact if_neg ‹_›
  | oneOrMore =>
    simp only [repeatToken, greedy] at h
    split at h
    · have h0 : x.subject.runEnd t i - i = 0 := by omega
      simp only [stops, h0]
    · split at h <;> cases h
  | zeroOrMore =>
    simp only [repeatToken, greedy, Nat.not_lt_zero, if_false] at h
    split at h <;> cases h
  | lazy => cases h
  | zeroOrOne =>
    simp only [repeatToken] at h
    split at h <;> cases h

theorem first_of_ways_singleton {x : Matcher} {item : Item} {next : List Item}
    {slots slots' : List Slot} {i j : Nat} (h : x.ways slots i item = .ok [(slots', j)]) :
    x.first (item :: next) slots i = x.first next slots' j := by
  simp only [first, h, List.findSome?_singleton]

theorem first_of_ways_nil {x : Matcher} {item : Item} {next : List Item} {slots : List Slot}
    {i : Nat} (h : x.ways slots i item = .ok []) : x.first (item :: next) slots i = none := by
  simp only [first, h, List.findSome?_nil]

theorem first_of_ways_error {x : Matcher} {item : Item} {next : List Item} {slots : List Slot}
    {i : Nat} {e : Error} (h : x.ways slots i item = .error e) :
    x.first (item :: next) slots i = some (.error e) := by
  simp only [first, h]

theorem write_eq_some {m m' : Memory} {k : Nat} {slot : Slot} (h : m.write k slot = some m') :
    k < m.slots.length ∧ m'.slots = m.slots.set k slot := by
  unfold Memory.write at h
  split at h
  · rename_i old hk
    cases h
    exact ⟨(List.getElem?_eq_some_iff.1 hk).1, rfl⟩
  · cases h

theorem write_eq_none {m : Memory} {k : Nat} {slot : Slot} (h : m.write k slot = none) :
    ¬ k < m.slots.length := by
  unfold Memory.write at h
  split at h
  · cases h
  · rename_i hk
    simpa using hk

theorem inRange_eq_error {α : Type} {o : Option α} {e : Error} (h : inRange o = .error e) :
    o = none ∧ e = .outOfRange := by
  cases o with
  | none =>
    cases h
    exact ⟨rfl, rfl⟩
  | some a => cases h

theorem outcome_pass {x : Matcher} {m : Memory} {item : Item} {next : List Item} {i j : Nat}
    (hm : m.Marked) (hw : x.ways m.slots i item = .ok [(m.slots, j)]) :
    m.Marked ∧ x.outcome m (.items next j) = x.outcome m (.items (item :: next) i) := by
  refine ⟨hm, ?_⟩
  rw [outcome, outcome, first_of_ways_singleton hw]

theorem outcome_write {x : Matcher} {m m' : Memory} {item : Item} {next : List Item} {i k : Nat}
    {slot : Slot} (hm : m.Marked) (h : m.write k slot = some m')
    (hw : x.ways m.slots i item = .ok [(m.slots.set k slot, i)]) :
    m'.Marked ∧ x.outcome m' (.items next i) = x.outcome m (.items (item :: next) i) := by
  refine ⟨marked_write h hm, ?_⟩
  rw [outcome, outcome, first_of_ways_singleton hw, remaining_write h hm, (write_eq_some h).2]

theorem outcome_execute {x : Matcher} {m m' : Memory} {item : Item} {next : List Item} {i j : Nat}
    (hm : m.Marked) (h : x.execute m next i item = .ok (some (m', j))) :
    m'.Marked ∧ x.outcome m' (.items next j) = x.outcome m (.items (item :: next) i) := by
  cases item with
  | single t q =>
    simp only [execute, Except.ok.injEq] at h
    obtain ⟨hm', hf⟩ := repeatToken_eq_some hm h
    refine ⟨hm', ?_⟩
    rw [outcome, outcome, hf, first]
    simp only [ways, List.findSome?_map]
    rfl
  | openCapture k =>
    obtain ⟨m₁, hw, h⟩ := bind_eq_ok.1 h
    cases h
    have hw := inRange_eq_ok.1 hw
    exact outcome_write hm hw (if_pos (write_eq_some hw).1)
  | closeCapture k =>
    obtain ⟨m₁, hc, h⟩ := bind_eq_ok.1 h
    cases h
    obtain ⟨old, ho, hlt, hw⟩ := close_eq_ok hc
    refine outcome_write hm hw ?_
    simp only [ways, ho, if_neg hlt]
  | positionCapture k =>
    obtain ⟨m₁, hw, h⟩ := bind_eq_ok.1 h
    cases h
    have hw := inRange_eq_ok.1 hw
    exact outcome_write hm hw (if_pos (write_eq_some hw).1)
  | balanced opener closer =>
    simp only [execute, Except.ok.injEq, Option.map_eq_some_iff] at h
    obtain ⟨e, he, h⟩ := h
    cases h
    refine outcome_pass hm ?_
    simp only [ways, he, Option.toList_some, List.map_cons, List.map_nil]
  | backReference k =>
    obtain ⟨text, ht, h⟩ := bind_eq_ok.1 h
    split at h
    · cases h
    · rename_i hi
      split at h
      · rename_i hat
        cases h
        refine outcome_pass hm ?_
        simp only [ways, show x.captured ⟨m.slots, [], [], 0⟩ k = .ok text from ht, if_neg hi,
          if_pos hat]
      · cases h
  | frontier set =>
    obtain ⟨before, hb, h⟩ := bind_eq_ok.1 h
    have hb := inRange_eq_ok.1 hb
    simp only [pure_eq_ok] at h
    split at h
    · rename_i hc
      cases h
      refine outcome_pass hm ?_
      simp only [ways, hb, if_pos hc]
    · cases h
  | subjectEnd =>
    simp only [execute, Except.ok.injEq] at h
    split at h
    · rename_i hi
      cases h
      refine outcome_pass hm ?_
      simp only [ways, if_pos hi]
    · cases h

theorem first_of_execute_none {x : Matcher} {m : Memory} {item : Item} {next : List Item} {i : Nat}
    (h : x.execute m next i item = .ok none) : x.first (item :: next) m.slots i = none := by
  cases item with
  | single t q =>
    simp only [execute, Except.ok.injEq] at h
    exact first_of_ways_nil (by simp only [ways, repeatToken_eq_none h, List.map_nil])
  | openCapture k =>
    obtain ⟨m₁, _, h⟩ := bind_eq_ok.1 h
    cases h
  | closeCapture k =>
    obtain ⟨m₁, _, h⟩ := bind_eq_ok.1 h
    cases h
  | positionCapture k =>
    obtain ⟨m₁, _, h⟩ := bind_eq_ok.1 h
    cases h
  | balanced opener closer =>
    simp only [execute, Except.ok.injEq, Option.map_eq_none_iff] at h
    exact first_of_ways_nil (by simp only [ways, h, Option.toList_none, List.map_nil])
  | backReference k =>
    obtain ⟨text, ht, h⟩ := bind_eq_ok.1 h
    split at h
    · cases h
    · rename_i hi
      split at h
      · cases h
      · rename_i hat
        refine first_of_ways_nil ?_
        simp only [ways, show x.captured ⟨m.slots, [], [], 0⟩ k = .ok text from ht, if_neg hi,
          if_neg hat]
  | frontier set =>
    obtain ⟨before, hb, h⟩ := bind_eq_ok.1 h
    have hb := inRange_eq_ok.1 hb
    simp only [pure_eq_ok] at h
    split at h
    · cases h
    · rename_i hc
      exact first_of_ways_nil (by simp only [ways, hb, if_neg hc])
  | subjectEnd =>
    simp only [execute, Except.ok.injEq] at h
    split at h
    · cases h
    · rename_i hi
      exact first_of_ways_nil (by simp only [ways, if_neg hi])

theorem first_of_execute_error {x : Matcher} {m : Memory} {item : Item} {next : List Item} {i : Nat}
    {e : Error} (h : x.execute m next i item = .error e) :
    x.first (item :: next) m.slots i = some (.error e) := by
  refine first_of_ways_error ?_
  cases item with
  | single t q => cases h
  | openCapture k =>
    rcases bind_eq_error.1 h with h | ⟨_, _, h⟩
    · obtain ⟨hw, rfl⟩ := inRange_eq_error h
      exact if_neg (write_eq_none hw)
    · cases h
  | closeCapture k =>
    rcases bind_eq_error.1 h with h | ⟨_, _, h⟩
    · rcases bind_eq_error.1 h with h | ⟨old, ho, h⟩
      · obtain ⟨ho, rfl⟩ := inRange_eq_error h
        simp only [ways, ho]
      · have ho := inRange_eq_ok.1 ho
        split at h
        · rename_i hlt
          cases h
          simp only [ways, ho, if_pos hlt]
        · obtain ⟨hw, _⟩ := inRange_eq_error h
          exact absurd (List.getElem?_eq_some_iff.1 ho).1 (write_eq_none hw)
    · cases h
  | positionCapture k =>
    rcases bind_eq_error.1 h with h | ⟨_, _, h⟩
    · obtain ⟨hw, rfl⟩ := inRange_eq_error h
      exact if_neg (write_eq_none hw)
    · cases h
  | balanced opener closer => cases h
  | backReference k =>
    rcases bind_eq_error.1 h with h | ⟨text, ht, h⟩
    · simp only [ways, show x.captured ⟨m.slots, [], [], 0⟩ k = .error e from h]
    · simp only [ways, show x.captured ⟨m.slots, [], [], 0⟩ k = .ok text from ht]
      split at h
      · rename_i hi
        cases h
        exact if_pos hi
      · split at h <;> cases h
  | frontier set =>
    rcases bind_eq_error.1 h with h | ⟨before, _, h⟩
    · obtain ⟨hb, rfl⟩ := inRange_eq_error h
      simp only [ways, hb]
    · cases h
  | subjectEnd => cases h

theorem outcome_resume {x : Matcher} {m : Memory} {c : Choice} (hm : m.Marked)
    (hc : m.trail.length = c.mark) :
    (x.resume m c).1.Marked ∧ x.outcome (x.resume m c).1 (x.resume m c).2 =
      (x.firstLeft c.alternative c.next m.slots).or (x.remaining m) := by
  obtain ⟨a, next, mark⟩ := c
  obtain rfl : m.trail.length = mark := hc
  -- the choice goes back on the stack with the mark it had
  have hpush (b : Alternative) :
      { m with choices := ⟨b, next, m.trail.length⟩ :: m.choices } = m.push b next := rfl
  cases a with
  | fewer start least spare =>
    cases spare with
    | zero =>
      refine ⟨hm, ?_⟩
      rw [firstLeft, left, shorter, List.findSome?_singleton]
      rfl
    | succ spare =>
      simp only [resume, hpush]
      refine ⟨marked_push hm _ _, ?_⟩
      rw [outcome, remaining_push, ← Option.or_assoc, firstLeft, firstLeft, left, left, shorter,
        findSome?_cons_or]
      rfl
  | another t i =>
    simp only [resume, hpush]
    by_cases ha : x.acceptsAt t i
    · rw [if_pos ha]
      refine ⟨marked_push hm _ _, ?_⟩
      rw [outcome, remaining_push, ← Option.or_assoc, firstLeft, firstLeft, left, left,
        longer.eq_1 x t i, dif_pos ha, findSome?_cons_or]
      rfl
    · rw [if_neg ha]
      refine ⟨hm, ?_⟩
      rw [outcome, firstLeft, left, longer, dif_neg ha]
      rfl
  | without i =>
    refine ⟨hm, ?_⟩
    rw [firstLeft, left, List.findSome?_singleton]
    rfl

theorem exceeded?_eq_none {x : Matcher} (hx : x.stepLimit = none) (m : Memory) :
    x.exceeded? m = none := by
  rw [exceeded?, hx]
  rfl

def Answers (o : Option Outcome) (result : Except Error (Option Nat)) (m : Memory) : Prop :=
  match o with
  | none => result = .ok none
  | some (.ok (i, slots)) => result = .ok (some i) ∧ m.slots = slots
  | some (.error e) => result = .error e

theorem answers_of_halt {x : Matcher} (hx : x.stepLimit = none) {m m' : Memory} {f : Focus}
    {result : Except Error (Option Nat)} (h : x.step m f = .halt result m') :
    Answers (x.outcome m f) result m' := by
  cases f with
  | items rest i =>
    cases rest with
    | nil =>
      cases h
      exact ⟨rfl, rfl⟩
    | cons item next =>
      simp only [step, exceeded?_eq_none hx] at h
      split at h
      · rename_i e he
        cases h
        have hf := first_of_execute_error he
        rw [outcome, show m.slots = m.tick.slots from rfl, hf]
        rfl
      · cases h
      · cases h
  | retry =>
    simp only [step, exceeded?_eq_none hx] at h
    split at h
    · rename_i hc
      cases h
      rw [outcome, remaining, hc]
      rfl
    · cases h

/-- No step changes what focus and stack together stand for. -/
theorem outcome_step {x : Matcher} {m m' : Memory} {f f' : Focus} (hm : m.Marked)
    (h : x.step m f = .next m' f') : m'.Marked ∧ x.outcome m' f' = x.outcome m f := by
  cases transition_of_step h with
  | fails he =>
    refine ⟨hm, ?_⟩
    rw [outcome, outcome, show m.slots = m.tick.slots from rfl, first_of_execute_none he]
    rfl
  | passes he => exact outcome_execute (m := m.tick) hm he
  | @resumes c older hc =>
    obtain ⟨slots, trail, choices, steps⟩ := m
    cases hc
    -- the trail is cut back to the mark, so the older marks are still within it
    have hlen : (undo c.mark trail slots).1.length = c.mark := by
      rw [length_undo]
      exact Nat.min_eq_left hm.1
    have hmarked : Marked (undo c.mark trail slots).1.length older := by
      rw [hlen]
      exact hm.2
    exact outcome_resume
      (m := ⟨(undo c.mark trail slots).2, (undo c.mark trail slots).1, older, steps + 1⟩)
      hmarked hlen

theorem run_answers {x : Matcher} (hx : x.stepLimit = none) (m : Memory) (f : Focus)
    (hm : m.Marked) : Answers (x.outcome m f) (x.run m f).1 (x.run m f).2 := by
  fun_induction run x m f with
  | case1 m f result m' h => exact answers_of_halt hx h
  | case2 m f m' f' h ih =>
    obtain ⟨hm', ho⟩ := outcome_step hm h
    rw [← ho]
    exact ih hm'

theorem tryMatch_answers {x : Matcher} (hx : x.stepLimit = none) (m : Memory) (start : Nat) :
    Answers (x.first x.pattern.items m.slots start) (x.tryMatch m start).1 (x.tryMatch m start).2 := by
  have h := run_answers hx m.clear (.items x.pattern.items start) m.marked_clear
  rw [outcome, show x.remaining m.clear = none from rfl, Option.or_none] at h
  exact h

theorem length_slots_of_execute {x : Matcher} {m m' : Memory} {item : Item} {next : List Item}
    {i j : Nat} (h : x.execute m next i item = .ok (some (m', j))) :
    m'.slots.length = m.slots.length := by
  rcases memory_of_execute h with ⟨_, rfl⟩ | ⟨_, _, _, _, _, rfl⟩ | ⟨k, slot, _, hw⟩
  · rfl
  · rfl
  · rw [(write_eq_some hw).2, List.length_set]

theorem length_slots_of_step {x : Matcher} {m m' : Memory} {f f' : Focus}
    (h : x.step m f = .next m' f') : m'.slots.length = m.slots.length := by
  cases transition_of_step h with
  | fails _ => rfl
  | passes he => exact length_slots_of_execute (m := m.tick) he
  | resumes _ =>
    rw [slots_resume]
    exact length_undo_slots ..

theorem length_slots_of_halt {x : Matcher} {m m' : Memory} {f : Focus}
    {result : Except Error (Option Nat)} (h : x.step m f = .halt result m') :
    m'.slots.length = m.slots.length := by
  cases f with
  | items rest i =>
    cases rest with
    | nil =>
      cases h
      rfl
    | cons item next =>
      simp only [step] at h
      split at h
      · cases h
        rfl
      · split at h <;> cases h
        rfl
  | retry =>
    simp only [step] at h
    split at h
    · cases h
      rfl
    · split at h <;> cases h
      rfl

theorem length_slots_run (x : Matcher) (m : Memory) (f : Focus) :
    (x.run m f).2.slots.length = m.slots.length := by
  fun_induction run x m f with
  | case1 m f result m' h => exact length_slots_of_halt h
  | case2 m f m' f' h ih => rw [ih, length_slots_of_step h]

theorem length_slots_tryMatch (x : Matcher) (m : Memory) (start : Nat) :
    (x.tryMatch m start).2.slots.length = m.slots.length :=
  length_slots_run x m.clear _

end Matcher
end BytePattern
