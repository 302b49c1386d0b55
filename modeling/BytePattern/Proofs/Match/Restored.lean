import Mathlib.Data.List.Basic
import BytePattern.Pattern.Compile
import BytePattern.Proofs.Match.Halting

/-!
# A choice brings its slots back

All choices share one trail, and each is only a mark on it. So what a choice brings back is said of the
whole memory: as long as a choice is not off the stack, the choices made after it have marks that are no
lower, and undoing the trail down to the length that it had when the choice was pushed gives the trail and
the slots of then (`Memory.GrownFrom`). A step keeps this, be it a write, another choice pushed, or one
that is taken back and goes on the stack again (`Matcher.grownFrom_step`), so a choice finds the slots that
its item was executed with (`Matcher.slots_restored`).
-/
namespace BytePattern

theorem undo_undo {mark mark' : Nat} (h : mark ≤ mark') (trail : List (Nat × Slot))
    (slots : List Slot) :
    undo mark (undo mark' trail slots).1 (undo mark' trail slots).2 = undo mark trail slots := by
  induction trail generalizing slots with
  | nil => rfl
  | cons e trail ih =>
    by_cases hle : mark' ≤ trail.length
    · simp only [undo, if_pos hle, if_pos (Nat.le_trans h hle), ih]
    · simp only [undo, if_neg hle]

inductive StackedOver (older : List Choice) (mark : Nat) (t : Token) (q : Quantifier)
    (next : List Item) : List Choice → Prop
  | own {a : Alternative} : a.Of t q → StackedOver older mark t q next (⟨a, next, mark⟩ :: older)
  | newer {c : Choice} {choices : List Choice} :
      mark ≤ c.mark → StackedOver older mark t q next choices →
      StackedOver older mark t q next (c :: choices)

theorem StackedOver.length_lt {older choices : List Choice} {mark : Nat} {t : Token} {q : Quantifier}
    {next : List Item} (h : StackedOver older mark t q next choices) :
    older.length < choices.length := by
  induction h with
  | own _ => exact Nat.lt_succ_self _
  | newer _ _ ih => exact Nat.lt_succ_of_lt ih

structure Memory.GrownFrom (p : Memory) (t : Token) (q : Quantifier) (next : List Item) (m : Memory) :
    Prop where
  stacked : StackedOver p.choices p.trail.length t q next m.choices
  undo_eq : undo p.trail.length m.trail m.slots = (p.trail, p.slots)

namespace Memory.GrownFrom

variable {p m m' : Memory} {t : Token} {q : Quantifier} {next : List Item}

theorem length_le (h : p.GrownFrom t q next m) : p.trail.length ≤ m.trail.length := by
  have hlen := length_undo p.trail.length m.trail m.slots
  rw [h.undo_eq] at hlen
  replace hlen : p.trail.length = min p.trail.length m.trail.length := hlen
  omega

theorem push (h : p.GrownFrom t q next m) (a : Alternative) (rest : List Item) :
    p.GrownFrom t q next (m.push a rest) :=
  ⟨.newer h.length_le h.stacked, h.undo_eq⟩

theorem write (h : p.GrownFrom t q next m) {k : Nat} {slot : Slot} (hw : m.write k slot = some m') :
    p.GrownFrom t q next m' := by
  unfold Memory.write at hw
  split at hw
  · rename_i old hk
    cases hw
    exact ⟨h.stacked, (undo_write hk h.length_le).trans h.undo_eq⟩
  · cases hw

theorem undo_unwind (h : p.GrownFrom t q next m) {mark : Nat} (hmark : p.trail.length ≤ mark) :
    undo p.trail.length (m.unwind mark).trail (m.unwind mark).slots = (p.trail, p.slots) :=
  (undo_undo hmark m.trail m.slots).trans h.undo_eq

end Memory.GrownFrom

namespace Matcher

variable {x : Matcher} {p m m' : Memory} {t : Token} {q : Quantifier} {next : List Item}

theorem choices_of_write {k : Nat} {slot : Slot} (h : m.write k slot = some m') :
    m'.choices = m.choices := by
  unfold Memory.write at h
  split at h <;> cases h
  rfl

theorem push_of_higher {f f' : Focus} (h : x.step m f = .next m' f')
    (hlt : m.choices.length < m'.choices.length) :
    ∃ t q a next i, f = .items (.single t q :: next) i ∧ Alternative.Of t q a ∧
      m' = m.tick.push a next := by
  cases transition_of_step h with
  | fails _ => exact absurd hlt (Nat.lt_irrefl _)
  | passes he =>
    rcases memory_of_execute he with ⟨_, rfl⟩ | ⟨t, q, a, rfl, ha, rfl⟩ | ⟨k, slot, _, hw⟩
    · exact absurd hlt (Nat.lt_irrefl _)
    · exact ⟨t, q, a, _, _, rfl, ha, rfl⟩
    · rw [choices_of_write hw] at hlt
      exact absurd hlt (Nat.lt_irrefl _)
  | @resumes c older hc =>
    rw [hc] at hlt
    rcases x.resume_cases (({ m with choices := older }.tick).unwind c.mark) c with
      ⟨_, hr, _⟩ | ⟨_, _, hr, _⟩
    · rw [hr] at hlt
      exact absurd hlt (Nat.not_lt_of_le (Nat.le_succ _))
    · rw [hr] at hlt
      exact absurd hlt (Nat.lt_irrefl _)

theorem grownFrom_step (hm : p.GrownFrom t q next m) {f f' : Focus} (h : x.step m f = .next m' f')
    (hlt : p.choices.length < m'.choices.length) : p.GrownFrom t q next m' := by
  have htick : p.GrownFrom t q next m.tick := ⟨hm.stacked, hm.undo_eq⟩
  cases transition_of_step h with
  | fails _ => exact htick
  | passes he =>
    rcases memory_of_execute he with ⟨_, rfl⟩ | ⟨_, _, a, _, _, rfl⟩ | ⟨k, slot, _, hw⟩
    · exact htick
    · exact htick.push a _
    · exact htick.write hw
  | @resumes c older hc =>
    have hstacked := hm.stacked
    rw [hc] at hstacked
    have hcases := x.resume_cases (({ m with choices := older }.tick).unwind c.mark) c
    cases hstacked with
    | own ha =>
      have hback := hm.undo_unwind (Nat.le_refl _)
      rcases hcases with ⟨_, hr, _⟩ | ⟨b, _, hr, hb⟩
      · rw [hr] at hlt
        exact absurd hlt (Nat.lt_irrefl _)
      · rw [hr]
        exact ⟨.own (hb t q ha), hback⟩
    | newer hmark hrest =>
      have hback := hm.undo_unwind hmark
      rcases hcases with ⟨_, hr, _⟩ | ⟨b, _, hr, _⟩
      · rw [hr]
        exact ⟨hrest, hback⟩
      · rw [hr]
        exact ⟨.newer hmark hrest, hback⟩

abbrev ReachesAbove (x : Matcher) (n : Nat) : Memory × Focus → Memory × Focus → Prop :=
  Relation.TransGen fun a b => x.Leads a b ∧ n < b.1.choices.length

/-- The step from `a` pushed the choice that is on top at `b`, and after no step since then was it off the
stack: a step that resumed it put it back. -/
structure PushedAt (x : Matcher) (a b : Memory × Focus) : Prop where
  since : x.ReachesAbove a.1.choices.length a b
  top : b.1.choices.length = a.1.choices.length + 1

theorem grownFrom_of_reachesAbove {a b : Memory × Focus}
    (h : x.ReachesAbove a.1.choices.length a b) :
    ∃ t q next i, a.2 = .items (.single t q :: next) i ∧ a.1.GrownFrom t q next b.1 := by
  induction h with
  | single hstep =>
    obtain ⟨t, q, left, next, i, hf, hleft, hpush⟩ := push_of_higher hstep.1 hstep.2
    rw [hpush]
    exact ⟨t, q, next, i, hf, .own hleft, undo_of_length_le (Nat.le_refl _) _⟩
  | tail _ hstep ih =>
    obtain ⟨t, q, next, i, hf, hgrown⟩ := ih
    exact ⟨t, q, next, i, hf, grownFrom_step hgrown hstep.1 hstep.2⟩

theorem exists_reachesAbove {a b : Memory × Focus} (h : x.Reaches a b) (ha : a.1.choices = []) {n : Nat}
    (hn : n < b.1.choices.length) :
    ∃ p, x.Reaches a p ∧ p.1.choices.length = n ∧ x.ReachesAbove n p b := by
  -- whatever choice is pending was pushed on the way: the step is the last one that found only the
  -- older choices
  induction h with
  | refl =>
    rw [ha] at hn
    cases hn
  | @tail b c hreach hstep ih =>
    by_cases hb : n < b.1.choices.length
    · obtain ⟨p, hp, hlen, habove⟩ := ih hb
      exact ⟨p, hp, hlen, habove.tail ⟨hstep, hn⟩⟩
    · obtain ⟨_, _, _, _, _, _, _, hpush⟩ := push_of_higher hstep (by omega)
      have hlen : c.1.choices.length = b.1.choices.length + 1 := by
        rw [hpush]
        rfl
      exact ⟨b, hreach, by omega, .single ⟨hstep, hn⟩⟩

/-- Whenever an attempt comes to resume a choice, the choice was pushed when its item was executed, and
resuming it brings back the slots of that moment. -/
theorem slots_restored (x : Matcher) (m₀ : Memory) (start : Nat) {m : Memory} {c : Choice}
    {older : List Choice}
    (h : x.Reaches (m₀.clear, .items x.pattern.items start) (m, .retry))
    (hc : m.choices = c :: older) :
    (∃ a, x.Reaches (m₀.clear, .items x.pattern.items start) a ∧ x.PushedAt a (m, .retry)) ∧
    ∀ a, x.PushedAt a (m, .retry) →
      (∃ t q i, a.2 = .items (.single t q :: c.next) i ∧ c.alternative.Of t q) ∧
      a.1.choices = older ∧
      ∀ m' f, x.step m .retry = .next m' f → m'.slots = a.1.slots := by
  have htop : m.choices.length = older.length + 1 := by rw [hc, List.length_cons]
  constructor
  · obtain ⟨a, ha, hlen, habove⟩ := exists_reachesAbove (n := older.length) h rfl
      (show older.length < m.choices.length by omega)
    rw [← hlen] at habove htop
    exact ⟨a, ha, habove, htop⟩
  · intro a hpushed
    obtain ⟨t, q, next, i, hf, hgrown⟩ := grownFrom_of_reachesAbove hpushed.since
    have hstacked := hgrown.stacked
    have hheight : m.choices.length = a.1.choices.length + 1 := hpushed.top
    rw [hc] at hstacked
    cases hstacked with
    | own ha =>
      refine ⟨⟨t, q, i, hf, ha⟩, rfl, fun m' f hstep => ?_⟩
      cases transition_of_step hstep with
      | resumes hc' =>
        cases hc.symm.trans hc'
        rw [slots_resume]
        exact congrArg Prod.snd hgrown.undo_eq
    | newer _ hrest =>
      have hlt := hrest.length_lt
      omega

theorem slots_restored_aac : ∃ p, Pattern.compile {} [40, 97, 42, 41, 98] = .ok p ∧
    let x : Matcher := ⟨p, #[97, 97, 99], none⟩
    ∃ m c older, x.Reaches (Memory.fresh.clear, .items p.items 0) (m, .retry) ∧
      m.choices = c :: older ∧ c.alternative = .fewer 0 0 0 ∧ m.slots[0]? = some ⟨0, .length 1⟩ ∧
      (∃ m' f, x.step m .retry = .next m' f ∧ m'.slots[0]? = some ⟨0, .unfinished⟩) ∧
      (∃ a, x.Reaches (Memory.fresh.clear, .items p.items 0) a ∧ x.PushedAt a (m, .retry)) ∧
      ∀ a, x.PushedAt a (m, .retry) →
        (∃ t q i, a.2 = .items (.single t q :: c.next) i ∧ c.alternative.Of t q) ∧
        a.1.choices = older ∧ ∀ m' f, x.step m .retry = .next m' f → m'.slots = a.1.slots := by
  have hp : Pattern.compile {} [40, 97, 42, 41, 98] = .ok ⟨[40, 97, 42, 41, 98],
      [.openCapture 0, .single (.byte 97) .zeroOrMore, .closeCapture 0, .single (.byte 98) .one],
      [.substring], false⟩ := by
    cbv
  let c : Choice := ⟨.fewer 0 0 0, [.closeCapture 0, .single (.byte 98) .one], 1⟩
  let m : Memory := ⟨Memory.fresh.slots.set 0 ⟨0, .length 1⟩, [(0, ⟨0, .unfinished⟩), (0, .empty)], [c], 7⟩
  refine ⟨_, hp, m, c, [], ?_⟩
  suffices hreach : LeadsIn _ 7 (Memory.fresh.clear, _) (m, .retry) from
    ⟨hreach.reaches, rfl, rfl, rfl, ⟨_, _, rfl, rfl⟩, slots_restored _ _ 0 hreach.reaches rfl⟩
  decide +kernel

end Matcher
end BytePattern
