import Mathlib.Logic.Relation
import BytePattern.Proofs.Match.Simulation
import BytePattern.Proofs.Match.Span

/-!
# Offsets stay inside the subject

Whatever the pattern, no step leads past the end of the subject: the offset that is matched at, the
offsets that a pending choice can lead to, and the slots that the trail remembers all exist. One step
keeps this (`Matcher.bounded_step`), so all states have it that a run reaches
(`Matcher.bounded_of_reaches`).
-/
namespace BytePattern

def Alternative.Bounded (size : Nat) : Alternative → Prop
  | .fewer start least spare => start + least + spare + 1 ≤ size
  | .another _ i => i ≤ size
  | .without i => i ≤ size

structure Memory.Bounded (size : Nat) (m : Memory) : Prop where
  choices : ∀ c ∈ m.choices, c.alternative.Bounded size
  trail : ∀ e ∈ m.trail, e.1 < m.slots.length

def Focus.Bounded (size : Nat) : Focus → Prop
  | .items _ i => i ≤ size
  | .retry => True

theorem Subject.le_size_of_hasAt {s : Subject} {i : Nat} {text : Bytes} (hi : i ≤ s.size)
    (h : s.hasAt i text = true) : i + text.length ≤ s.size := by
  induction text generalizing i with
  | nil => exact hi
  | cons b text ih =>
    rw [hasAt, Bool.and_eq_true, beq_iff_eq] at h
    have hlt := (Array.getElem?_eq_some_iff.1 h.1).1
    have := ih hlt h.2
    rw [List.length_cons]
    omega

theorem undo_subset (mark : Nat) (trail : List (Nat × Slot)) (slots : List Slot) :
    (undo mark trail slots).1 ⊆ trail := by
  induction trail generalizing slots with
  | nil => exact List.Subset.refl _
  | cons e trail ih =>
    simp only [undo]
    split
    · exact List.subset_cons_of_subset _ (ih _)
    · exact List.Subset.refl _

namespace Memory.Bounded

variable {size : Nat} {m m' : Memory}

theorem clear (size : Nat) (m : Memory) : m.clear.Bounded size :=
  ⟨fun _ hc => absurd hc List.not_mem_nil, fun _ he => absurd he List.not_mem_nil⟩

theorem push (h : m.Bounded size) {a : Alternative} (ha : a.Bounded size) (next : List Item) :
    (m.push a next).Bounded size := by
  refine ⟨fun c hc => ?_, h.trail⟩
  rcases List.mem_cons.1 hc with rfl | hc
  · exact ha
  · exact h.choices c hc

theorem write (h : m.Bounded size) {k : Nat} {slot : Slot} (hw : m.write k slot = some m') :
    m'.Bounded size := by
  unfold Memory.write at hw
  split at hw
  · rename_i old hk
    cases hw
    refine ⟨h.choices, fun e he => ?_⟩
    rw [List.length_set]
    rcases List.mem_cons.1 he with rfl | he
    · exact (List.getElem?_eq_some_iff.1 hk).1
    · exact h.trail e he
  · cases hw

theorem unwind (h : m.Bounded size) (mark : Nat) : (m.unwind mark).Bounded size := by
  refine ⟨h.choices, fun e he => ?_⟩
  show e.1 < (undo mark m.trail m.slots).2.length
  rw [length_undo_slots]
  exact h.trail e (undo_subset _ _ _ he)

end Memory.Bounded

namespace Matcher

variable {x : Matcher}

def Leads (x : Matcher) (a b : Memory × Focus) : Prop := x.step a.1 a.2 = .next b.1 b.2

abbrev Reaches (x : Matcher) : Memory × Focus → Memory × Focus → Prop :=
  Relation.ReflTransGen x.Leads

theorem run_of_reaches {a b : Memory × Focus} (h : x.Reaches a b) :
    x.run a.1 a.2 = x.run b.1 b.2 := by
  induction h with
  | refl => rfl
  | tail _ hstep ih => exact ih.trans (run_of_next hstep)

section Execute

variable {m m' : Memory} {next : List Item} {i j : Nat}

theorem bounded_of_greedy {t : Token} {least : Nat} (hm : m.Bounded x.subject.size)
    (hi : i ≤ x.subject.size) (h : x.greedy m t least next i = some (m', j)) :
    m'.Bounded x.subject.size ∧ j ≤ x.subject.size := by
  have hend := x.subject.runEnd_le t i hi
  have hle := x.subject.le_runEnd t i
  simp only [greedy] at h
  split at h
  · cases h
  · split at h
    · cases h
      exact ⟨hm, by omega⟩
    · cases h
      refine ⟨hm.push ?_ next, by omega⟩
      show i + least + (x.subject.runEnd t i - i - least - 1) + 1 ≤ x.subject.size
      omega

theorem bounded_of_repeatToken {t : Token} {q : Quantifier} (hm : m.Bounded x.subject.size)
    (hi : i ≤ x.subject.size) (h : x.repeatToken m t q next i = some (m', j)) :
    m'.Bounded x.subject.size ∧ j ≤ x.subject.size := by
  cases q with
  | one =>
    simp only [repeatToken] at h
    split at h
    · cases h
      exact ⟨hm, lt_size_of_acceptsAt ‹_›⟩
    · cases h
  | zeroOrMore =>
    replace h : x.greedy m t 0 next i = some (m', j) := h
    exact bounded_of_greedy hm hi h
  | oneOrMore =>
    replace h : x.greedy m t 1 next i = some (m', j) := h
    exact bounded_of_greedy hm hi h
  | lazy =>
    cases h
    have ha : (Alternative.another t i).Bounded x.subject.size := hi
    exact ⟨hm.push ha next, hi⟩
  | zeroOrOne =>
    simp only [repeatToken] at h
    split at h
    · cases h
      have ha : (Alternative.without i).Bounded x.subject.size := hi
      exact ⟨hm.push ha next, lt_size_of_acceptsAt ‹_›⟩
    · cases h
      exact ⟨hm, hi⟩

theorem bounded_of_execute {item : Item} (hm : m.Bounded x.subject.size) (hi : i ≤ x.subject.size)
    (h : x.execute m next i item = .ok (some (m', j))) :
    m'.Bounded x.subject.size ∧ j ≤ x.subject.size := by
  cases item with
  | single t q =>
    simp only [execute, Except.ok.injEq] at h
    exact bounded_of_repeatToken hm hi h
  | openCapture k =>
    obtain ⟨m₁, hw, h⟩ := bind_eq_ok.1 h
    cases h
    exact ⟨hm.write (inRange_eq_ok.1 hw), hi⟩
  | closeCapture k =>
    obtain ⟨m₁, hc, h⟩ := bind_eq_ok.1 h
    cases h
    obtain ⟨_, _, _, hw⟩ := close_eq_ok hc
    exact ⟨hm.write hw, hi⟩
  | positionCapture k =>
    obtain ⟨m₁, hw, h⟩ := bind_eq_ok.1 h
    cases h
    exact ⟨hm.write (inRange_eq_ok.1 hw), hi⟩
  | balanced opener closer =>
    simp only [execute, Except.ok.injEq, Option.map_eq_some_iff] at h
    obtain ⟨e, he, h⟩ := h
    cases h
    obtain ⟨_, _, hle, _⟩ := (Subject.balancedEnd_eq_some_iff.1 he).1
    exact ⟨hm, hle⟩
  | backReference k =>
    obtain ⟨text, _, h⟩ := bind_eq_ok.1 h
    split at h
    · cases h
    · split at h
      · cases h
        exact ⟨hm, Subject.le_size_of_hasAt hi ‹_›⟩
      · cases h
  | frontier set =>
    obtain ⟨before, _, h⟩ := bind_eq_ok.1 h
    rw [pure_eq_ok] at h
    split at h
    · cases h
      exact ⟨hm, hi⟩
    · cases h
  | subjectEnd =>
    simp only [execute, Except.ok.injEq] at h
    split at h
    · cases h
      exact ⟨hm, hi⟩
    · cases h

end Execute

theorem bounded_resume {m : Memory} {c : Choice} (hm : m.Bounded x.subject.size)
    (hc : c.alternative.Bounded x.subject.size) :
    (x.resume m c).1.Bounded x.subject.size ∧ (x.resume m c).2.Bounded x.subject.size := by
  obtain ⟨a, next, mark⟩ := c
  have hpush {b : Alternative} (hb : b.Bounded x.subject.size) :
      Memory.Bounded x.subject.size { m with choices := ⟨b, next, mark⟩ :: m.choices } := by
    refine ⟨fun c' hc' => ?_, hm.trail⟩
    rcases List.mem_cons.1 hc' with rfl | hc'
    · exact hb
    · exact hm.choices c' hc'
  cases a with
  | fewer start least spare =>
    replace hc : start + least + spare + 1 ≤ x.subject.size := hc
    cases spare with
    | zero => exact ⟨hm, show start + least ≤ x.subject.size by omega⟩
    | succ spare =>
      exact ⟨hpush (show start + least + spare + 1 ≤ x.subject.size by omega),
        show start + least + spare + 1 ≤ x.subject.size by omega⟩
  | another t i =>
    simp only [resume]
    split
    · have hlt := lt_size_of_acceptsAt ‹_›
      exact ⟨hpush hlt, hlt⟩
    · exact ⟨hm, trivial⟩
  | without i => exact ⟨hm, hc⟩

theorem bounded_step {m m' : Memory} {f f' : Focus} (hm : m.Bounded x.subject.size)
    (hf : f.Bounded x.subject.size) (h : x.step m f = .next m' f') :
    m'.Bounded x.subject.size ∧ f'.Bounded x.subject.size := by
  have htick : m.tick.Bounded x.subject.size := ⟨hm.choices, hm.trail⟩
  cases transition_of_step h with
  | fails _ => exact ⟨htick, trivial⟩
  | passes he => exact bounded_of_execute htick hf he
  | @resumes c older hc =>
    have hpop : Memory.Bounded x.subject.size { m with choices := older }.tick :=
      ⟨fun c' hc' => hm.choices c' (hc ▸ .tail _ hc'), hm.trail⟩
    exact bounded_resume (hpop.unwind c.mark) (hm.choices c (hc ▸ .head _))

theorem bounded_of_reaches {a b : Memory × Focus} (ha : a.1.Bounded x.subject.size)
    (hf : a.2.Bounded x.subject.size) (h : x.Reaches a b) :
    b.1.Bounded x.subject.size ∧ b.2.Bounded x.subject.size := by
  induction h with
  | refl => exact ⟨ha, hf⟩
  | tail _ hstep ih => exact bounded_step ih.1 ih.2 hstep

end Matcher
end BytePattern
