import BytePattern.Proofs.Pattern.Ledger
import BytePattern.Proofs.Search.Limit

/-!
# What earlier attempts leave behind

An attempt starts over the slots of the attempts before it, and those are stale: a ledger of captures
writes a slot before it reads it. So two attempts that start from different slots go hand in hand, with the
same steps and the same choices, and their slots agree as far as a capture has been opened
(`step_alike`, and from it `run_alike`). They answer the same, under any limit, and a search finds the same
from whatever memory (`findAt_fst_eq`).
-/
namespace BytePattern

structure AgreeBelow (n : Nat) (slots slots' : List Slot) : Prop where
  length_eq : slots.length = slots'.length
  getElem?_eq : ∀ k < n, slots[k]? = slots'[k]?

namespace AgreeBelow

variable {n : Nat} {slots slots' : List Slot}

theorem zero (h : slots.length = slots'.length) : AgreeBelow 0 slots slots' :=
  ⟨h, fun _ hk => absurd hk (Nat.not_lt_zero _)⟩

theorem set (h : AgreeBelow n slots slots') (k : Nat) (slot : Slot) :
    AgreeBelow n (slots.set k slot) (slots'.set k slot) := by
  refine ⟨by rw [List.length_set, List.length_set, h.length_eq], fun l hl => ?_⟩
  rw [List.getElem?_set, List.getElem?_set, h.getElem?_eq l hl, h.length_eq]

theorem set_succ (h : AgreeBelow n slots slots') (slot : Slot) :
    AgreeBelow (n + 1) (slots.set n slot) (slots'.set n slot) := by
  refine ⟨by rw [List.length_set, List.length_set, h.length_eq], fun l hl => ?_⟩
  rw [List.getElem?_set, List.getElem?_set, h.length_eq]
  split
  · rfl
  · exact h.getElem?_eq l (by omega)

theorem take_eq (h : AgreeBelow n slots slots') : slots.take n = slots'.take n := by
  refine List.ext_getElem? fun k => ?_
  rw [List.getElem?_take, List.getElem?_take]
  split
  · exact h.getElem?_eq k ‹_›
  · rfl

end AgreeBelow

/-- The pending choices, each taken back in either memory, come to slots that agree as far as the items
after the choice rely on them. -/
def StackAlike (last : Ledger) :
    List Choice → List (Nat × Slot) → List Slot → List (Nat × Slot) → List Slot → Prop
  | [], _, _, _, _ => True
  | c :: older, trail, slots, trail', slots' =>
    let back := undo c.mark trail slots
    let back' := undo c.mark trail' slots'
    (∃ l, Ledger.Run l c.next last ∧ AgreeBelow l.captures.length back.2 back'.2) ∧
      StackAlike last older back.1 back.2 back'.1 back'.2

structure Memory.Alike (last : Ledger) (m m' : Memory) : Prop where
  choices_eq : m'.choices = m.choices
  steps_eq : m'.steps = m.steps
  trail_length_eq : m'.trail.length = m.trail.length
  marked : m.Marked
  stack : StackAlike last m.choices m.trail m.slots m'.trail m'.slots

namespace Memory.Alike

variable {last : Ledger} {m m' : Memory}

theorem tick (h : Alike last m m') : Alike last m.tick m'.tick :=
  ⟨h.choices_eq, congrArg (· + 1) h.steps_eq, h.trail_length_eq, h.marked, h.stack⟩

theorem write {m₁ m₁' : Memory} (h : Alike last m m') {k : Nat} {slot slot' : Slot}
    (hw : m.write k slot = some m₁) (hw' : m'.write k slot' = some m₁') : Alike last m₁ m₁' := by
  -- the choices below a write do not see it, as they are taken back past it
  unfold Memory.write at hw hw'
  split at hw
  · rename_i old hk
    split at hw'
    · rename_i old' hk'
      cases hw
      cases hw'
      refine ⟨h.choices_eq, h.steps_eq, congrArg (· + 1) h.trail_length_eq,
        Marked.mono h.marked (Nat.le_succ _), ?_⟩
      obtain ⟨slots, trail, choices, steps⟩ := m
      cases choices with
      | nil => trivial
      | cons c older =>
        have hmark : c.mark ≤ m'.trail.length := by
          rw [h.trail_length_eq]
          exact h.marked.1
        have hstack := h.stack
        simp only [StackAlike] at hstack ⊢
        rwa [undo_write hk h.marked.1, undo_write hk' hmark]
    · cases hw'
  · cases hw

theorem push (h : Alike last m m') (a : Alternative) {next : List Item} {l : Ledger}
    (hrun : Ledger.Run l next last) (hag : AgreeBelow l.captures.length m.slots m'.slots) :
    Alike last (m.push a next) (m'.push a next) := by
  refine ⟨?_, h.steps_eq, h.trail_length_eq, Matcher.marked_push h.marked a next, ?_⟩
  · simp only [Memory.push, h.choices_eq, h.trail_length_eq]
  · simp only [Memory.push, StackAlike, undo_of_length_le (Nat.le_refl _),
      undo_of_length_le (Nat.le_of_eq h.trail_length_eq)]
    exact ⟨⟨l, hrun, hag⟩, h.stack⟩

end Memory.Alike

def Focus.Alike (last : Ledger) (m m' : Memory) : Focus → Prop
  | .items rest _ => ∃ l, Ledger.Run l rest last ∧ AgreeBelow l.captures.length m.slots m'.slots
  | .retry => m.slots.length = m'.slots.length

namespace Matcher

inductive ExecutesAlike (last : Ledger) (n : Nat) :
    Except Error (Option (Memory × Nat)) → Except Error (Option (Memory × Nat)) → Prop
  | error {e : Error} : ExecutesAlike last n (.error e) (.error e)
  | failed : ExecutesAlike last n (.ok none) (.ok none)
  | passed {m m' : Memory} {j : Nat} : m.Alike last m' → AgreeBelow n m.slots m'.slots →
      ExecutesAlike last n (.ok (some (m, j))) (.ok (some (m', j)))

section Execute

variable {x : Matcher} {last : Ledger} {m m' : Memory} {next : List Item}

theorem exists_repeatToken_eq (x : Matcher) (t : Token) (q : Quantifier) (next : List Item) (i : Nat) :
    ∃ o : Option (Option Alternative × Nat), ∀ m, x.repeatToken m t q next i =
      o.map fun r => (r.1.elim m (m.push · next), r.2) := by
  have hgreedy (least : Nat) : ∃ o : Option (Option Alternative × Nat), ∀ m,
      x.greedy m t least next i = o.map fun r => (r.1.elim m (m.push · next), r.2) := by
    simp only [greedy]
    split
    · exact ⟨none, fun _ => rfl⟩
    · split
      · exact ⟨some (none, _), fun _ => rfl⟩
      · exact ⟨some (some _, _), fun _ => rfl⟩
  cases q with
  | one =>
    simp only [repeatToken]
    split
    · exact ⟨some (none, _), fun _ => rfl⟩
    · exact ⟨none, fun _ => rfl⟩
  | zeroOrMore => exact hgreedy 0
  | oneOrMore => exact hgreedy 1
  | lazy => exact ⟨some (some _, _), fun _ => rfl⟩
  | zeroOrOne =>
    simp only [repeatToken]
    split
    · exact ⟨some (some _, _), fun _ => rfl⟩
    · exact ⟨some (none, _), fun _ => rfl⟩

theorem repeatToken_alike (h : m.Alike last m') {l : Ledger} (hrun : Ledger.Run l next last)
    (hag : AgreeBelow l.captures.length m.slots m'.slots) (t : Token) (q : Quantifier) (i : Nat) :
    ExecutesAlike last l.captures.length (.ok (x.repeatToken m t q next i))
      (.ok (x.repeatToken m' t q next i)) := by
  obtain ⟨o, ho⟩ := exists_repeatToken_eq x t q next i
  rw [ho, ho]
  rcases o with _ | ⟨_ | a, j⟩
  · exact .failed
  · exact .passed h hag
  · exact .passed (h.push a hrun hag) hag

theorem write_alike (h : m.Alike last m') {n k : Nat} {slot : Slot}
    (hag : AgreeBelow n (m.slots.set k slot) (m'.slots.set k slot)) (i : Nat) :
    ExecutesAlike last n (do return some (← inRange (m.write k slot), i))
      (do return some (← inRange (m'.write k slot), i)) := by
  have hlen : m.slots.length = m'.slots.length := by simpa using hag.length_eq
  cases hw : m.write k slot with
  | none =>
    cases hw' : m'.write k slot with
    | none => exact .error
    | some m₁' => exact absurd (hlen ▸ (write_eq_some hw').1) (write_eq_none hw)
  | some m₁ =>
    cases hw' : m'.write k slot with
    | none => exact absurd (hlen ▸ (write_eq_some hw).1) (write_eq_none hw')
    | some m₁' =>
      refine .passed (h.write hw hw') ?_
      rw [(write_eq_some hw).2, (write_eq_some hw').2]
      exact hag

theorem execute_alike (h : m.Alike last m') {l l' : Ledger} {item : Item} (hstep : Ledger.Step l item l')
    (hrun : Ledger.Run l' next last) (hag : AgreeBelow l.captures.length m.slots m'.slots) (i : Nat) :
    ExecutesAlike last l'.captures.length (x.execute m next i item) (x.execute m' next i item) := by
  cases hstep with
  | single => exact repeatToken_alike h hrun hag _ _ _
  | openCapture =>
    refine write_alike h ?_ i
    rw [List.length_append]
    exact hag.set_succ _
  | @closeCapture cs st k hk =>
    have hslot := hag.getElem?_eq k (List.getElem?_eq_some_iff.1 hk).1
    simp only [execute, close, hslot]
    cases m'.slots[k]? with
    | none => exact .error
    | some old =>
      simp only [inRange_some, ok_bind]
      by_cases hi : i < old.start
      · rw [if_pos hi, if_pos hi]
        exact .error
      · rw [if_neg hi, if_neg hi]
        refine write_alike h ?_ i
        rw [List.length_set]
        exact hag.set _ _
  | positionCapture =>
    refine write_alike h ?_ i
    rw [List.length_append]
    exact hag.set_succ _
  | @balanced _ opener closer =>
    simp only [execute]
    cases x.subject.balancedEnd opener closer i with
    | none => exact .failed
    | some e => exact .passed h hag
  | @backReference _ k _ hclosed =>
    have hslot := hag.getElem?_eq k (List.getElem?_eq_some_iff.1 hclosed).1
    have htext : x.captured m k = x.captured m' k := by simp only [captured, hslot]
    simp only [execute, htext]
    cases x.captured m' k with
    | error e => exact .error
    | ok text =>
      simp only [ok_bind]
      split
      · exact .error
      · split
        · exact .passed h hag
        · exact .failed
  | @frontier _ set =>
    simp only [execute]
    cases x.subject.before? i with
    | none => exact .error
    | some before =>
      simp only [inRange_some, ok_bind]
      split
      · exact .passed h hag
      · exact .failed
  | subjectEnd =>
    simp only [execute]
    split
    · exact .passed h hag
    · exact .failed

end Execute

theorem resume_alike (x : Matcher) {last l : Ledger} {m m' : Memory} {c : Choice}
    (h : m.Alike last m') (hmark : m.trail.length = c.mark) (hrun : Ledger.Run l c.next last)
    (hag : AgreeBelow l.captures.length m.slots m'.slots) :
    (x.resume m c).1.Alike last (x.resume m' c).1 ∧ (x.resume m' c).2 = (x.resume m c).2 ∧
      (x.resume m c).2.Alike last (x.resume m c).1 (x.resume m' c).1 := by
  obtain ⟨a, next, mark⟩ := c
  obtain rfl : m.trail.length = mark := hmark
  -- the choice goes back on either stack with the mark it had
  have hpush (b : Alternative) : Memory.Alike last
      { m with choices := ⟨b, next, m.trail.length⟩ :: m.choices }
      { m' with choices := ⟨b, next, m.trail.length⟩ :: m'.choices } := by
    have hp := h.push b hrun hag
    unfold Memory.push at hp
    rwa [h.trail_length_eq] at hp
  cases a with
  | fewer start least spare =>
    cases spare with
    | zero => exact ⟨h, rfl, l, hrun, hag⟩
    | succ spare => exact ⟨hpush _, rfl, l, hrun, hag⟩
  | another t i =>
    simp only [resume]
    split
    · exact ⟨hpush _, rfl, l, hrun, hag⟩
    · exact ⟨h, rfl, hag.length_eq⟩
  | without i => exact ⟨h, rfl, l, hrun, hag⟩

inductive StepsAlike (last : Ledger) : Step → Step → Prop
  | next {m m' : Memory} {f : Focus} : m.Alike last m' → f.Alike last m m' →
      StepsAlike last (.next m f) (.next m' f)
  | halt {result : Except Error (Option Nat)} {m m' : Memory} : m'.steps = m.steps →
      m.slots.length = m'.slots.length →
      (∀ i, result = .ok (some i) → AgreeBelow last.captures.length m.slots m'.slots) →
      StepsAlike last (.halt result m) (.halt result m')

theorem exceeded?_eq_of_steps (x : Matcher) {m m' : Memory} (h : m'.steps = m.steps) :
    x.exceeded? m' = x.exceeded? m := by
  rw [exceeded?, exceeded?, h]

theorem step_alike (x : Matcher) {last : Ledger} {m m' : Memory} {f : Focus} (h : m.Alike last m')
    (hf : f.Alike last m m') : StepsAlike last (x.step m f) (x.step m' f) := by
  cases f with
  | items rest i =>
    obtain ⟨l, hrun, hag⟩ := hf
    cases hrun with
    | nil => exact .halt h.steps_eq hag.length_eq fun _ _ => hag
    | @cons _ l' _ item next hstep hrest =>
      simp only [step]
      rw [x.exceeded?_eq_of_steps h.tick.steps_eq]
      split
      · refine .halt h.tick.steps_eq hag.length_eq fun _ hr => ?_
        cases hr
      · have hex := execute_alike (x := x) h.tick hstep hrest hag i
        generalize x.execute m.tick next i item = r at hex
        generalize x.execute m'.tick next i item = r' at hex
        cases hex with
        | error =>
          refine .halt h.tick.steps_eq hag.length_eq fun _ hr => ?_
          cases hr
        | failed => exact .next h.tick hag.length_eq
        | passed h₁ hag₁ => exact .next h₁ ⟨l', hrest, hag₁⟩
  | retry =>
    obtain ⟨slots, trail, choices, steps⟩ := m
    obtain ⟨slots', trail', choices', steps'⟩ := m'
    obtain rfl : choices' = choices := h.choices_eq
    obtain rfl : steps' = steps := h.steps_eq
    cases choices' with
    | nil =>
      refine .halt rfl hf fun _ hr => ?_
      cases hr
    | cons c older =>
      simp only [step]
      have he : x.exceeded? (Memory.tick ⟨slots', trail', older, steps'⟩) =
          x.exceeded? (Memory.tick ⟨slots, trail, older, steps'⟩) := x.exceeded?_eq_of_steps rfl
      rw [he]
      split
      · refine .halt rfl ?_ fun _ hr => ?_
        · exact hf
        · cases hr
      · obtain ⟨⟨l, hrun, hag⟩, hstack⟩ := h.stack
        have hlen : (undo c.mark trail slots).1.length = c.mark := by
          rw [length_undo]
          exact Nat.min_eq_left h.marked.1
        have hlen' : (undo c.mark trail' slots').1.length = c.mark := by
          rw [length_undo, show trail'.length = trail.length from h.trail_length_eq]
          exact Nat.min_eq_left h.marked.1
        have hback : Memory.Alike last
            (Memory.unwind (Memory.tick ⟨slots, trail, older, steps'⟩) c.mark)
            (Memory.unwind (Memory.tick ⟨slots', trail', older, steps'⟩) c.mark) := by
          refine ⟨rfl, rfl, hlen'.trans hlen.symm, ?_, hstack⟩
          show Marked (undo c.mark trail slots).1.length older
          rw [hlen]
          exact h.marked.2
        obtain ⟨h₁, hfocus, hf₁⟩ := resume_alike x hback hlen hrun hag
        rw [hfocus]
        exact .next h₁ hf₁

structure SameAnswer {α : Type} (a b : Except Error α × Memory) : Prop where
  fst_eq : b.1 = a.1
  steps_eq : b.2.steps = a.2.steps
  length_eq : a.2.slots.length = b.2.slots.length

theorem run_alike (x : Matcher) {last : Ledger} {m m' : Memory} {f : Focus} (h : m.Alike last m')
    (hf : f.Alike last m m') :
    SameAnswer (x.run m f) (x.run m' f) ∧ ∀ i, (x.run m f).1 = .ok (some i) →
      AgreeBelow last.captures.length (x.run m f).2.slots (x.run m' f).2.slots := by
  fun_induction run x m f generalizing m' with
  | case1 m f result m₁ hs =>
    have hstep := x.step_alike h hf
    rw [hs] at hstep
    generalize hs' : x.step m' f = st at hstep
    cases hstep with
    | halt hsteps hlen hag =>
      rw [run_of_halt hs']
      exact ⟨⟨rfl, hsteps, hlen⟩, hag⟩
  | case2 m f m₁ f₁ hs ih =>
    have hstep := x.step_alike h hf
    rw [hs] at hstep
    generalize hs' : x.step m' f = st at hstep
    cases hstep with
    | next h₁ hf₁ =>
      rw [run_of_next hs']
      exact ih h₁ hf₁

section Attempts

variable {x : Matcher} {last : Ledger} (hrun : Ledger.Run .start x.pattern.items last)
  (hcount : x.pattern.captureCount = last.captures.length) {m m' : Memory}

include hrun

theorem tryMatch_alike (hsteps : m'.steps = m.steps) (hlen : m.slots.length = m'.slots.length)
    (start : Nat) :
    SameAnswer (x.tryMatch m start) (x.tryMatch m' start) ∧ ∀ i,
      (x.tryMatch m start).1 = .ok (some i) → AgreeBelow last.captures.length
        (x.tryMatch m start).2.slots (x.tryMatch m' start).2.slots := by
  have hclear : m.clear.Alike last m'.clear := ⟨rfl, hsteps, rfl, m.marked_clear, trivial⟩
  exact x.run_alike hclear ⟨.start, hrun, AgreeBelow.zero hlen⟩

include hcount

theorem attempt_alike (hsteps : m'.steps = m.steps) (hlen : m.slots.length = m'.slots.length)
    (i : Nat) : SameAnswer (x.attempt m i) (x.attempt m' i) := by
  obtain ⟨hsame, hag⟩ := tryMatch_alike hrun hsteps hlen i
  rw [attempt_eq_report, attempt_eq_report]
  generalize x.tryMatch m i = answer at hsame hag
  generalize x.tryMatch m' i = answer' at hsame hag
  obtain ⟨result, m₁⟩ := answer
  obtain ⟨result', m₁'⟩ := answer'
  obtain rfl : result' = result := hsame.fst_eq
  refine ⟨?_, ?_, ?_⟩
  · rcases result' with e | _ | stop
    · rfl
    · rfl
    · have htake := (hag stop rfl).take_eq
      have hlen' := hsame.length_eq
      simp only at htake hlen'
      simp only [report, Memory.captures, hcount, htake, hlen']
  · rw [report_snd, report_snd]
    exact hsame.steps_eq
  · rw [report_snd, report_snd]
    exact hsame.length_eq

theorem attemptAt_alike (hsteps : m'.steps = m.steps) (hlen : m.slots.length = m'.slots.length)
    (i : Nat) : SameAnswer (x.attemptAt m i) (x.attemptAt m' i) := by
  unfold attemptAt
  split
  · exact attempt_alike hrun hcount hsteps hlen i
  · exact ⟨rfl, hsteps, hlen⟩

theorem scan_alike (hsteps : m'.steps = m.steps) (hlen : m.slots.length = m'.slots.length) (i : Nat) :
    SameAnswer (x.scan m i) (x.scan m' i) := by
  have hsame {m m' : Memory} (hsteps : m'.steps = m.steps)
      (hlen : m.slots.length = m'.slots.length) (i : Nat) :=
    attemptAt_alike hrun hcount hsteps hlen i
  fun_induction scan x m i generalizing m' with
  | case1 m i m₁ h hi ih =>
    have ha := hsame hsteps hlen i
    rw [h] at ha
    have h' : x.attemptAt m' i = (.ok none, (x.attemptAt m' i).2) := Prod.ext ha.fst_eq rfl
    rw [scan_of_none h', if_pos hi]
    exact ih ha.steps_eq ha.length_eq
  | case2 m i m₁ h hi =>
    have ha := hsame hsteps hlen i
    rw [h] at ha
    have h' : x.attemptAt m' i = (.ok none, (x.attemptAt m' i).2) := Prod.ext ha.fst_eq rfl
    rw [scan_of_none h', if_neg hi]
    exact ⟨rfl, ha.steps_eq, ha.length_eq⟩
  | case3 m i h =>
    have ha := hsame hsteps hlen i
    rw [scan_of_ne_none (m := m')]
    · exact ha
    · rw [ha.fst_eq]
      exact fun hnone => h _ (Prod.ext hnone rfl)

theorem findAt_alike (hlen : m.slots.length = m'.slots.length) {init : Nat}
    (hinit : init ≤ x.subject.size) : SameAnswer (x.findAt m init) (x.findAt m' init) := by
  unfold findAt
  rw [if_neg (Nat.not_lt_of_le hinit), if_neg (Nat.not_lt_of_le hinit)]
  split
  · exact ⟨rfl, rfl, hlen⟩
  · split
    · refine attempt_alike hrun hcount ?_ ?_ init
      · rfl
      · exact hlen
    · refine scan_alike hrun hcount ?_ ?_ init
      · rfl
      · exact hlen

end Attempts

theorem findAt_sameAnswer {o : Options} {source : Bytes} {p : Pattern}
    (hp : Pattern.compile o source = .ok p) (s : Subject) (limit : Option Nat) {m m' : Memory}
    (hlen : m.slots.length = m'.slots.length) {init : Nat} (hinit : init ≤ s.size) :
    SameAnswer (findAt ⟨p, s, limit⟩ m init) (findAt ⟨p, s, limit⟩ m' init) := by
  obtain ⟨cs, hrun, hkinds, _⟩ := Pattern.run_of_compile hp
  have hcount : p.captureCount = cs.length := by rw [Pattern.captureCount, hkinds, List.length_map]
  exact findAt_alike (x := ⟨p, s, limit⟩) hrun hcount hlen hinit

theorem findAt_fst_eq {o : Options} {source : Bytes} {p : Pattern}
    (hp : Pattern.compile o source = .ok p) (s : Subject) (limit : Option Nat) {m : Memory}
    (hm : m.slots.length = captureLimit) (init : Nat) :
    (findAt ⟨p, s, limit⟩ m init).1 = find ⟨p, s, limit⟩ init := by
  by_cases hinit : init ≤ s.size
  · exact (findAt_sameAnswer hp s limit (m := .fresh) hm.symm hinit).fst_eq
  · have hlt : s.size < init := Nat.lt_of_not_le hinit
    simp only [find, findAt, if_pos hlt]

end Matcher
end BytePattern
