import BytePattern.Search.Leftmost
import BytePattern.Proofs.Match.Simulation

/-!
# Step limits

A limit changes no answer, it only cuts one off. As long as the steps stay within the limit, a step of the
limited matcher is the step of the unlimited one (`step_within`); the first that passes it halts with the
counter one above (`step_beyond`). So it is for a run, an attempt and a search: all of them answer the
same where the unlimited one makes no more steps than allowed, and else with the error (`run_cut`,
`attempt_cut`, `findAt_cut`). Nothing is asked of the pattern or of the memory.
-/
namespace BytePattern

structure Cut {α : Type} (limit : Nat) (full limited : Except Error α × Memory) : Prop where
  within : full.2.steps ≤ limit → limited = full
  beyond : limit < full.2.steps →
    limited.1 = .error (.budgetExceeded limit) ∧ limited.2.steps = limit + 1

def Step.memory : Step → Memory
  | .halt _ m => m
  | .next m _ => m

namespace Matcher

def withLimit (x : Matcher) (limit : Option Nat) : Matcher := { x with stepLimit := limit }

theorem exceeded?_withLimit (x : Matcher) (limit : Nat) (m : Memory) :
    (x.withLimit (some limit)).exceeded? m = if limit < m.steps then some limit else none := by
  simp [exceeded?, withLimit, Option.filter]

theorem steps_of_execute {x : Matcher} {m m' : Memory} {item : Item} {next : List Item} {i j : Nat}
    (h : x.execute m next i item = .ok (some (m', j))) : m'.steps = m.steps := by
  rcases memory_of_execute h with ⟨_, rfl⟩ | ⟨_, _, _, _, _, rfl⟩ | ⟨k, slot, _, hw⟩
  · rfl
  · rfl
  · unfold Memory.write at hw
    split at hw
    · cases hw
      rfl
    · cases hw

/-- A step executes an item or resumes a choice, unless there is nothing left to do. -/
def Ticks (m : Memory) : Focus → Prop
  | .items rest _ => rest ≠ []
  | .retry => m.choices ≠ []

def answer : Focus → Option Nat
  | .items _ i => some i
  | .retry => none

theorem steps_of_ticks (x : Matcher) {m : Memory} {f : Focus} (h : Ticks m f) :
    (x.step m f).memory.steps = m.steps + 1 := by
  cases f with
  | items rest i =>
    cases rest with
    | nil => exact absurd rfl h
    | cons item next =>
      simp only [step]
      split
      · rfl
      · split
        · rfl
        · rfl
        · exact steps_of_execute (m := m.tick) ‹_›
  | retry =>
    simp only [step]
    split
    · rename_i hc
      exact absurd hc h
    · split
      · rfl
      · exact steps_resume ..

theorem step_of_not_ticks (x : Matcher) {m : Memory} {f : Focus} (h : ¬ Ticks m f) :
    x.step m f = .halt (.ok (answer f)) m := by
  cases f with
  | items rest i =>
    obtain rfl : rest = [] := Decidable.not_not.1 h
    rfl
  | retry =>
    have hc : m.choices = [] := Decidable.not_not.1 h
    simp only [step, hc, answer]

theorem steps_le_step (x : Matcher) (m : Memory) (f : Focus) :
    m.steps ≤ (x.step m f).memory.steps := by
  by_cases h : Ticks m f
  · rw [steps_of_ticks x h]
    exact Nat.le_succ _
  · rw [step_of_not_ticks x h]
    exact Nat.le_refl _

theorem step_of_exceeded {x : Matcher} {m : Memory} {f : Focus} {limit : Nat} (ht : Ticks m f)
    (h : ∀ m' : Memory, m'.steps = m.steps + 1 → x.exceeded? m' = some limit) :
    ∃ m', x.step m f = .halt (.error (.budgetExceeded limit)) m' ∧ m'.steps = m.steps + 1 := by
  cases f with
  | items rest i =>
    cases rest with
    | nil => exact absurd rfl ht
    | cons item next => exact ⟨m.tick, by simp only [step, h m.tick rfl], rfl⟩
  | retry =>
    obtain ⟨slots, trail, choices, steps⟩ := m
    cases choices with
    | nil => exact absurd rfl ht
    | cons c older =>
      refine ⟨⟨slots, trail, older, steps + 1⟩, ?_, rfl⟩
      simp only [step, Memory.tick, h ⟨slots, trail, older, steps + 1⟩ rfl]

theorem step_of_not_exceeded {x : Matcher} {limit : Option Nat} {m : Memory} {f : Focus}
    (h : ∀ m' : Memory, m'.steps = m.steps + 1 → (x.withLimit limit).exceeded? m' = none) :
    (x.withLimit limit).step m f = (x.withLimit none).step m f := by
  cases f with
  | items rest i =>
    cases rest with
    | nil => rfl
    | cons item next =>
      simp only [step, h m.tick rfl]
      rfl
  | retry =>
    obtain ⟨slots, trail, choices, steps⟩ := m
    cases choices with
    | nil => rfl
    | cons c older =>
      simp only [step, Memory.tick, h ⟨slots, trail, older, steps + 1⟩ rfl]
      rfl

theorem step_within {x : Matcher} {limit : Nat} {m : Memory} {f : Focus}
    (h : ((x.withLimit none).step m f).memory.steps ≤ limit) :
    (x.withLimit (some limit)).step m f = (x.withLimit none).step m f := by
  by_cases ht : Ticks m f
  · rw [steps_of_ticks _ ht] at h
    refine step_of_not_exceeded fun m' hm' => ?_
    rw [exceeded?_withLimit, if_neg (by omega)]
  · rw [step_of_not_ticks _ ht, step_of_not_ticks _ ht]

theorem step_beyond {x : Matcher} {limit : Nat} {m : Memory} {f : Focus} (hm : m.steps ≤ limit)
    (h : limit < ((x.withLimit none).step m f).memory.steps) :
    ∃ m', (x.withLimit (some limit)).step m f = .halt (.error (.budgetExceeded limit)) m' ∧
      m'.steps = limit + 1 := by
  by_cases ht : Ticks m f
  · rw [steps_of_ticks _ ht] at h
    obtain rfl : m.steps = limit := by omega
    refine step_of_exceeded ht fun m' hm' => ?_
    rw [exceeded?_withLimit, if_pos (by omega)]
  · rw [step_of_not_ticks _ ht] at h
    exact absurd hm (Nat.not_le_of_lt h)

theorem steps_le_run (x : Matcher) (m : Memory) (f : Focus) : m.steps ≤ (x.run m f).2.steps := by
  fun_induction run x m f with
  | case1 m f result m' h =>
    have hle := x.steps_le_step m f
    rwa [h] at hle
  | case2 m f m' f' h ih =>
    have hle := x.steps_le_step m f
    rw [h] at hle
    exact Nat.le_trans hle ih

theorem run_cut (x : Matcher) {limit : Nat} (m : Memory) (f : Focus) (hm : m.steps ≤ limit) :
    Cut limit ((x.withLimit none).run m f) ((x.withLimit (some limit)).run m f) := by
  fun_induction run (x.withLimit none) m f with
  | case1 m f result m' h =>
    constructor
    · intro hle
      refine run_of_halt ((step_within ?_).trans h)
      rwa [h]
    · intro hlt
      obtain ⟨m'', hs, hsteps⟩ := step_beyond (f := f) hm (by rwa [h])
      rw [run_of_halt hs]
      exact ⟨rfl, hsteps⟩
  | case2 m f m' f' h ih =>
    by_cases hle : m'.steps ≤ limit
    · have hs : (x.withLimit (some limit)).step m f = .next m' f' :=
        (step_within (by rwa [h])).trans h
      rw [run_of_next hs]
      exact ih hle
    · -- the step that passes the limit is the last of the limited run
      have hlt := Nat.lt_of_not_le hle
      obtain ⟨m'', hs, hsteps⟩ := step_beyond (f := f) hm (by rwa [h])
      have hmono := (x.withLimit none).steps_le_run m' f'
      rw [run_of_halt hs]
      exact ⟨fun hle' => absurd (Nat.le_trans hmono hle') hle, fun _ => ⟨rfl, hsteps⟩⟩

theorem run_eq_or_exceeded (x : Matcher) (limit : Nat) (m : Memory) (f : Focus) :
    (x.withLimit (some limit)).run m f = (x.withLimit none).run m f ∨
      ((x.withLimit (some limit)).run m f).1 = .error (.budgetExceeded limit) := by
  by_cases hm : m.steps ≤ limit
  · have hcut := x.run_cut m f hm
    by_cases hle : ((x.withLimit none).run m f).2.steps ≤ limit
    · exact .inl (hcut.within hle)
    · exact .inr (hcut.beyond (Nat.lt_of_not_le hle)).1
  · by_cases ht : Ticks m f
    · have hs : ∃ m', (x.withLimit (some limit)).step m f =
          .halt (.error (.budgetExceeded limit)) m' ∧ m'.steps = m.steps + 1 :=
        step_of_exceeded ht fun m' hm' => by rw [exceeded?_withLimit, if_pos (by omega)]
      obtain ⟨m', hs, _⟩ := hs
      rw [run_of_halt hs]
      exact .inr rfl
    · rw [run_of_halt (step_of_not_ticks _ ht), run_of_halt (step_of_not_ticks _ ht)]
      exact .inl rfl

def report (x : Matcher) (i : Nat) (answer : Except Error (Option Nat) × Memory) :
    Except Error (Option Match) × Memory :=
  match answer with
  | (.ok (some stop), m) =>
    ((m.captures x.pattern.captureCount).map fun captures => some ⟨i, stop, captures⟩, m)
  | (.ok none, m) => (.ok none, m)
  | (.error e, m) => (.error e, m)

theorem attempt_eq_report (x : Matcher) (m : Memory) (i : Nat) :
    x.attempt m i = x.report i (x.tryMatch m i) := rfl

theorem report_snd (x : Matcher) (i : Nat) (answer : Except Error (Option Nat) × Memory) :
    (x.report i answer).2 = answer.2 := by
  unfold report
  split <;> rfl

theorem report_fst_of_error {x : Matcher} {i : Nat} {answer : Except Error (Option Nat) × Memory}
    {e : Error} (h : answer.1 = .error e) : (x.report i answer).1 = .error e := by
  obtain ⟨_, m⟩ := answer
  cases h
  rfl

theorem steps_le_attempt (x : Matcher) (m : Memory) (i : Nat) :
    m.steps ≤ (x.attempt m i).2.steps := by
  rw [attempt_eq_report, report_snd]
  exact x.steps_le_run m.clear _

theorem attempt_cut (x : Matcher) {limit : Nat} (m : Memory) (i : Nat) (hm : m.steps ≤ limit) :
    Cut limit ((x.withLimit none).attempt m i) ((x.withLimit (some limit)).attempt m i) := by
  have h : Cut limit ((x.withLimit none).tryMatch m i) ((x.withLimit (some limit)).tryMatch m i) :=
    x.run_cut m.clear _ hm
  rw [attempt_eq_report, attempt_eq_report]
  constructor
  · intro hle
    rw [report_snd] at hle
    exact congrArg (x.report i) (h.within hle)
  · intro hlt
    rw [report_snd] at hlt
    obtain ⟨he, hsteps⟩ := h.beyond hlt
    rw [report_snd]
    exact ⟨report_fst_of_error he, hsteps⟩

theorem steps_le_attemptAt (x : Matcher) (m : Memory) (i : Nat) :
    m.steps ≤ (x.attemptAt m i).2.steps := by
  unfold attemptAt
  split
  · exact x.steps_le_attempt m i
  · exact Nat.le_refl _

theorem attemptAt_cut (x : Matcher) {limit : Nat} (m : Memory) (i : Nat) (hm : m.steps ≤ limit) :
    Cut limit ((x.withLimit none).attemptAt m i) ((x.withLimit (some limit)).attemptAt m i) := by
  have hstart (l : Option Nat) : (x.withLimit l).canStart i = x.canStart i := rfl
  unfold attemptAt
  rw [hstart, hstart]
  split
  · exact x.attempt_cut m i hm
  · exact ⟨fun _ => rfl, fun hlt => absurd hm (Nat.not_le_of_lt hlt)⟩

theorem scan_of_none {x : Matcher} {m m' : Memory} {i : Nat} (h : x.attemptAt m i = (.ok none, m')) :
    x.scan m i = if i < x.subject.size then x.scan m' (i + 1) else (.ok none, m') := by
  rw [scan, h]

theorem scan_of_ne_none {x : Matcher} {m : Memory} {i : Nat}
    (h : (x.attemptAt m i).1 ≠ .ok none) : x.scan m i = x.attemptAt m i := by
  rw [scan]
  split
  · rename_i h'
    rw [h'] at h
    exact absurd rfl h
  · rfl

theorem steps_le_scan (x : Matcher) (m : Memory) (i : Nat) : m.steps ≤ (x.scan m i).2.steps := by
  fun_induction scan x m i with
  | case1 m i m' h _ ih =>
    have hle := x.steps_le_attemptAt m i
    rw [h] at hle
    exact Nat.le_trans hle ih
  | case2 m i m' h =>
    have hle := x.steps_le_attemptAt m i
    rwa [h] at hle
  | case3 m i => exact x.steps_le_attemptAt m i

theorem scan_cut (x : Matcher) {limit : Nat} (m : Memory) (i : Nat) (hm : m.steps ≤ limit) :
    Cut limit ((x.withLimit none).scan m i) ((x.withLimit (some limit)).scan m i) := by
  have hbeyond {m : Memory} {i : Nat} (hm : m.steps ≤ limit)
      (hlt : limit < ((x.withLimit none).attemptAt m i).2.steps) :
      ((x.withLimit (some limit)).scan m i).1 = .error (.budgetExceeded limit) ∧
        ((x.withLimit (some limit)).scan m i).2.steps = limit + 1 := by
    have hcut := (x.attemptAt_cut m i hm).beyond hlt
    rw [scan_of_ne_none (by rw [hcut.1]; simp)]
    exact hcut
  fun_induction scan (x.withLimit none) m i with
  | case1 m i m' h hi ih =>
    by_cases hle : m'.steps ≤ limit
    · have ha := (x.attemptAt_cut m i hm).within (by rwa [h])
      have hs := (scan_of_none (ha.trans h)).trans (if_pos hi)
      rw [hs]
      exact ih hle
    · have hmono := (x.withLimit none).steps_le_scan m' (i + 1)
      refine ⟨fun hle' => absurd (Nat.le_trans hmono hle') hle, fun _ => hbeyond hm ?_⟩
      rw [h]
      exact Nat.lt_of_not_le hle
  | case2 m i m' h hi =>
    constructor
    · intro hle
      have ha := (x.attemptAt_cut m i hm).within (by rwa [h])
      exact (scan_of_none (ha.trans h)).trans (if_neg hi)
    · intro hlt
      exact hbeyond hm (by rwa [h])
  | case3 m i h =>
    constructor
    · intro hle
      have ha := (x.attemptAt_cut m i hm).within hle
      rw [← ha]
      refine scan_of_ne_none fun hnone => ?_
      rw [ha] at hnone
      exact h _ (Prod.ext hnone rfl)
    · intro hlt
      exact hbeyond hm hlt

theorem findAt_cut (x : Matcher) {limit : Nat} (m : Memory) {init : Nat}
    (hm : x.subject.size < init → m.steps ≤ limit) :
    Cut limit ((x.withLimit none).findAt m init) ((x.withLimit (some limit)).findAt m init) := by
  have hsize (l : Option Nat) : (x.withLimit l).subject.size = x.subject.size := rfl
  have hpattern (l : Option Nat) : (x.withLimit l).pattern = x.pattern := rfl
  unfold findAt
  rw [hsize, hsize, hpattern, hpattern]
  by_cases hi : x.subject.size < init
  · rw [if_pos hi, if_pos hi]
    exact ⟨fun _ => rfl, fun hlt => absurd (hm hi) (Nat.not_le_of_lt hlt)⟩
  · rw [if_neg hi, if_neg hi]
    by_cases hp : x.pattern.plain = true
    · rw [if_pos hp, if_pos hp]
      exact ⟨fun _ => rfl, fun hlt => absurd hlt (Nat.not_lt_zero _)⟩
    · rw [if_neg hp, if_neg hp]
      by_cases ha : x.pattern.anchored = true
      · rw [if_pos ha, if_pos ha]
        exact x.attempt_cut m.resetSteps init (Nat.zero_le _)
      · rw [if_neg ha, if_neg ha]
        exact x.scan_cut m.resetSteps init (Nat.zero_le _)

end Matcher
end BytePattern
