import BytePattern.Proofs.Match.Halting
import BytePattern.Proofs.Safety
import BytePattern.Proofs.Search.Cutoff

/-!
# Everything ends

Without a step limit every loop comes to its end: the steps of an attempt, the offsets that a scan passes
over, the searches of a sequence of matches or of a substitution (`terminates`). An attempt takes fewer
steps than `Matcher.stepBound`, and a search as many times that as it tries offsets
(`Matcher.steps_findAt_le`). The searches of a sequence share the subject between them, so all of them
together cost no more than one that finds nothing (`Matches.sum_costs_le`, by induction on the sweep).
-/
namespace BytePattern

namespace Matcher

def stepBound (x : Matcher) : Nat := (x.subject.size + 3) ^ x.pattern.items.length

def lastTried (x : Matcher) (result : Option Match) : Nat := result.elim x.subject.size Match.start

section Steps

variable {x : Matcher} {m m' : Memory} {i : Nat} {result : Option Match}

theorem weight_start_lt (x : Matcher) (m : Memory) (i : Nat) :
    x.weight (m.clear, .items x.pattern.items i) < x.stepBound := by
  have hlt := itemsWeight_lt_pow x.subject.size x.pattern.items
  rwa [← Nat.zero_add (itemsWeight _ _)] at hlt

theorem steps_attempt_le (x : Matcher) (m : Memory) (i : Nat) :
    (x.attempt m i).2.steps ≤ m.steps + x.stepBound := by
  have hrun := x.steps_run_le m.clear (.items x.pattern.items i)
  have hlt := x.weight_start_lt m i
  have hclear : m.clear.steps = m.steps := rfl
  rw [attempt_eq_report, report_snd, tryMatch]
  omega

theorem steps_attemptAt_le (x : Matcher) (m : Memory) (i : Nat) :
    (x.attemptAt m i).2.steps ≤ m.steps + x.stepBound := by
  unfold attemptAt
  split
  · exact x.steps_attempt_le m i
  · exact Nat.le_add_right ..

theorem steps_scan_le (hi : i ≤ x.subject.size) (h : x.scan m i = (.ok result, m')) :
    i ≤ x.lastTried result ∧ m'.steps ≤ m.steps + (x.lastTried result + 1 - i) * x.stepBound := by
  fun_induction scan x m i with
  | case1 m i m₁ hnone hlt ih =>
    have hcost := x.steps_attemptAt_le m i
    rw [hnone] at hcost
    obtain ⟨hle, hrest⟩ := ih hlt h
    have hsplit : (x.lastTried result + 1 - i) * x.stepBound =
        (x.lastTried result + 1 - (i + 1)) * x.stepBound + x.stepBound := by
      rw [← Nat.succ_mul]
      congr 1
      omega
    refine ⟨Nat.le_of_succ_le hle, ?_⟩
    simp only at hcost
    omega
  | case2 m i m₁ hnone hge =>
    have hcost := x.steps_attemptAt_le m i
    rw [hnone] at hcost
    cases h
    have hone : x.lastTried none + 1 - i = 1 := by
      show x.subject.size + 1 - i = 1
      omega
    rw [hone, Nat.one_mul]
    exact ⟨hi, hcost⟩
  | case3 m i hne =>
    have hcost := x.steps_attemptAt_le m i
    rw [h] at hcost
    cases result with
    | none => exact absurd h (hne m')
    | some found =>
      have hstart : x.lastTried (some found) = i := start_eq_of_attemptAt h
      rw [hstart, Nat.add_sub_cancel_left, Nat.one_mul]
      exact ⟨Nat.le_refl i, hcost⟩

theorem steps_findAt_le (hi : i ≤ x.subject.size) (h : x.findAt m i = (.ok result, m')) :
    m'.steps ≤ (x.lastTried result + 1 - i) * x.stepBound := by
  have hreset : m.resetSteps.steps = 0 := rfl
  rw [findAt, if_neg (Nat.not_lt_of_le hi)] at h
  split at h
  · cases h
    exact Nat.zero_le _
  · split at h
    · have hcost := x.steps_attempt_le m.resetSteps i
      have hlast : i ≤ x.lastTried result := by
        cases result with
        | none => exact hi
        | some found => exact Nat.le_of_eq (start_eq_of_attempt h).symm
      have hone : 1 * x.stepBound ≤ (x.lastTried result + 1 - i) * x.stepBound :=
        Nat.mul_le_mul_right _ (by omega)
      rw [h] at hcost
      simp only at hcost
      omega
    · have hscan := (steps_scan_le hi h).2
      omega

theorem cost_le {p : Pattern} {s : Subject} (h : find ⟨p, s, none⟩ i = .ok result) :
    cost p s i ≤ (lastTried ⟨p, s, none⟩ result + 1 - i) * stepBound ⟨p, s, none⟩ := by
  by_cases hi : i ≤ s.size
  · exact steps_findAt_le (x := ⟨p, s, none⟩) hi (Prod.ext h rfl)
  · have hcost : cost p s i = 0 := by
      rw [cost, findAt, if_pos (Nat.lt_of_not_le hi)]
      rfl
    rw [hcost]
    exact Nat.zero_le _

end Steps

def Turns (x : Matcher) (a b : Memory × Nat) : Prop :=
  ∃ m, x.findAt a.1 a.2 = (.ok (some m), b.1) ∧ b.2 = m.resumeAt

theorem sub_lt_of_turns {x : Matcher} {a b : Memory × Nat} (h : x.Turns a b) :
    x.subject.size + 1 - b.2 < x.subject.size + 1 - a.2 := by
  obtain ⟨m, hfind, hresume⟩ := h
  have hinit := init_le_of_findAt hfind
  have hstart := le_start_of_findAt hfind
  have hlt := m.start_lt_resumeAt
  omega

theorem sub_lt_of_passes {x : Matcher} {a b : Memory × Nat} (h : x.Passes a b) :
    x.subject.size - b.2 < x.subject.size - a.2 := by
  obtain ⟨_, hlt, hnext⟩ := h
  omega

end Matcher

namespace Matches

open Matcher (Swept cost stepBound)

variable {o : Options} {source : Bytes} {p : Pattern} (hp : Pattern.compile o source = .ok p)
  {s : Subject}

include hp

theorem sum_costs_le {init : Nat} {ms : List Match} (h : Swept ⟨p, s, none⟩ init ms) :
    (costs p s init ms).sum ≤ (s.size + 1 - init) * stepBound ⟨p, s, none⟩ := by
  induction h with
  | stop hf =>
    rw [costs_nil, List.sum_singleton]
    exact Matcher.cost_le hf
  | @last i m ha hf =>
    obtain ⟨_, hsize, _⟩ := Matcher.naive_some (Matcher.naive_of_find hp s hf)
    rw [costs_of_anchored ha, List.sum_singleton]
    refine Nat.le_trans (Matcher.cost_le hf) (Nat.mul_le_mul_right _ ?_)
    show m.start + 1 - i ≤ s.size + 1 - i
    simp only at hsize
    omega
  | @next i m ms ha hf _ ih =>
    obtain ⟨hinit, hsize, _⟩ := Matcher.naive_some (Matcher.naive_of_find hp s hf)
    have hresume := m.start_lt_resumeAt
    rw [costs_cons ha, List.sum_cons]
    calc cost p s i + (costs p s m.resumeAt ms).sum
        ≤ (m.start + 1 - i) * stepBound ⟨p, s, none⟩ +
            (s.size + 1 - m.resumeAt) * stepBound ⟨p, s, none⟩ :=
          Nat.add_le_add (Matcher.cost_le hf) ih
      _ = (m.start + 1 - i + (s.size + 1 - m.resumeAt)) * stepBound ⟨p, s, none⟩ :=
          (Nat.add_mul ..).symm
      _ ≤ (s.size + 1 - i) * stepBound ⟨p, s, none⟩ := by
          refine Nat.mul_le_mul_right _ ?_
          simp only at hsize
          omega

end Matches

theorem Replacement.Replaced.state_eq {σ : Type} {t : Bytes} {s : Subject} {st st' : σ}
    {done : List (Match × Bytes)} (h : Replaced (.template t) s st done st') : st' = st := by
  induction h with
  | nil => rfl
  | cons hgives _ ih =>
    cases hgives with
    | expanded _ => exact ih

theorem Matcher.substitute_template {σ : Type} {o o' : Options} {source : Bytes} {p : Pattern}
    (hp : Pattern.compile o source = .ok p) (ho : o'.stepLimit = none) (s : Subject) (t : Bytes)
    (quota : Option Nat) (st : σ) :
    (∃ out n, n ≤ s.size + 1 ∧
      ((ofPattern p s o').substitute (.template t) quota).run.run st = (.ok (out, n), st)) ∨
    ∃ m out e, Template.expand s m t = (out, some e) ∧
      ((ofPattern p s o').substitute (.template t) quota).run.run st = (.error e, st) := by
  obtain ⟨ms, hms⟩ := Matches.exists_swept hp s 0
  have hlength := hms.length_le hp
  have hall : allowed quota (Matches.ofPattern p s o' 0).toList = (allowed quota ms).map .ok := by
    rw [Matches.toList_of_swept ho hms, allowed_map]
  have hinside : ∀ m, .ok m ∈ allowed quota (Matches.ofPattern p s o' 0).toList → m.Inside s :=
    fun m hm => Matches.inside_of_mem_toList hp (mem_of_mem_allowed hm)
  have hends : (Replacement.template t).Ends s _ st _ _ := Replacement.ends_texts hinside st
  have hass : Assembled s 0 _ (((ofPattern p s o').substitute (.template t) quota).run.run st) :=
    substituteFrom_assembled hp s o' (.template t) rfl quota (Nat.le_refl 0) (Nat.zero_le _) st
  rw [hall] at hends hass
  generalize ((Replacement.template t).texts s ((allowed quota ms).map .ok)).run.run st = read
    at hends hass
  obtain ⟨result, st'⟩ := read
  generalize ((ofPattern p s o').substitute (.template t) quota).run.run st = answer at hass ⊢
  cases hends with
  | @replaced done _ hfound hreplaced =>
    obtain rfl := hreplaced.state_eq
    cases hass with
    | ok _ =>
      refine .inl ⟨_, done.length, ?_, rfl⟩
      have hcount := congrArg List.length hfound
      have hallowed : (allowed quota ms).length ≤ ms.length := by
        cases quota with
        | none => exact Nat.le_refl _
        | some n => exact List.length_take_le' n ms
      simp only [List.length_map] at hcount
      omega
  | @searchFailed done e rest _ hfound _ =>
    have hmem : Except.error e ∈ (allowed quota ms).map (Except.ok (ε := Error)) := by
      rw [hfound]
      simp
    obtain ⟨m, _, hm⟩ := List.mem_map.1 hmem
    cases hm
  | replacementFailed _ hreplaced hgives =>
    obtain rfl := hreplaced.state_eq
    cases hgives with
    | misused hexpand =>
      cases hass with
      | error => exact .inr ⟨_, _, _, hexpand, rfl⟩

structure Terminates (p : Pattern) (s : Subject) : Prop where
  /-- The run of an attempt halts after so many steps, each counted once, and no run from its start is
  longer. -/
  attempts : ∀ (m : Memory) start, m.slots.length = captureLimit → start ≤ s.size →
    ∃ n result m', n < Matcher.stepBound ⟨p, s, none⟩ ∧
      Matcher.HaltsIn ⟨p, s, none⟩ n (m.clear, .items p.items start) (.ok result) m' ∧
      Matcher.tryMatch ⟨p, s, none⟩ m start = (.ok result, m') ∧ m'.steps = m.steps + n
  scans : ∀ (m : Memory) init n b, StepsOf (Matcher.Passes ⟨p, s, none⟩) n (m, init) b →
    n ≤ s.size - init
  searches : ∀ (m : Memory) init, m.slots.length = captureLimit →
    ∃ result m', Matcher.findAt ⟨p, s, none⟩ m init = (.ok result, m') ∧
      (init ≤ s.size → m'.steps ≤ (s.size + 1 - init) * Matcher.stepBound ⟨p, s, none⟩)
  /-- A sequence is drained after so many pulls; the bound is on all its searches together. -/
  sequences : ∀ init, ∃ ms : List Match, ms.length ≤ s.size + 1 - init ∧
    (Matches.costs p s init ms).sum ≤ (s.size + 1 - init) * Matcher.stepBound ⟨p, s, none⟩ ∧
    ∀ o : Options, o.stepLimit = none → ∀ n,
      (Matches.ofPattern p s o init).pull n = ms[n]?.map .ok
  turns : ∀ (m : Memory) init n b, StepsOf (Matcher.Turns ⟨p, s, none⟩) n (m, init) b →
    n ≤ s.size + 1 - init
  substitutions : ∀ {σ : Type} (o : Options) (t : Bytes) (quota : Option Nat) (st : σ),
    o.stepLimit = none →
    (∃ out n, n ≤ s.size + 1 ∧
      ((Matcher.ofPattern p s o).substitute (.template t) quota).run.run st = (.ok (out, n), st)) ∨
    ∃ m out e, Template.expand s m t = (out, some e) ∧
      ((Matcher.ofPattern p s o).substitute (.template t) quota).run.run st = (.error e, st)

theorem terminates {o : Options} {source : Bytes} {p : Pattern}
    (hp : Pattern.compile o source = .ok p) (s : Subject) : Terminates p s where
  attempts m start hm hs := by
    have hok : ∃ result m', Matcher.tryMatch ⟨p, s, none⟩ m start = (.ok result, m') := by
      rcases tryMatch_cases hp s hs hm with ⟨m', ht, _⟩ | ⟨m', stop, _, _, ht, _⟩
      · exact ⟨none, m', ht⟩
      · exact ⟨some stop, m', ht⟩
    obtain ⟨result, m', ht⟩ := hok
    obtain ⟨n, result', last, hn⟩ :=
      Matcher.exists_haltsIn ⟨p, s, none⟩ (m.clear, .items p.items start)
    have hrun : Matcher.tryMatch ⟨p, s, none⟩ m start = (result', last) := hn.run_eq
    cases ht.symm.trans hrun
    have hlt := Matcher.weight_start_lt ⟨p, s, none⟩ m start
    exact ⟨n, result, m', Nat.lt_of_le_of_lt hn.le_weight hlt, hn, ht, hn.steps_eq⟩
  scans m init n b h := by
    have hle := h.add_le fun _ _ => Matcher.sub_lt_of_passes
    exact Nat.le_trans (Nat.le_add_right ..) hle
  searches m init hm := by
    obtain ⟨result, hr, hnaive⟩ := Matcher.exists_naive hp s hm init
    refine ⟨result, _, Prod.ext hr rfl, fun hi => ?_⟩
    have hcost := Matcher.steps_findAt_le (x := ⟨p, s, none⟩) hi (Prod.ext hr rfl)
    have hlast : Matcher.lastTried ⟨p, s, none⟩ result ≤ s.size := by
      cases result with
      | none => exact Nat.le_refl _
      | some found => exact (Matcher.naive_some hnaive).2.1
    exact Nat.le_trans hcost (Nat.mul_le_mul_right _ (by omega))
  sequences init := by
    obtain ⟨ms, hms⟩ := Matches.exists_swept hp s init
    refine ⟨ms, hms.length_le hp, Matches.sum_costs_le hp hms, fun o ho n => ?_⟩
    rw [Matches.pull_eq, Matches.toList_of_swept ho hms, List.getElem?_map]
  turns m init n b h := by
    have hle := h.add_le fun _ _ => Matcher.sub_lt_of_turns
    exact Nat.le_trans (Nat.le_add_right ..) hle
  substitutions o' t quota st ho := Matcher.substitute_template hp ho s t quota st

theorem terminates_aaac : ∃ p, Pattern.compile {} [40, 97, 42, 41, 37, 49, 97, 45, 98] = .ok p ∧
    Terminates p #[97, 97, 97, 99] := by
  have hp : Pattern.compile {} [40, 97, 42, 41, 37, 49, 97, 45, 98] =
      .ok ⟨[40, 97, 42, 41, 37, 49, 97, 45, 98], [.openCapture 0, .single (.byte 97) .zeroOrMore,
        .closeCapture 0, .backReference 0, .single (.byte 97) .lazy, .single (.byte 98) .one],
        [.substring], false⟩ := by
    cbv
  exact ⟨_, hp, terminates hp #[97, 97, 97, 99]⟩

end BytePattern
