import BytePattern.Search.Matches
import BytePattern.Proofs.Search.Inside

/-!
# The sequence of all matches

Pulling a sequence of matches again and again gives the elements of its list, and after them nothing
(`Matches.pull_eq`). Without a step limit the list is what sweeping from the first offset finds
(`Swept`, `Matches.toList_of_swept`): one search after the other, each from where the match before it allows.
As each is the naive search, that fixes the order of the matches, their distance and their number, and
that none is missed (`Swept.allFrom`, by induction on the sweep).
-/
namespace BytePattern

namespace Matches

def after (it : Matches) : Nat → Matches
  | 0 => it
  | n + 1 => it.next.2.after n

def pull (it : Matches) (n : Nat) : Option (Except Error Match) := (it.after n).next.1

theorem next_of_done {it : Matches} (h : it.done = true) : it.next = (none, it) := by
  rw [next, if_pos h]

theorem done_of_next_none {it it' : Matches} (h : it.next = (none, it')) : it'.done = true := by
  unfold next at h
  split at h
  · cases h
    assumption
  · split at h
    · cases h
    · cases h
      rfl
    · cases h

theorem done_of_next_error {it it' : Matches} {e : Error} (h : it.next = (some (.error e), it')) :
    it'.done = true := by
  unfold next at h
  split at h
  · cases h
  · split at h
    · cases h
    · cases h
    · cases h
      rfl

theorem pull_of_done {it : Matches} (h : it.done = true) (n : Nat) : it.pull n = none := by
  have hafter : it.after n = it := by
    induction n with
    | zero => rfl
    | succ n ih => rw [after, next_of_done h, ih]
  rw [pull, hafter, next_of_done h]

theorem toList_of_some {it it' : Matches} {r : Except Error Match} (h : it.next = (some r, it')) :
    it.toList = r :: it'.toList := by
  rw [toList]
  split
  · rename_i h'
    cases h.symm.trans h'
    rfl
  · rename_i h'
    cases h.symm.trans h'

theorem toList_of_none {it it' : Matches} (h : it.next = (none, it')) : it.toList = [] := by
  rw [toList]
  split
  · rename_i h'
    cases h.symm.trans h'
  · rfl

theorem toList_eq (it : Matches) : ∃ (ms : List Match) (failure : Option Error),
    it.toList = ms.map .ok ++ failure.toList.map .error := by
  fun_induction toList it with
  | case1 it r it' h ih =>
    cases r with
    | ok m =>
      obtain ⟨ms, failure, heq⟩ := ih
      exact ⟨m :: ms, failure, congrArg _ heq⟩
    | error e =>
      refine ⟨[], some e, ?_⟩
      rw [toList_of_none (next_of_done (done_of_next_error h))]
      rfl
  | case2 => exact ⟨[], none, rfl⟩

theorem pull_eq (it : Matches) (n : Nat) : it.pull n = it.toList[n]? := by
  fun_induction toList it generalizing n with
  | case1 it r it' h ih =>
    cases n with
    | zero => rw [pull, after, h, List.getElem?_cons_zero]
    | succ n => rw [pull, after, h, List.getElem?_cons_succ, ← ih, pull]
  | case2 it it' h =>
    rw [List.getElem?_nil]
    cases n with
    | zero => rw [pull, after, h]
    | succ n =>
      have hn := pull_of_done (done_of_next_none h) n
      rwa [pull, after, h]

theorem keeps_of_next {it it' : Matches} {r : Option (Except Error Match)} (h : it.next = (r, it')) :
    it'.pattern = it.pattern ∧ it'.subject = it.subject ∧ it'.options = it.options := by
  unfold next at h
  split at h
  · cases h
    exact ⟨rfl, rfl, rfl⟩
  · split at h <;> cases h <;> exact ⟨rfl, rfl, rfl⟩

theorem keeps_after (it : Matches) (n : Nat) : (it.after n).pattern = it.pattern ∧
    (it.after n).subject = it.subject ∧ (it.after n).options = it.options := by
  induction n generalizing it with
  | zero => exact ⟨rfl, rfl, rfl⟩
  | succ n ih =>
    obtain ⟨hpattern, hsubject, hoptions⟩ := keeps_of_next (Prod.eta it.next).symm
    obtain ⟨hpattern', hsubject', hoptions'⟩ := ih it.next.2
    exact ⟨hpattern'.trans hpattern, hsubject'.trans hsubject, hoptions'.trans hoptions⟩

theorem find_of_next {it it' : Matches} {r : Except Error Match} (h : it.next = (some r, it')) :
    (Matcher.ofPattern it.pattern it.subject it.options).find it.offset = r.map some := by
  unfold next at h
  split at h
  · cases h
  · split at h
    · cases h
      assumption
    · cases h
    · cases h
      assumption

theorem inside_of_next {o : Options} {source : Bytes} {it it' : Matches} {m : Match}
    (hp : Pattern.compile o source = .ok it.pattern) (h : it.next = (some (.ok m), it')) :
    m.Inside it.subject :=
  Matcher.findAt_inside hp it.subject rfl (find_of_next h)

theorem inside_of_mem_toList {o : Options} {source : Bytes} {it : Matches}
    (hp : Pattern.compile o source = .ok it.pattern) {m : Match} (hm : .ok m ∈ it.toList) :
    m.Inside it.subject := by
  fun_induction toList it with
  | case1 it r it' h ih =>
    obtain ⟨hpattern, hsubject, _⟩ := keeps_of_next h
    rcases List.mem_cons.1 hm with rfl | hm
    · exact inside_of_next hp h
    · rw [← hsubject]
      exact ih (by rw [hpattern, hp]) hm
  | case2 => exact absurd hm List.not_mem_nil

section First

variable {p : Pattern} {s : Subject} {o : Options} {i : Nat}

theorem toList_of_find_error {e : Error} (h : (Matcher.ofPattern p s o).find i = .error e) :
    (ofPattern p s o i).toList = [.error e] := by
  have hnext : (ofPattern p s o i).next = (some (.error e), ⟨p, s, o, i, true⟩) := by
    simp [next, ofPattern, h]
  rw [toList_of_some hnext, toList_of_none (next_of_done rfl)]

theorem toList_of_find_none (h : (Matcher.ofPattern p s o).find i = .ok none) :
    (ofPattern p s o i).toList = [] := by
  have hnext : (ofPattern p s o i).next = (none, ⟨p, s, o, i, true⟩) := by
    simp [next, ofPattern, h]
  exact toList_of_none hnext

theorem toList_of_find_some {m : Match} (h : (Matcher.ofPattern p s o).find i = .ok (some m)) :
    (ofPattern p s o i).toList =
      .ok m :: if p.anchored then [] else (ofPattern p s o m.resumeAt).toList := by
  have hnext : (ofPattern p s o i).next = (some (.ok m), ⟨p, s, o, m.resumeAt, p.anchored⟩) := by
    simp [next, ofPattern, h]
  rw [toList_of_some hnext]
  cases hp : p.anchored with
  | true => rw [toList_of_none (next_of_done rfl), if_pos rfl]
  | false => rw [if_neg Bool.false_ne_true, ofPattern]

end First

end Matches

namespace Matcher

inductive Swept (x : Matcher) : Nat → List Match → Prop
  | stop {i : Nat} : x.find i = .ok none → Swept x i []
  | last {i : Nat} {m : Match} : x.pattern.anchored = true → x.find i = .ok (some m) → Swept x i [m]
  | next {i : Nat} {m : Match} {ms : List Match} : x.pattern.anchored = false →
      x.find i = .ok (some m) → Swept x m.resumeAt ms → Swept x i (m :: ms)

/-- All matches from `init` on: in order and apart from each other, each of them what a new matcher finds
at its start, and no offset left out at which one succeeds. -/
structure AllFrom (x : Matcher) (init : Nat) (ms : List Match) : Prop where
  length_le : ms.length ≤ x.subject.size + 1 - init
  init_le : ∀ m ∈ ms, init ≤ m.start
  apart : ms.IsChain fun m m' => max m.stop (m.start + 1) ≤ m'.start
  stop_le : ∀ m ∈ ms, m.stop ≤ x.subject.size
  attempt_eq : ∀ m ∈ ms, (x.attempt .fresh m.start).1 = .ok (some m)
  covered : x.pattern.anchored = false → ∀ q stop, init ≤ q → q ≤ x.subject.size →
    (x.tryMatch .fresh q).1 = .ok (some stop) →
      ∃ m ∈ ms, m.start = q ∨ m.start < q ∧ q < m.stop
  once : x.pattern.anchored = true → ms.length ≤ 1 ∧
    (ms ≠ [] ↔ init ≤ x.subject.size ∧ ∃ stop, (x.tryMatch .fresh init).1 = .ok (some stop))

theorem tryMatch_of_attempt {x : Matcher} {m : Memory} {i : Nat} {found : Match}
    (h : (x.attempt m i).1 = .ok (some found)) : (x.tryMatch m i).1 = .ok (some found.stop) := by
  unfold attempt at h
  split at h
  · rename_i stop m' ht
    rw [ht]
    cases hc : m'.captures x.pattern.captureCount with
    | error e =>
      rw [hc] at h
      cases h
    | ok captures =>
      rw [hc] at h
      cases h
      rfl
  · cases h
  · cases h

theorem attempt_ne_none {x : Matcher} {m : Memory} {i stop : Nat}
    (h : (x.tryMatch m i).1 = .ok (some stop)) : (x.attempt m i).1 ≠ .ok none := by
  have ht : x.tryMatch m i = (.ok (some stop), (x.tryMatch m i).2) := Prod.ext h rfl
  rw [attempt, ht]
  cases hc : (x.tryMatch m i).2.captures x.pattern.captureCount with
  | error e => simp [hc, Except.map]
  | ok captures => simp [hc, Except.map]

namespace Swept

variable {o : Options} {source : Bytes} {p : Pattern} (hp : Pattern.compile o source = .ok p)
  {s : Subject} {init : Nat} {ms : List Match}

theorem init_le {x : Matcher} (h : x.Swept init ms) : ∀ m ∈ ms, init ≤ m.start := by
  induction h with
  | stop _ => exact fun m hm => absurd hm List.not_mem_nil
  | last _ hf =>
    intro m hm
    obtain rfl := List.mem_singleton.1 hm
    exact le_start_of_find hf
  | @next i m ms _ hf _ ih =>
    have hi := le_start_of_find hf
    have hresume := m.start_lt_resumeAt
    intro m' hm'
    rcases List.mem_cons.1 hm' with rfl | hm'
    · exact hi
    · have := ih m' hm'
      omega

theorem apart {x : Matcher} (h : x.Swept init ms) :
    ms.IsChain fun m m' => max m.stop (m.start + 1) ≤ m'.start := by
  induction h with
  | stop _ => exact .nil
  | last _ _ => exact .singleton _
  | next _ _ hms ih =>
    rw [List.isChain_cons]
    exact ⟨fun m' hm' => hms.init_le m' (List.mem_of_mem_head? hm'), ih⟩

include hp

theorem attempt_eq (h : Swept ⟨p, s, none⟩ init ms) :
    ∀ m ∈ ms, m.start ≤ s.size ∧ (attempt ⟨p, s, none⟩ .fresh m.start).1 = .ok (some m) := by
  have hfound {i : Nat} {m : Match} (hf : find ⟨p, s, none⟩ i = .ok (some m)) : m.start ≤ s.size ∧
      (attempt ⟨p, s, none⟩ .fresh m.start).1 = .ok (some m) := by
    obtain ⟨_, hsize, hattempt, _⟩ := naive_some (naive_of_find hp s hf)
    exact ⟨hsize, hattempt⟩
  induction h with
  | stop _ => exact fun m hm => absurd hm List.not_mem_nil
  | last _ hf =>
    intro m hm
    obtain rfl := List.mem_singleton.1 hm
    exact hfound hf
  | next _ hf _ ih =>
    intro m hm
    rcases List.mem_cons.1 hm with rfl | hm
    · exact hfound hf
    · exact ih m hm

theorem length_le (h : Swept ⟨p, s, none⟩ init ms) : ms.length ≤ s.size + 1 - init := by
  induction h with
  | stop _ => exact Nat.zero_le _
  | last _ hf =>
    obtain ⟨hi, hsize, _⟩ := naive_some (naive_of_find hp s hf)
    simp only at hsize
    rw [List.length_singleton]
    omega
  | @next i m ms _ hf _ ih =>
    obtain ⟨hi, hsize, _⟩ := naive_some (naive_of_find hp s hf)
    have hresume := m.start_lt_resumeAt
    simp only at hsize
    rw [List.length_cons]
    omega

theorem covered (h : Swept ⟨p, s, none⟩ init ms) (ha : p.anchored = false) {q stop : Nat}
    (hq : init ≤ q) (hsize : q ≤ s.size)
    (ht : (tryMatch ⟨p, s, none⟩ .fresh q).1 = .ok (some stop)) :
    ∃ m ∈ ms, m.start = q ∨ m.start < q ∧ q < m.stop := by
  -- before a match nothing matches, and after its start either it still covers the offset or the next
  -- search starts no later
  induction h with
  | stop hf =>
    have hnone := naive_none (naive_of_find hp s hf) hq hsize fun h => by simp [ha] at h
    exact absurd hnone (attempt_ne_none ht)
  | last hanchor _ => simp [ha] at hanchor
  | @next i m ms _ hf _ ih =>
    obtain ⟨_, _, _, hbefore⟩ := naive_some (naive_of_find hp s hf)
    rcases Nat.lt_trichotomy q m.start with hlt | heq | hgt
    · exact absurd (hbefore ha q hq hlt) (attempt_ne_none ht)
    · exact ⟨m, .head _, .inl heq.symm⟩
    · by_cases hstop : q < m.stop
      · exact ⟨m, .head _, .inr ⟨hgt, hstop⟩⟩
      · have hresume : m.resumeAt ≤ q := Nat.max_le.2 ⟨Nat.le_of_not_lt hstop, hgt⟩
        obtain ⟨m', hm', hin⟩ := ih hresume
        exact ⟨m', .tail _ hm', hin⟩

theorem once (h : Swept ⟨p, s, none⟩ init ms) (ha : p.anchored = true) : ms.length ≤ 1 ∧
    (ms ≠ [] ↔ init ≤ s.size ∧ ∃ stop, (tryMatch ⟨p, s, none⟩ .fresh init).1 = .ok (some stop)) := by
  cases h with
  | stop hf =>
    refine ⟨Nat.zero_le _, iff_of_false (fun h => h rfl) ?_⟩
    rintro ⟨hsize, stop, ht⟩
    have hnone := naive_none (naive_of_find hp s hf) (Nat.le_refl _) hsize fun _ => rfl
    exact attempt_ne_none ht hnone
  | @last _ m _ hf =>
    have hn := naive_of_find hp s hf
    unfold Naive at hn
    rw [if_pos ha] at hn
    split at hn
    · cases hn
    · rename_i hinit
      exact ⟨Nat.le_refl 1, iff_of_true (List.cons_ne_nil _ _)
        ⟨Nat.le_of_not_lt hinit, m.stop, tryMatch_of_attempt hn⟩⟩
  | next hanchor _ _ => simp [ha] at hanchor

theorem allFrom (h : Swept ⟨p, s, none⟩ init ms) : AllFrom ⟨p, s, none⟩ init ms where
  length_le := h.length_le hp
  init_le := h.init_le
  apart := h.apart
  stop_le m hm := by
    obtain ⟨hsize, hfound⟩ := h.attempt_eq hp m hm
    exact (attempt_inside hp s hsize rfl hfound).stop_le_size
  attempt_eq m hm := (h.attempt_eq hp m hm).2
  covered ha _ _ hq hsize ht := h.covered hp ha hq hsize ht
  once ha := h.once hp ha

end Swept
end Matcher

namespace Matches

theorem toList_of_swept {p : Pattern} {s : Subject} {o : Options} {i : Nat} {ms : List Match}
    (ho : o.stepLimit = none) (h : Matcher.Swept ⟨p, s, none⟩ i ms) :
    (ofPattern p s o i).toList = ms.map .ok := by
  have hx : Matcher.ofPattern p s o = ⟨p, s, none⟩ := by rw [Matcher.ofPattern, ho]
  rw [← hx] at h
  induction h with
  | stop hf => exact toList_of_find_none hf
  | last ha hf =>
    replace ha : p.anchored = true := ha
    rw [toList_of_find_some hf, if_pos ha, List.map_singleton]
  | next ha hf _ ih =>
    replace ha : p.anchored = false := ha
    rw [toList_of_find_some hf, ha, if_neg Bool.false_ne_true, ih, List.map_cons]

theorem exists_swept {o : Options} {source : Bytes} {p : Pattern}
    (hp : Pattern.compile o source = .ok p) (s : Subject) (i : Nat) :
    ∃ ms, Matcher.Swept ⟨p, s, none⟩ i ms := by
  induction hn : s.size + 1 - i using Nat.strong_induction_on generalizing i with
  | _ n ih =>
    obtain ⟨result, hr, _⟩ := Matcher.exists_naive hp s (m := .fresh) rfl i
    have hfind : Matcher.find ⟨p, s, none⟩ i = .ok result := hr
    cases result with
    | none => exact ⟨[], .stop hfind⟩
    | some m =>
      cases ha : p.anchored with
      | true => exact ⟨[m], .last ha hfind⟩
      | false =>
        have hi : i ≤ s.size := Matcher.init_le_of_find hfind
        have hstart := Matcher.le_start_of_find hfind
        have hresume := m.start_lt_resumeAt
        obtain ⟨ms, hms⟩ := ih (s.size + 1 - m.resumeAt) (by omega) m.resumeAt rfl
        exact ⟨m :: ms, .next ha hfind hms⟩

/-- Pulled to its end and beyond, a sequence of matches gives all matches and then nothing. -/
theorem pull_all {o o' : Options} {source : Bytes} {p : Pattern}
    (hp : Pattern.compile o source = .ok p) (ho : o'.stepLimit = none) (s : Subject) (init : Nat) :
    ∃ ms, (∀ n, (ofPattern p s o' init).pull n = ms[n]?.map .ok) ∧
      Matcher.AllFrom ⟨p, s, none⟩ init ms := by
  obtain ⟨ms, hms⟩ := exists_swept hp s init
  refine ⟨ms, fun n => ?_, hms.allFrom hp⟩
  rw [pull_eq, toList_of_swept ho hms, List.getElem?_map]

theorem pull_all_aab : ∃ p, Pattern.compile {} [97, 42] = .ok p ∧
    ∃ ms, (∀ n, (ofPattern p #[97, 97, 98] {} 0).pull n = ms[n]?.map .ok) ∧
      Matcher.AllFrom ⟨p, #[97, 97, 98], none⟩ 0 ms := by
  have hp : Pattern.compile {} [97, 42] =
      .ok ⟨[97, 42], [.single (.byte 97) .zeroOrMore], [], false⟩ := by
    cbv
  exact ⟨_, hp, pull_all hp rfl #[97, 97, 98] 0⟩

end Matches
end BytePattern
