import BytePattern.Proofs.Search.Limit
import BytePattern.Proofs.Search.Naive

/-!
# Matches lie inside the subject

A walk only goes forward and never past the end, and what it captures on the way it captures between its
two ends (`Walk.inside`, by induction on the walk). So the match that a search finds is a span of the
subject with its captures inside (`findAt_inside`), and the text and the values of such a match can be
read (`Match.text_eq_ok`, `Match.values_eq_ok`).
-/
namespace BytePattern

def Capture.Inside (lo hi : Nat) : Capture → Prop
  | .substring a b => lo ≤ a ∧ a ≤ b ∧ b ≤ hi
  | .position a => lo ≤ a ∧ a ≤ hi

def Taken.Inside (lo hi : Nat) : Taken → Prop
  | .opened a => lo ≤ a ∧ a ≤ hi
  | .holds c => c.Inside lo hi

theorem Capture.Inside.mono {lo hi hi' : Nat} {c : Capture} (h : c.Inside lo hi) (hle : hi ≤ hi') :
    c.Inside lo hi' := by
  cases c with
  | substring a b => exact ⟨h.1, h.2.1, Nat.le_trans h.2.2 hle⟩
  | position a => exact ⟨h.1, Nat.le_trans h.2 hle⟩

theorem Taken.Inside.mono {lo hi hi' : Nat} {t : Taken} (h : t.Inside lo hi) (hle : hi ≤ hi') :
    t.Inside lo hi' := by
  cases t with
  | opened a => exact ⟨h.1, Nat.le_trans h.2 hle⟩
  | holds c => exact Capture.Inside.mono h hle

def Record.Inside (lo hi : Nat) (r : Record) : Prop := ∀ k t, r k = some t → t.Inside lo hi

theorem Record.inside_empty (lo hi : Nat) : Record.empty.Inside lo hi := fun _ _ h => by cases h

theorem Record.Inside.mono {lo hi hi' : Nat} {r : Record} (h : r.Inside lo hi) (hle : hi ≤ hi') :
    r.Inside lo hi' := fun k t hk => (h k t hk).mono hle

theorem Record.Inside.update {lo hi : Nat} {r : Record} (h : r.Inside lo hi) (k : Nat) {t : Taken}
    (ht : t.Inside lo hi) : Record.Inside lo hi (Function.update r k (some t)) := by
  intro l u hu
  by_cases hl : l = k
  · subst hl
    rw [Function.update_self] at hu
    cases hu
    exact ht
  · rw [Function.update_of_ne hl] at hu
    exact h l u hu

theorem Walk.inside {s : Subject} {items : List Item} {counts : List Nat} {i j lo : Nat}
    {r r' : Record} (h : Walk s items counts i r j r') (hlo : lo ≤ i) (hi : i ≤ s.size)
    (hr : r.Inside lo i) : i ≤ j ∧ j ≤ s.size ∧ r'.Inside lo j := by
  induction h with
  | nil => exact ⟨Nat.le_refl _, hi, hr⟩
  | @single _ _ n _ _ i _ _ _ _ hac _ ih =>
    have hle := Nat.le_add_right i n
    obtain ⟨hij, hj, hr'⟩ := ih (Nat.le_trans hlo hle) (hac.le_size hi) (hr.mono hle)
    exact ⟨Nat.le_trans hle hij, hj, hr'⟩
  | openCapture _ ih => exact ih hlo hi (hr.update _ ⟨hlo, Nat.le_refl _⟩)
  | closeCapture ha _ ih =>
    obtain ⟨hla, hai⟩ := hr _ _ ha
    exact ih hlo hi (hr.update _ ⟨hla, hai, Nat.le_refl _⟩)
  | positionCapture _ ih => exact ih hlo hi (hr.update _ ⟨hlo, Nat.le_refl _⟩)
  | balanced hs _ ih =>
    obtain ⟨_, hlt, hle, _⟩ := hs.1
    have hie := Nat.le_of_lt (Nat.lt_of_succ_lt hlt)
    obtain ⟨hij, hj, hr'⟩ := ih (Nat.le_trans hlo hie) hle (hr.mono hie)
    exact ⟨Nat.le_trans hie hij, hj, hr'⟩
  | @backReference _ a b _ _ i _ _ _ hk hc _ ih =>
    obtain ⟨_, _, hbi⟩ := hr _ _ hk
    have hle := Nat.le_add_right i (b - a)
    have hsize := hc.le_size (Nat.le_trans hbi hi) hi
    obtain ⟨hij, hj, hr'⟩ := ih (Nat.le_trans hlo hle) hsize (hr.mono hle)
    exact ⟨Nat.le_trans hle hij, hj, hr'⟩
  | frontier _ _ _ ih => exact ih hlo hi hr
  | subjectEnd _ ih => exact ih hlo hi hr

structure Match.Inside (s : Subject) (m : Match) : Prop where
  start_le_stop : m.start ≤ m.stop
  stop_le_size : m.stop ≤ s.size
  captures : ∀ c ∈ m.captures, c.Inside m.start m.stop

theorem Capture.value_eq_ok {s : Subject} {c : Capture} {lo hi : Nat} (h : c.Inside lo hi)
    (hs : hi ≤ s.size) : ∃ v, c.value s = .ok v := by
  cases c with
  | substring a b =>
    have hslice := Subject.slice?_eq_some h.2.1 (Nat.le_trans h.2.2 hs)
    exact ⟨_, bind_eq_ok.2 ⟨_, inRange_eq_ok.2 hslice, rfl⟩⟩
  | position a => exact ⟨_, rfl⟩

namespace Match.Inside

variable {s : Subject} {m : Match}

theorem text_eq_ok (h : m.Inside s) : m.text s = .ok (s.extract m.start m.stop).toList :=
  inRange_eq_ok.2 (Subject.slice?_eq_some h.start_le_stop h.stop_le_size)

theorem value_eq_ok (h : m.Inside s) {c : Capture} (hc : c ∈ m.captures) : ∃ v, c.value s = .ok v :=
  Capture.value_eq_ok (h.captures c hc) h.stop_le_size

theorem captureValues_eq_ok (h : m.Inside s) : ∃ vs, m.captureValues s = .ok vs := by
  unfold captureValues
  have hall := fun c hc => h.value_eq_ok (c := c) hc
  generalize m.captures = cs at hall
  induction cs with
  | nil => exact ⟨[], rfl⟩
  | cons c cs ih =>
    obtain ⟨v, hv⟩ := hall c (.head _)
    obtain ⟨vs, hvs⟩ := ih fun c hc => hall c (.tail _ hc)
    exact ⟨v :: vs, by rw [List.mapM_cons, hv, hvs]; rfl⟩

theorem values_eq_ok (h : m.Inside s) :
    ∃ v vs, m.values s = .ok (v :: vs) ∧ m.firstValue s = .ok v := by
  have hvalues := h.captureValues_eq_ok
  unfold values firstValue
  cases hc : m.captures with
  | nil =>
    refine ⟨.text (s.extract m.start m.stop).toList, [], ?_, ?_⟩
    · rw [if_pos rfl, h.text_eq_ok]
      rfl
    · simp only
      rw [h.text_eq_ok]
      rfl
  | cons c cs =>
    obtain ⟨vs, hvs⟩ := hvalues
    have hvs' := hvs
    rw [captureValues, hc, List.mapM_cons] at hvs'
    obtain ⟨v, hv, hrest⟩ := bind_eq_ok.1 hvs'
    obtain ⟨ws, _, hws⟩ := bind_eq_ok.1 hrest
    cases hws
    exact ⟨v, ws, (if_neg (List.cons_ne_nil _ _)).trans hvs, hv⟩

end Match.Inside

namespace Matcher

theorem naive_some {x : Matcher} {init : Nat} {found : Match} (h : x.Naive init (some found)) :
    init ≤ found.start ∧ found.start ≤ x.subject.size ∧
      (x.attempt .fresh found.start).1 = .ok (some found) ∧
      (x.pattern.anchored = false → ∀ k, init ≤ k → k < found.start →
        (x.attempt .fresh k).1 = .ok none) := by
  unfold Naive at h
  split at h
  · cases h
  · rename_i hinit
    split at h
    · rename_i hanchor
      obtain rfl : found.start = init := start_eq_of_attempt (Prod.ext h rfl)
      refine ⟨Nat.le_refl _, Nat.le_of_not_lt hinit, h, fun hno => ?_⟩
      rw [hanchor] at hno
      cases hno
    · obtain ⟨i, hi, hsize, hfound, hbefore⟩ := h
      obtain rfl : found.start = i := start_eq_of_attempt (Prod.ext hfound rfl)
      exact ⟨hi, hsize, hfound, fun _ => hbefore⟩

theorem naive_none {x : Matcher} {init : Nat} (h : x.Naive init none) {k : Nat} (hk : init ≤ k)
    (hsize : k ≤ x.subject.size) (ha : x.pattern.anchored = true → k = init) :
    (x.attempt .fresh k).1 = .ok none := by
  unfold Naive at h
  rw [if_neg (Nat.not_lt_of_le (Nat.le_trans hk hsize))] at h
  split at h
  · rename_i hanchor
    rwa [ha hanchor]
  · exact h k hk hsize

section Compiled

variable {o : Options} {source : Bytes} {p : Pattern} (hp : Pattern.compile o source = .ok p)
  (s : Subject)

include hp

theorem naive_of_find {init : Nat} {result : Option Match}
    (h : find ⟨p, s, none⟩ init = .ok result) : Naive ⟨p, s, none⟩ init result := by
  obtain ⟨result', hr, hnaive⟩ := exists_naive hp s (m := .fresh) rfl init
  cases h.symm.trans hr
  exact hnaive

theorem attempt_inside {i : Nat} (hi : i ≤ s.size) {m : Memory} (hm : m.slots.length = captureLimit)
    {found : Match} (h : (attempt ⟨p, s, none⟩ m i).1 = .ok (some found)) : found.Inside s := by
  rcases attempt_cases hp s hi hm with ⟨hn, _⟩ | ⟨counts, stop, captures, hf, hpref⟩
  · rw [hn] at h
    cases h
  · rw [hf] at h
    cases h
    obtain ⟨hle, hsize, hin⟩ := hpref.1.inside (Nat.le_refl i) hi (Record.inside_empty i i)
    refine ⟨hle, hsize, fun c hc => ?_⟩
    obtain ⟨k, hk⟩ := List.mem_iff_getElem?.1 hc
    exact hin k (.holds c) (by rw [Record.ofCaptures, hk]; rfl)

theorem findAt_finds (limit : Option Nat) {m : Memory} (hm : m.slots.length = captureLimit)
    (init : Nat) :
    (∃ result, (findAt ⟨p, s, limit⟩ m init).1 = .ok result ∧ Naive ⟨p, s, none⟩ init result) ∨
      ∃ l, limit = some l ∧ (findAt ⟨p, s, limit⟩ m init).1 = .error (.budgetExceeded l) := by
  have hfull := exists_naive hp s hm init
  cases limit with
  | none => exact .inl hfull
  | some l =>
    by_cases hinit : s.size < init
    · refine .inl ⟨none, ?_, ?_⟩
      · simp only [findAt, if_pos hinit]
      · unfold Naive
        rw [if_pos hinit]
    · have hcut : Cut l (findAt ⟨p, s, none⟩ m init) (findAt ⟨p, s, some l⟩ m init) :=
        findAt_cut ⟨p, s, none⟩ m fun h => absurd h hinit
      by_cases hle : (findAt ⟨p, s, none⟩ m init).2.steps ≤ l
      · have heq : findAt ⟨p, s, some l⟩ m init = findAt ⟨p, s, none⟩ m init := hcut.within hle
        rw [heq]
        exact .inl hfull
      · exact .inr ⟨l, rfl, (hcut.beyond (Nat.lt_of_not_le hle)).1⟩

theorem findAt_inside {limit : Option Nat} {m : Memory} (hm : m.slots.length = captureLimit)
    {init : Nat} {found : Match} (h : (findAt ⟨p, s, limit⟩ m init).1 = .ok (some found)) :
    found.Inside s := by
  rcases findAt_finds hp s limit hm init with ⟨result, hr, hnaive⟩ | ⟨l, _, he⟩
  · rw [h] at hr
    cases hr
    obtain ⟨_, hsize, hfound, _⟩ := naive_some hnaive
    exact attempt_inside hp s hsize rfl hfound
  · rw [h] at he
    cases he

end Compiled

end Matcher
end BytePattern
