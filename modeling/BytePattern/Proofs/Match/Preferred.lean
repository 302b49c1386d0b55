import Mathlib
import BytePattern.Proofs.Match.Simulation
import BytePattern.Proofs.Match.Walk
import BytePattern.Proofs.Pattern.Ledger

/-!
# The first way is the preferred walk

For items that run a ledger of captures, the slots along a way hold what the walk has captured (`Agrees`):
a capture is closed only where it is open and copied only where it is closed, so no stale slot is ever
read. Going through the ways in their order then finds the preferred walk, or none where none exists
(`first_finds`, by induction on the run of the ledger).
-/
namespace BytePattern

def Taken.state : Taken → CaptureState
  | .opened _ => .opened
  | .holds (.substring ..) => .closed
  | .holds (.position _) => .position

theorem Taken.eq_opened {t : Taken} (h : t.state = .opened) : ∃ a, t = .opened a := by
  cases t with
  | opened a => exact ⟨a, rfl⟩
  | holds c => cases c <;> cases h

theorem Taken.eq_substring {t : Taken} (h : t.state = .closed) :
    ∃ a b, t = .holds (.substring a b) := by
  cases t with
  | opened a => cases h
  | holds c =>
    cases c with
    | substring a b => exact ⟨a, b, rfl⟩
    | position a => cases h

def Taken.At (s : Subject) (i : Nat) : Taken → Slot → Prop
  | .opened a, slot => slot.start = a ∧ a ≤ i
  | .holds (.substring a b), slot => slot = ⟨a, .length (b - a)⟩ ∧ a ≤ b ∧ b ≤ s.size
  | .holds (.position a), slot => slot = ⟨a, .position⟩

structure Agrees (s : Subject) (i : Nat) (cs : List CaptureState) (r : Record) (slots : List Slot) :
    Prop where
  state_eq : ∀ k, (r k).map Taken.state = cs[k]?
  slot_at : ∀ k t, r k = some t → ∃ slot, slots[k]? = some slot ∧ t.At s i slot

namespace Agrees

variable {s : Subject} {i j : Nat} {cs : List CaptureState} {r : Record} {slots : List Slot}

theorem empty (s : Subject) (i : Nat) (slots : List Slot) : Agrees s i [] .empty slots :=
  ⟨fun _ => rfl, fun _ _ h => by cases h⟩

theorem mono (h : Agrees s i cs r slots) (hij : i ≤ j) : Agrees s j cs r slots := by
  refine ⟨h.state_eq, fun k t hk => ?_⟩
  obtain ⟨slot, hslot, hat⟩ := h.slot_at k t hk
  refine ⟨slot, hslot, ?_⟩
  cases t with
  | opened a => exact ⟨hat.1, Nat.le_trans hat.2 hij⟩
  | holds c => cases c <;> exact hat

theorem eq_some (h : Agrees s i cs r slots) {k : Nat} {c : CaptureState} (hk : cs[k]? = some c) :
    ∃ t slot, r k = some t ∧ t.state = c ∧ slots[k]? = some slot ∧ t.At s i slot := by
  rw [← h.state_eq k, Option.map_eq_some_iff] at hk
  obtain ⟨t, ht, hc⟩ := hk
  obtain ⟨slot, hslot, hat⟩ := h.slot_at k t ht
  exact ⟨t, slot, ht, hc, hslot, hat⟩

theorem write (h : Agrees s i cs r slots) {k : Nat} {t : Taken} {slot : Slot} {cs' : List CaptureState}
    (hk : k < slots.length) (ht : t.At s i slot) (hself : cs'[k]? = some t.state)
    (hother : ∀ l, l ≠ k → cs'[l]? = cs[l]?) :
    Agrees s i cs' (Function.update r k (some t)) (slots.set k slot) := by
  refine ⟨fun l => ?_, fun l u hu => ?_⟩
  · by_cases hl : l = k
    · subst hl
      rw [Function.update_self, hself]
      rfl
    · rw [Function.update_of_ne hl, hother l hl, h.state_eq]
  · by_cases hl : l = k
    · subst hl
      rw [Function.update_self] at hu
      cases hu
      exact ⟨slot, List.getElem?_set_self hk, ht⟩
    · rw [Function.update_of_ne hl] at hu
      rw [List.getElem?_set_ne (Ne.symm hl)]
      exact h.slot_at l u hu

theorem append (h : Agrees s i cs r slots) (t : Taken) (slot : Slot) (hk : cs.length < slots.length)
    (ht : t.At s i slot) :
    Agrees s i (cs ++ [t.state]) (Function.update r cs.length (some t))
      (slots.set cs.length slot) := by
  refine h.write hk ht List.getElem?_concat_length fun l hl => ?_
  rcases Nat.lt_or_gt_of_ne hl with hlt | hgt
  · rw [List.getElem?_append_left hlt]
  · rw [List.getElem?_eq_none (by simp; omega), List.getElem?_eq_none (by omega)]

end Agrees

theorem shorter_eq (base n : Nat) :
    shorter base n = ((List.range (n + 1)).reverse).map (base + ·) := by
  induction n with
  | zero => rfl
  | succ n ih =>
    rw [shorter, ih, List.range_succ (n := n + 1), List.reverse_append]
    rfl

theorem acceptsAt_iff {x : Matcher} {t : Token} {i : Nat} :
    x.acceptsAt t i = true ↔ x.subject.Accepts t i 1 := by
  rw [Subject.accepts_one, Matcher.acceptsAt, Option.any_eq_true]

theorem longer_eq (x : Matcher) (t : Token) (i : Nat) :
    x.longer t i = (List.range (x.subject.runEnd t i - i)).map (i + 1 + ·) := by
  fun_induction Matcher.longer x t i with
  | case1 i h ih =>
    have hsucc (n : Nat) : n + 1 ≤ x.subject.runEnd t i - i ↔
        n ≤ x.subject.runEnd t (i + 1) - (i + 1) := by
      rw [← Subject.accepts_iff_le_runEnd, ← Subject.accepts_iff_le_runEnd, Subject.accepts_succ]
      exact and_iff_right (Subject.accepts_one.1 (acceptsAt_iff.1 h))
    have hrun : x.subject.runEnd t i - i = x.subject.runEnd t (i + 1) - (i + 1) + 1 := by
      have hle := (hsucc _).2 (Nat.le_refl _)
      have hge := (hsucc (x.subject.runEnd t i - i - 1)).1 (by omega)
      omega
    rw [ih, hrun, List.range_succ_eq_map, List.map_cons, List.map_map]
    refine congrArg _ (List.map_congr_left fun n _ => ?_)
    simp only [Function.comp]
    omega
  | case2 i h =>
    have hrun : x.subject.runEnd t i - i = 0 := by
      by_contra hne
      exact h (acceptsAt_iff.2 ((Subject.accepts_iff_le_runEnd ..).2 (by omega)))
    rw [hrun]
    rfl

theorem stops_eq (x : Matcher) (t : Token) (i : Nat) (q : Quantifier) :
    ∃ ns : List Nat, x.stops t i q = ns.map (i + ·) ∧ ns.Pairwise q.Prefers ∧
      ∀ n, n ∈ ns ↔ q.Allows n ∧ x.subject.Accepts t i n := by
  have hacc (n : Nat) := x.subject.accepts_iff_le_runEnd t i n
  have hone : x.acceptsAt t i = true ↔ 1 ≤ x.subject.runEnd t i - i := acceptsAt_iff.trans (hacc 1)
  generalize hrun : x.subject.runEnd t i - i = run at hacc hone
  cases q with
  | one =>
    by_cases h : x.acceptsAt t i
    · refine ⟨[1], if_pos h, List.pairwise_singleton .., fun n => ?_⟩
      rw [List.mem_singleton, Quantifier.Allows, hacc]
      have := hone.1 h
      omega
    · refine ⟨[], if_neg h, List.Pairwise.nil, fun n => ?_⟩
      rw [Quantifier.Allows, hacc]
      have := mt hone.2 h
      simp only [List.not_mem_nil, false_iff]
      omega
  | zeroOrMore =>
    refine ⟨_, by rw [Matcher.stops, shorter_eq], List.pairwise_reverse.2 List.pairwise_lt_range,
      fun n => ?_⟩
    rw [List.mem_reverse, List.mem_range, Nat.lt_succ_iff, hrun, hacc, Quantifier.Allows, true_and]
  | oneOrMore =>
    cases run with
    | zero =>
      refine ⟨[], by simp only [Matcher.stops, hrun, List.map_nil], List.Pairwise.nil, fun n => ?_⟩
      rw [Quantifier.Allows, hacc]
      simp only [List.not_mem_nil, false_iff]
      omega
    | succ run =>
      refine ⟨(List.range (run + 1)).reverse.map (1 + ·), ?_, ?_, fun n => ?_⟩
      · simp only [Matcher.stops, hrun, shorter_eq, List.map_map]
        refine List.map_congr_left fun n _ => ?_
        simp only [Function.comp, Nat.add_assoc]
      · refine List.pairwise_map.2 (List.pairwise_reverse.2 ?_)
        exact List.pairwise_lt_range.imp fun h => Nat.add_lt_add_left h 1
      · rw [Quantifier.Allows, hacc]
        simp only [List.mem_map, List.mem_reverse, List.mem_range]
        constructor
        · intro h
          obtain ⟨m, hm, rfl⟩ := h
          omega
        · intro h
          exact ⟨n - 1, by omega, by omega⟩
  | lazy =>
    refine ⟨List.range (run + 1), ?_, List.pairwise_lt_range, fun n => ?_⟩
    · rw [Matcher.stops, longer_eq, hrun, List.range_succ_eq_map, List.map_cons, List.map_map]
      refine congrArg _ (List.map_congr_left fun n _ => ?_)
      simp only [Function.comp]
      omega
    · rw [List.mem_range, Nat.lt_succ_iff, hacc, Quantifier.Allows, true_and]
  | zeroOrOne =>
    by_cases h : x.acceptsAt t i
    · refine ⟨[1, 0], if_pos h, ?_, fun n => ?_⟩
      · exact List.pairwise_pair.2 Nat.zero_lt_one
      · rw [Quantifier.Allows, hacc]
        have := hone.1 h
        simp only [List.mem_cons, List.not_mem_nil, or_false]
        omega
    · refine ⟨[0], if_neg h, List.pairwise_singleton .., fun n => ?_⟩
      rw [Quantifier.Allows, hacc, List.mem_singleton]
      have := mt hone.2 h
      omega

theorem Subject.Accepts.le_size {s : Subject} {t : Token} {i n : Nat} (h : s.Accepts t i n)
    (hi : i ≤ s.size) : i + n ≤ s.size := by
  cases n with
  | zero => exact hi
  | succ n =>
    obtain ⟨b, hb, _⟩ := h n (Nat.lt_succ_self n)
    have := (Array.getElem?_eq_some_iff.1 hb).1
    omega

theorem Subject.CopyAt.le_size {s : Subject} {a b i : Nat} (h : s.CopyAt a b i) (hb : b ≤ s.size)
    (hi : i ≤ s.size) : i + (b - a) ≤ s.size := by
  by_cases hab : b ≤ a
  · omega
  · have hlast := h (b - a - 1) (by omega)
    rw [Array.getElem?_eq_getElem (show a + (b - a - 1) < s.size by omega)] at hlast
    have := (Array.getElem?_eq_some_iff.1 hlast).1
    omega

theorem Subject.before?_eq {s : Subject} {i : Nat} (hi : i ≤ s.size) :
    s.before? i = some (s.byteBefore i) := by
  rw [Subject.before?, Subject.byteBefore, Subject.byteAt]
  split
  · rfl
  · rw [Array.getElem?_eq_getElem (show i - 1 < s.size by omega)]
    rfl

theorem captured_eq {x : Matcher} {slots : List Slot} {k a b : Nat}
    (hk : slots[k]? = some ⟨a, .length (b - a)⟩) (hab : a ≤ b) (hb : b ≤ x.subject.size) :
    x.captured ⟨slots, [], [], 0⟩ k = .ok (x.subject.extract a b).toList := by
  refine bind_eq_ok.2 ⟨_, inRange_eq_ok.2 hk, inRange_eq_ok.2 ?_⟩
  rw [Nat.add_sub_cancel' hab]
  exact Subject.slice?_eq_some hab hb

/-- What the first way through the items has to be, over slots that hold the record `r`. -/
def Finds (s : Subject) (items : List Item) (i : Nat) (r : Record) (cs : List CaptureState) :
    Option Outcome → Prop
  | none => ∀ counts j r', ¬ Walk s items counts i r j r'
  | some (.ok (j, slots)) => j ≤ s.size ∧ ∃ counts r', Preferred s items counts i r j r' ∧
      Agrees s j cs r' slots
  | some (.error _) => False

section Items

variable {x : Matcher} {item : Item} {rest : List Item} {slots slots' : List Slot} {i i' : Nat}
  {r r₁ : Record} {cs : List CaptureState}

theorem finds_of_way (hway : x.ways slots i item = .ok [(slots', i')])
    (hq : quantifiers (item :: rest) = quantifiers rest)
    (hwalk : ∀ counts j r', Walk x.subject (item :: rest) counts i r j r' ↔
      Walk x.subject rest counts i' r₁ j r')
    (h : Finds x.subject rest i' r₁ cs (x.first rest slots' i')) :
    Finds x.subject (item :: rest) i r cs (x.first (item :: rest) slots i) := by
  rw [Matcher.first_of_ways_singleton hway]
  generalize x.first rest slots' i' = o at h
  cases o with
  | none =>
    intro counts j r' hw
    exact h counts j r' ((hwalk counts j r').1 hw)
  | some out =>
    cases out with
    | error e => exact h
    | ok last =>
      obtain ⟨hj, counts, r', ⟨hw, hfirst⟩, hag⟩ := h
      refine ⟨hj, counts, r', ⟨(hwalk ..).2 hw, fun counts' j' r'' hw' => ?_⟩, hag⟩
      rw [hq]
      exact hfirst counts' j' r'' ((hwalk ..).1 hw')

theorem finds_of_no_way (hway : x.ways slots i item = .ok [])
    (hwalk : ∀ counts j r', ¬ Walk x.subject (item :: rest) counts i r j r') :
    Finds x.subject (item :: rest) i r cs (x.first (item :: rest) slots i) := by
  rw [Matcher.first_of_ways_nil hway]
  exact hwalk

theorem finds_single {t : Token} {q : Quantifier}
    (h : ∀ n, x.subject.Accepts t i n →
      Finds x.subject rest (i + n) r cs (x.first rest slots (i + n))) :
    Finds x.subject (.single t q :: rest) i r cs (x.first (.single t q :: rest) slots i) := by
  -- the counts of a repeated token are tried in the order of preference: the walks with an earlier
  -- count are refuted, those with a later one come behind
  obtain ⟨ns, hns, hpref, hmem⟩ := stops_eq x t i q
  have hfirst : x.first (.single t q :: rest) slots i =
      ns.findSome? fun n => x.first rest slots (i + n) := by
    simp only [Matcher.first, Matcher.ways, hns, List.findSome?_map]
    rfl
  rw [hfirst]
  cases hf : ns.findSome? fun n => x.first rest slots (i + n) with
  | none =>
    intro counts j r' hw
    cases hw with
    | @single _ _ n _ counts _ _ _ _ hal hac hw =>
      have hn := h n hac
      rw [List.findSome?_eq_none_iff.1 hf n ((hmem n).2 ⟨hal, hac⟩)] at hn
      exact hn counts j r' hw
  | some o =>
    obtain ⟨before, n, after, rfl, hn, hnone⟩ := List.findSome?_eq_some_iff.1 hf
    obtain ⟨hal, hac⟩ := (hmem n).1 (by simp)
    have hfound := h n hac
    rw [hn] at hfound
    cases o with
    | error e => exact hfound
    | ok out =>
      obtain ⟨hj, counts, r', ⟨hw, hrest⟩, hag⟩ := hfound
      refine ⟨hj, n :: counts, r', ⟨.single hal hac hw, fun counts' j' r'' hw' => ?_⟩, hag⟩
      cases hw' with
      | @single _ _ n' _ counts' _ _ _ _ hal' hac' hw' =>
        have hn' := (hmem n').2 ⟨hal', hac'⟩
        rw [List.mem_append, List.mem_cons] at hn'
        rcases hn' with hbefore | rfl | hafter
        · have hno := h n' hac'
          rw [hnone n' hbefore] at hno
          exact absurd hw' (hno counts' j' r'')
        · rcases hrest counts' j' r'' hw' with rfl | hp
          · exact .inl rfl
          · exact .inr (.later hp)
        · have hpairs := (List.pairwise_append.1 hpref).2.1
          exact .inr (.here (List.rel_of_pairwise_cons hpairs hafter))

theorem finds_openCapture {k : Nat} (hk : k < slots.length)
    (h : Finds x.subject rest i (Function.update r k (some (.opened i))) cs
      (x.first rest (slots.set k ⟨i, .unfinished⟩) i)) :
    Finds x.subject (.openCapture k :: rest) i r cs (x.first (.openCapture k :: rest) slots i) := by
  refine finds_of_way (if_pos hk) rfl (fun counts j r' => ⟨fun hw => ?_, .openCapture⟩) h
  cases hw with
  | openCapture hw => exact hw

theorem finds_closeCapture {k : Nat} {old : Slot} (hold : slots[k]? = some old)
    (hr : r k = some (.opened old.start)) (hle : old.start ≤ i)
    (h : Finds x.subject rest i (Function.update r k (some (.holds (.substring old.start i)))) cs
      (x.first rest (slots.set k ⟨old.start, .length (i - old.start)⟩) i)) :
    Finds x.subject (.closeCapture k :: rest) i r cs
      (x.first (.closeCapture k :: rest) slots i) := by
  refine finds_of_way ?_ rfl (fun counts j r' => ⟨fun hw => ?_, .closeCapture hr⟩) h
  · simp only [Matcher.ways, hold, if_neg (Nat.not_lt_of_le hle)]
  · cases hw with
    | closeCapture ha hw =>
      cases hr.symm.trans ha
      exact hw

theorem finds_positionCapture {k : Nat} (hk : k < slots.length)
    (h : Finds x.subject rest i (Function.update r k (some (.holds (.position i)))) cs
      (x.first rest (slots.set k ⟨i, .position⟩) i)) :
    Finds x.subject (.positionCapture k :: rest) i r cs
      (x.first (.positionCapture k :: rest) slots i) := by
  refine finds_of_way (if_pos hk) rfl (fun counts j r' => ⟨fun hw => ?_, .positionCapture⟩) h
  cases hw with
  | positionCapture hw => exact hw

theorem finds_balanced {opener closer : UInt8}
    (h : ∀ e, x.subject.ShortestSpan opener closer i e →
      Finds x.subject rest e r cs (x.first rest slots e)) :
    Finds x.subject (.balanced opener closer :: rest) i r cs
      (x.first (.balanced opener closer :: rest) slots i) := by
  cases he : x.subject.balancedEnd opener closer i with
  | none =>
    refine finds_of_no_way (by simp only [Matcher.ways, he, Option.toList_none, List.map_nil])
      fun counts j r' hw => ?_
    cases hw with
    | balanced hs _ => cases he.symm.trans (Subject.balancedEnd_eq_some_iff.2 hs)
  | some e =>
    have hs := Subject.balancedEnd_eq_some_iff.1 he
    have hway : x.ways slots i (.balanced opener closer) = .ok [(slots, e)] := by
      simp only [Matcher.ways, he, Option.toList_some, List.map_cons, List.map_nil]
    refine finds_of_way hway rfl (fun counts j r' => ⟨fun hw => ?_, .balanced hs⟩) (h e hs)
    cases hw with
    | balanced hs' hw => exact hs.unique hs' ▸ hw

theorem finds_backReference {k a b : Nat} (hi : i ≤ x.subject.size)
    (hr : r k = some (.holds (.substring a b))) (hk : slots[k]? = some ⟨a, .length (b - a)⟩)
    (hab : a ≤ b) (hb : b ≤ x.subject.size)
    (h : x.subject.CopyAt a b i →
      Finds x.subject rest (i + (b - a)) r cs (x.first rest slots (i + (b - a)))) :
    Finds x.subject (.backReference k :: rest) i r cs
      (x.first (.backReference k :: rest) slots i) := by
  have htext : x.captured ⟨slots, [], [], 0⟩ k = .ok (x.subject.extract a b).toList :=
    captured_eq hk hab hb
  have hspan : (x.subject.extract a b).toList.length = b - a := by
    rw [Array.length_toList, Array.size_extract, Nat.min_eq_left hb]
  have hcopy := Subject.hasAt_extract (i := i) (a := a) hb
  by_cases hc : x.subject.CopyAt a b i
  · refine finds_of_way ?_ rfl (fun counts j r' => ⟨fun hw => ?_, .backReference hr hc⟩) (h hc)
    · simp only [Matcher.ways, htext, if_neg (Nat.not_lt_of_le hi), if_pos (hcopy.2 hc), hspan]
    · cases hw with
      | backReference hr' _ hw =>
        cases hr.symm.trans hr'
        exact hw
  · refine finds_of_no_way ?_ fun counts j r' hw => ?_
    · simp only [Matcher.ways, htext, if_neg (Nat.not_lt_of_le hi), if_neg (mt hcopy.1 hc)]
    · cases hw with
      | backReference hr' hc' _ =>
        cases hr.symm.trans hr'
        exact hc hc'

theorem finds_frontier {set : ByteSet} (hi : i ≤ x.subject.size)
    (h : Finds x.subject rest i r cs (x.first rest slots i)) :
    Finds x.subject (.frontier set :: rest) i r cs (x.first (.frontier set :: rest) slots i) := by
  have hbefore := Subject.before?_eq hi
  by_cases hset : set.contains (x.subject.byteBefore i) = false ∧
      set.contains (x.subject.byteAt i) = true
  · refine finds_of_way ?_ rfl (fun counts j r' => ⟨fun hw => ?_, .frontier hset.1 hset.2⟩) h
    · simp only [Matcher.ways, hbefore]
      exact congrArg _ (if_pos hset)
    · cases hw with
      | frontier _ _ hw => exact hw
  · refine finds_of_no_way ?_ fun counts j r' hw => ?_
    · simp only [Matcher.ways, hbefore]
      exact congrArg _ (if_neg hset)
    · cases hw with
      | frontier hb ha _ => exact hset ⟨hb, ha⟩

theorem finds_subjectEnd (h : Finds x.subject rest i r cs (x.first rest slots i)) :
    Finds x.subject (.subjectEnd :: rest) i r cs (x.first (.subjectEnd :: rest) slots i) := by
  by_cases hsize : i = x.subject.size
  · subst hsize
    refine finds_of_way (by simp only [Matcher.ways, if_true]) rfl
      (fun counts j r' => ⟨fun hw => ?_, .subjectEnd⟩) h
    cases hw with
    | subjectEnd hw => exact hw
  · refine finds_of_no_way (by simp only [Matcher.ways, if_neg hsize]) fun counts j r' hw => ?_
    cases hw with
    | subjectEnd _ => exact hsize rfl

end Items

theorem first_finds (x : Matcher) {l l' : Ledger} {items : List Item} (hrun : Ledger.Run l items l')
    {i : Nat} {r : Record} {slots : List Slot} (hlen : l'.captures.length ≤ slots.length)
    (hi : i ≤ x.subject.size) (hag : Agrees x.subject i l.captures r slots) :
    Finds x.subject items i r l'.captures (x.first items slots i) := by
  -- the slots differ from way to way: what every way keeps is that they agree with its record
  induction hrun generalizing i r slots with
  | nil =>
    refine ⟨hi, [], r, ⟨.nil, fun counts' j' r' hw => ?_⟩, hag⟩
    cases hw
    exact .inl rfl
  | @cons _ _ _ item rest hstep hrest ih =>
    have hcount := Nat.le_trans hrest.length_le hlen
    cases hstep with
    | single =>
      exact finds_single fun n hac => ih hlen (hac.le_size hi) (hag.mono (Nat.le_add_right i n))
    | openCapture =>
      rw [List.length_append] at hcount
      have hag' := hag.append (.opened i) ⟨i, .unfinished⟩ hcount ⟨rfl, Nat.le_refl i⟩
      exact finds_openCapture hcount (ih (by rwa [List.length_set]) hi hag')
    | @closeCapture cs st k hk =>
      obtain ⟨t, old, ht, hstate, hold, hat⟩ := hag.eq_some hk
      obtain ⟨a, rfl⟩ := Taken.eq_opened hstate
      obtain ⟨rfl, hle⟩ := hat
      have hslot := (List.getElem?_eq_some_iff.1 hold).1
      have hcapture := (List.getElem?_eq_some_iff.1 hk).1
      have hag' : Agrees x.subject i (cs.set k .closed)
          (Function.update r k (some (.holds (.substring old.start i))))
          (slots.set k ⟨old.start, .length (i - old.start)⟩) :=
        hag.write hslot ⟨rfl, hle, hi⟩ (List.getElem?_set_self hcapture) fun l hl =>
          List.getElem?_set_ne (Ne.symm hl)
      exact finds_closeCapture hold ht hle (ih (by rwa [List.length_set]) hi hag')
    | positionCapture =>
      rw [List.length_append] at hcount
      have hag' := hag.append (.holds (.position i)) ⟨i, .position⟩ hcount rfl
      exact finds_positionCapture hcount (ih (by rwa [List.length_set]) hi hag')
    | balanced =>
      refine finds_balanced fun e hs => ?_
      obtain ⟨_, hlt, hle, _⟩ := hs.1
      exact ih hlen hle (hag.mono (by omega))
    | backReference _ hclosed =>
      obtain ⟨t, slot, ht, hstate, hslot, hat⟩ := hag.eq_some hclosed
      obtain ⟨a, b, rfl⟩ := Taken.eq_substring hstate
      obtain ⟨rfl, hab, hb⟩ := hat
      exact finds_backReference hi ht hslot hab hb fun hc =>
        ih hlen (hc.le_size hb hi) (hag.mono (Nat.le_add_right ..))
    | frontier => exact finds_frontier hi (ih hlen hi hag)
    | subjectEnd => exact finds_subjectEnd (ih hlen hi hag)

def Record.ofCaptures (captures : List Capture) : Record := fun k => captures[k]?.map .holds

theorem Agrees.capture?_eq {s : Subject} {j : Nat} {cs : List CaptureState} {r : Record}
    {slots : List Slot} (h : Agrees s j cs r slots) {k : Nat} {c : CaptureState}
    (hk : cs[k]? = some c) (hc : c ≠ .opened) :
    ∃ slot capture, slots[k]? = some slot ∧ slot.capture? = some capture ∧
      r k = some (.holds capture) := by
  obtain ⟨t, slot, ht, hstate, hslot, hat⟩ := h.eq_some hk
  cases t with
  | opened a => exact absurd hstate.symm hc
  | holds capture =>
    cases capture with
    | substring a b =>
      obtain ⟨rfl, hab, _⟩ := hat
      refine ⟨_, _, hslot, ?_, ht⟩
      simp only [Slot.capture?, Nat.add_sub_cancel' hab]
    | position a =>
      cases hat
      exact ⟨_, _, hslot, rfl, ht⟩

theorem mapM_capture? {slots : List Slot} {captures : List Capture}
    (h : slots.map Slot.capture? = captures.map some) :
    slots.mapM (fun slot => inRange slot.capture?) = .ok captures := by
  induction slots generalizing captures with
  | nil =>
    cases captures with
    | nil => rfl
    | cons => cases h
  | cons slot slots ih =>
    cases captures with
    | nil => cases h
    | cons c captures =>
      rw [List.map_cons, List.map_cons, List.cons.injEq] at h
      rw [List.mapM_cons, h.1, ih h.2]
      rfl

theorem captures_of_agrees {s : Subject} {j : Nat} {cs : List CaptureState} {r : Record} {m : Memory}
    (h : Agrees s j cs r m.slots) (hcs : ∀ k : Nat, cs[k]? ≠ some .opened)
    (hlen : cs.length ≤ m.slots.length) :
    ∃ captures, m.captures cs.length = .ok captures ∧ r = .ofCaptures captures := by
  have hslot {k : Nat} (hk : k < cs.length) := h.capture?_eq (List.getElem?_eq_getElem hk)
    fun he => hcs k (List.getElem?_eq_some_iff.2 ⟨hk, he⟩)
  have hsome : ∀ o ∈ (m.slots.take cs.length).map Slot.capture?, o.isSome = true := by
    intro o ho
    obtain ⟨k, hk⟩ := List.mem_iff_getElem?.1 ho
    rw [List.getElem?_map, Option.map_eq_some_iff] at hk
    obtain ⟨slot, hk, rfl⟩ := hk
    rw [List.getElem?_take] at hk
    split at hk
    · obtain ⟨_, capture, hs, hc, _⟩ := hslot ‹_›
      cases hs.symm.trans hk
      rw [hc]
      rfl
    · cases hk
  have hmap : ((m.slots.take cs.length).filterMap Slot.capture?).map some =
      (m.slots.take cs.length).map Slot.capture? := by
    rw [List.map_filterMap_some_eq_filter_map_isSome, List.filter_eq_self.2 hsome]
  refine ⟨_, (if_pos hlen).trans (mapM_capture? hmap.symm), funext fun k => ?_⟩
  have hk := congrArg (·[k]?) hmap
  simp only [List.getElem?_map] at hk
  rw [Record.ofCaptures]
  by_cases hlt : k < cs.length
  · obtain ⟨slot, capture, hs, hc, hr⟩ := hslot hlt
    rw [List.getElem?_take_of_lt hlt, hs, Option.map_some, hc, Option.map_eq_some_iff] at hk
    obtain ⟨c, hk, hc⟩ := hk
    cases hc
    rw [hk, hr]
    rfl
  · have hr := h.state_eq k
    rw [List.getElem?_eq_none (by omega), Option.map_eq_none_iff] at hr
    rw [List.getElem?_take_eq_none (Nat.le_of_not_lt hlt), Option.map_none,
      Option.map_eq_none_iff] at hk
    rw [hr, hk]
    rfl

theorem tryMatch_cases {o : Options} {source : Bytes} {p : Pattern}
    (hp : Pattern.compile o source = .ok p) (s : Subject) {start : Nat} (hstart : start ≤ s.size)
    {m : Memory} (hm : m.slots.length = captureLimit) :
    (∃ m', Matcher.tryMatch ⟨p, s, none⟩ m start = (.ok none, m') ∧
      ∀ counts stop r, ¬ Walk s p.items counts start .empty stop r) ∨
    ∃ m' stop counts captures, Matcher.tryMatch ⟨p, s, none⟩ m start = (.ok (some stop), m') ∧
      m'.captures p.captureCount = .ok captures ∧ stop ≤ s.size ∧
      Preferred s p.items counts start .empty stop (.ofCaptures captures) := by
  obtain ⟨cs, hrun, hkinds, hceil⟩ := Pattern.run_of_compile hp
  have hcount : p.captureCount = cs.length := by rw [Pattern.captureCount, hkinds, List.length_map]
  have hlen : cs.length ≤ m.slots.length := hm ▸ Nat.le_trans hceil o.ceiling_le
  have hans := Matcher.tryMatch_answers (x := ⟨p, s, none⟩) rfl m start
  have hslots := Matcher.length_slots_tryMatch ⟨p, s, none⟩ m start
  have hfound := first_finds ⟨p, s, none⟩ hrun hlen hstart (.empty s start m.slots)
  generalize Matcher.first ⟨p, s, none⟩ p.items m.slots start = out at hans hfound
  generalize Matcher.tryMatch ⟨p, s, none⟩ m start = answer at hans hslots
  obtain ⟨result, m'⟩ := answer
  cases out with
  | none =>
    obtain rfl : result = .ok none := hans
    exact .inl ⟨m', rfl, hfound⟩
  | some out =>
    cases out with
    | error e => exact hfound.elim
    | ok last =>
      obtain ⟨stop, slots⟩ := last
      obtain ⟨rfl, rfl⟩ := hans
      obtain ⟨hstop, counts, r, hpref, hag⟩ := hfound
      have hopen (k : Nat) : cs[k]? ≠ some .opened := fun hk =>
        List.not_mem_nil (((hrun.sound Ledger.start_sound).opened_iff k).1 hk)
      obtain ⟨captures, hc, rfl⟩ := captures_of_agrees hag hopen (hslots ▸ hlen)
      exact .inr ⟨m', stop, counts, captures, rfl, hcount ▸ hc, hstop, hpref⟩

/-- An attempt of a compiled pattern without a step limit, from whatever slots, answers with `none` just
where no assignment of counts has a walk, and else with the end and the captures of the walk that comes
first. -/
theorem tryMatch_preferred {o : Options} {source : Bytes} {p : Pattern}
    (hp : Pattern.compile o source = .ok p) (s : Subject) {start : Nat} (hstart : start ≤ s.size)
    {m : Memory} (hm : m.slots.length = captureLimit) :
    ∃ result m', Matcher.tryMatch ⟨p, s, none⟩ m start = (.ok result, m') ∧
      (result = none ↔ ∀ counts stop r, ¬ Walk s p.items counts start .empty stop r) ∧
      ∀ stop, result = some stop → ∃ counts captures, m'.captures p.captureCount = .ok captures ∧
        Preferred s p.items counts start .empty stop (.ofCaptures captures) := by
  rcases tryMatch_cases hp s hstart hm with
    ⟨m', ht, hno⟩ | ⟨m', stop, counts, captures, ht, hc, _, hpref⟩
  · refine ⟨none, m', ht, iff_of_true rfl hno, ?_⟩
    intro stop h
    cases h
  · refine ⟨some stop, m', ht, ?_, ?_⟩
    · refine iff_of_false (fun h => by cases h) fun hno => ?_
      exact hno counts stop _ hpref.1
    · intro stop' h
      cases h
      exact ⟨counts, captures, hc, hpref⟩

theorem tryMatch_preferred_aab :
    ∃ p, Pattern.compile {} [40, 97, 42, 41, 97, 98] = .ok p ∧
      ∃ result m', Matcher.tryMatch ⟨p, #[97, 97, 98], none⟩ .fresh 0 = (.ok result, m') ∧
        (result = none ↔ ∀ counts stop r, ¬ Walk #[97, 97, 98] p.items counts 0 .empty stop r) ∧
        ∀ stop, result = some stop → ∃ counts captures,
          m'.captures p.captureCount = .ok captures ∧
            Preferred #[97, 97, 98] p.items counts 0 .empty stop (.ofCaptures captures) := by
  have hp : Pattern.compile {} [40, 97, 42, 41, 97, 98] =
      .ok ⟨[40, 97, 42, 41, 97, 98], [.openCapture 0, .single (.byte 97) .zeroOrMore,
        .closeCapture 0, .single (.byte 97) .one, .single (.byte 98) .one], [.substring], false⟩ := by
    cbv
  exact ⟨_, hp, tryMatch_preferred hp #[97, 97, 98] (Nat.zero_le _) rfl⟩

end BytePattern
