import BytePattern.Proofs.Match.Window
import BytePattern.Proofs.Search.Stale

/-!
# What a search sees of the subject

A search looks at the bytes from its offset on and at the one before: attempts do (`tryMatch_moved`), and
so do the leading byte and the literal, which are looked for from the offset on. Over two subjects that go
on alike, searches find the same, as far apart as they started, in the same number of steps
(`findAt_apart`). What the slots hold at first does not matter, so both searches may start from one memory,
moved to either offset.
-/
namespace BytePattern

theorem Subject.SameFrom.findFrom_eq {s t : Subject} {i j : Nat} (h : s.SameFrom t i j)
    (needle : Bytes) (d : Nat) : ∃ e : Option Nat,
    s.findFrom needle (i + d) = e.map (i + ·) ∧ t.findFrom needle (j + d) = e.map (j + ·) := by
  generalize hk : i + d = k
  fun_induction findFrom s needle k generalizing d with
  | case1 k hs =>
    subst hk
    refine ⟨some d, rfl, ?_⟩
    rw [findFrom, if_pos (h.hasAt_eq d needle ▸ hs)]
    rfl
  | case2 k hs hlt ih =>
    subst hk
    obtain ⟨e, hse, hte⟩ := ih (d + 1) rfl
    refine ⟨e, hse, ?_⟩
    rw [findFrom, if_neg (h.hasAt_eq d needle ▸ hs), if_pos ((h.lt_size_iff d).1 hlt)]
    exact hte
  | case3 k hs hlt =>
    subst hk
    refine ⟨none, rfl, ?_⟩
    rw [findFrom, if_neg (h.hasAt_eq d needle ▸ hs), if_neg (mt (h.lt_size_iff d).2 hlt)]
    rfl

inductive Capture.Apart (d : Int) : Capture → Capture → Prop
  | substring {a b a' b' : Nat} : (a' : Int) = a + d → (b' : Int) = b + d →
      Apart d (.substring a b) (.substring a' b')
  | position {a a' : Nat} : (a' : Int) = a + d → Apart d (.position a) (.position a')

structure Match.Apart (d : Int) (m m' : Match) : Prop where
  start_eq : (m'.start : Int) = m.start + d
  stop_eq : (m'.stop : Int) = m.stop + d
  captures : List.Forall₂ (Capture.Apart d) m.captures m'.captures

inductive FoundApart (d : Int) : Except Error (Option Match) → Except Error (Option Match) → Prop
  | error {e : Error} : FoundApart d (.error e) (.error e)
  | none : FoundApart d (.ok none) (.ok none)
  | found {m m' : Match} : m.Apart d m' → FoundApart d (.ok (some m)) (.ok (some m'))

theorem Capture.apart_moved (i j : Nat) (c : Capture) :
    Capture.Apart (j - i) (c.moved i) (c.moved j) := by
  cases c with
  | substring a b => exact .substring (by omega) (by omega)
  | position a => exact .position (by omega)

theorem Match.apart_moved (i j : Nat) (m : Match) : Match.Apart (j - i) (m.moved i) (m.moved j) := by
  refine ⟨?_, ?_, ?_⟩
  · simp only [Match.moved]
    omega
  · simp only [Match.moved]
    omega
  · simp only [Match.moved, List.forall₂_map_left_iff, List.forall₂_map_right_iff]
    exact List.forall₂_same.2 fun c _ => c.apart_moved i j

theorem foundApart_moved (i j : Nat) (r : Except Error (Option Match)) :
    FoundApart (j - i) (r.map (Option.map (·.moved i))) (r.map (Option.map (·.moved j))) := by
  rcases r with e | _ | m
  · exact .error
  · exact .none
  · exact .found (m.apart_moved i j)

namespace Matcher

theorem eq_none_of_movedAnswer {α : Type} {move : α → α} {k : Nat}
    {a : Except Error (Option α) × Memory} {m' : Memory} (h : movedAnswer move k a = (.ok none, m')) :
    ∃ m, a = (.ok none, m) ∧ m' = m.moved k := by
  obtain ⟨e | _ | found, m⟩ := a
  · cases h
  · cases h
    exact ⟨m, rfl, rfl⟩
  · cases h

section Window

variable (p : Pattern) (limit : Option Nat) {s t : Subject} {i j : Nat}

theorem report_moved (k d : Nat) (a : Except Error (Option Nat) × Memory) :
    report ⟨p, s, limit⟩ (k + d) (movedAnswer (k + ·) k a) =
      movedAnswer (·.moved k) k (report ⟨p, t, limit⟩ d a) := by
  obtain ⟨e | _ | stop, m⟩ := a
  · rfl
  · rfl
  · simp only [report, movedAnswer, Except.map, Option.map_some, Memory.captures_moved]
    cases m.captures p.captureCount with
    | error e => rfl
    | ok captures => rfl

variable (h : s.SameFrom t i j)
include h

theorem canStart_eq (d : Nat) :
    canStart ⟨p, s, limit⟩ (i + d) = canStart ⟨p, t, limit⟩ (j + d) := by
  simp only [canStart, h.getElem?_eq]

theorem findPlain_moved : ∃ r : Option Match,
    findPlain ⟨p, s, limit⟩ i = r.map (·.moved i) ∧ findPlain ⟨p, t, limit⟩ j = r.map (·.moved j) := by
  obtain ⟨e, hs, ht⟩ := h.findFrom_eq p.source 0
  rw [Nat.add_zero] at hs ht
  refine ⟨e.map fun d => ⟨d, d + p.source.length, []⟩, ?_, ?_⟩
  · simp only [findPlain, hs, Option.map_map, Function.comp_def, Match.moved, Nat.add_assoc,
      List.map_nil]
  · simp only [findPlain, ht, Option.map_map, Function.comp_def, Match.moved, Nat.add_assoc,
      List.map_nil]

variable (hbefore : (∃ set, .frontier set ∈ p.items) → s.byteBefore i = t.byteBefore j)
include hbefore

theorem attempt_moved (m : Memory) (d : Nat) : ∃ a : Except Error (Option Match) × Memory,
    attempt ⟨p, s, limit⟩ (m.moved i) (i + d) = movedAnswer (·.moved i) i a ∧
      attempt ⟨p, t, limit⟩ (m.moved j) (j + d) = movedAnswer (·.moved j) j a := by
  obtain ⟨a, hs, ht⟩ := tryMatch_moved p limit h hbefore m d
  refine ⟨report ⟨p, s, limit⟩ d a, ?_, ?_⟩
  · rw [attempt_eq_report, hs, report_moved]
  · rw [attempt_eq_report, ht, report_moved]

theorem attemptAt_moved (m : Memory) (d : Nat) : ∃ a : Except Error (Option Match) × Memory,
    attemptAt ⟨p, s, limit⟩ (m.moved i) (i + d) = movedAnswer (·.moved i) i a ∧
      attemptAt ⟨p, t, limit⟩ (m.moved j) (j + d) = movedAnswer (·.moved j) j a := by
  simp only [attemptAt, canStart_eq p limit h]
  split
  · exact attempt_moved p limit h hbefore m d
  · exact ⟨(.ok none, m), rfl, rfl⟩

theorem scan_moved (m : Memory) (d : Nat) : ∃ a : Except Error (Option Match) × Memory,
    scan ⟨p, s, limit⟩ (m.moved i) (i + d) = movedAnswer (·.moved i) i a ∧
      scan ⟨p, t, limit⟩ (m.moved j) (j + d) = movedAnswer (·.moved j) j a := by
  generalize hm : m.moved i = m₁
  generalize hk : i + d = k
  fun_induction scan ⟨p, s, limit⟩ m₁ k generalizing m d with
  | case1 m₁ k m' hnone hlt ih =>
    subst hm hk
    obtain ⟨a, hs, ht⟩ := attemptAt_moved p limit h hbefore m d
    obtain ⟨m'', rfl, rfl⟩ := eq_none_of_movedAnswer (hs.symm.trans hnone)
    obtain ⟨a, has, hat⟩ := ih m'' (d + 1) rfl rfl
    refine ⟨a, has, ?_⟩
    rw [scan_of_none ht, if_pos ((h.lt_size_iff d).1 hlt)]
    exact hat
  | case2 m₁ k m' hnone hlt =>
    subst hm hk
    obtain ⟨a, hs, ht⟩ := attemptAt_moved p limit h hbefore m d
    obtain ⟨m'', rfl, rfl⟩ := eq_none_of_movedAnswer (hs.symm.trans hnone)
    refine ⟨(.ok none, m''), rfl, ?_⟩
    rw [scan_of_none ht, if_neg (mt (h.lt_size_iff d).2 hlt)]
    rfl
  | case3 m₁ k hfound =>
    subst hm hk
    obtain ⟨a, hs, ht⟩ := attemptAt_moved p limit h hbefore m d
    refine ⟨a, hs, (scan_of_ne_none fun hnone => ?_).trans ht⟩
    rw [ht] at hnone
    obtain ⟨m'', rfl, _⟩ := eq_none_of_movedAnswer (Prod.ext hnone rfl)
    exact hfound _ hs

theorem findAt_moved (m : Memory) : ∃ a : Except Error (Option Match) × Memory,
    findAt ⟨p, s, limit⟩ (m.moved i) i = movedAnswer (·.moved i) i a ∧
      findAt ⟨p, t, limit⟩ (m.moved j) j = movedAnswer (·.moved j) j a := by
  obtain ⟨n, hs, ht⟩ := h.size_eq
  unfold findAt
  rw [if_neg (show ¬ s.size < i by omega), if_neg (show ¬ t.size < j by omega)]
  split
  · obtain ⟨r, hrs, hrt⟩ := findPlain_moved p limit h
    exact ⟨(.ok r, m.resetSteps), by rw [hrs]; rfl, by rw [hrt]; rfl⟩
  · split
    · exact attempt_moved p limit h hbefore m.resetSteps 0
    · exact scan_moved p limit h hbefore m.resetSteps 0

end Window

/-- A search sees the bytes from its offset on and, if the pattern has a frontier, the one before. -/
theorem findAt_apart {o : Options} {source : Bytes} {p : Pattern}
    (hp : Pattern.compile o source = .ok p) (limit : Option Nat) {s t : Subject} {i j : Nat}
    (hi : i ≤ s.size) (hj : j ≤ t.size) (hrest : s.toList.drop i = t.toList.drop j)
    (hbefore : (∃ set, .frontier set ∈ p.items) → s.byteBefore i = t.byteBefore j) {m m' : Memory}
    (hm : m.slots.length = captureLimit) (hm' : m'.slots.length = captureLimit) :
    FoundApart (j - i) (findAt ⟨p, s, limit⟩ m i).1 (findAt ⟨p, t, limit⟩ m' j).1 ∧
      (findAt ⟨p, s, limit⟩ m i).2.steps = (findAt ⟨p, t, limit⟩ m' j).2.steps := by
  -- either search may start from the new memory, moved to its offset
  have hfresh (k : Nat) : (Memory.fresh.moved k).slots.length = captureLimit := by
    rw [Memory.moved, List.length_map]
    rfl
  have hsameS := findAt_sameAnswer hp s limit ((hfresh i).trans hm.symm) hi
  have hsameT := findAt_sameAnswer hp t limit ((hfresh j).trans hm'.symm) hj
  obtain ⟨⟨r, m₁⟩, hs, ht⟩ := findAt_moved p limit (.of_drop hi hj hrest) hbefore .fresh
  rw [hsameS.fst_eq, hsameT.fst_eq, hsameS.steps_eq, hsameT.steps_eq, hs, ht]
  exact ⟨foundApart_moved i j r, rfl⟩

theorem findAt_apart_ab : ∃ p set, Pattern.compile {} [37, 102, 91, 97, 93, 97, 40, 98, 42, 41] = .ok p ∧
    .frontier set ∈ p.items ∧ 1 ≤ (#[45, 97, 98] : Subject).size ∧
    3 ≤ (#[120, 120, 45, 97, 98] : Subject).size ∧
    (#[45, 97, 98] : Subject).toList.drop 1 = (#[120, 120, 45, 97, 98] : Subject).toList.drop 3 ∧
    Subject.byteBefore #[45, 97, 98] 1 = Subject.byteBefore #[120, 120, 45, 97, 98] 3 ∧
    Memory.fresh.slots.length = captureLimit ∧
    (findAt ⟨p, #[45, 97, 98], some 9⟩ .fresh 1).1 = .ok (some ⟨1, 3, [.substring 2 3]⟩) ∧
    FoundApart 2 (findAt ⟨p, #[45, 97, 98], some 9⟩ .fresh 1).1
      (findAt ⟨p, #[120, 120, 45, 97, 98], some 9⟩ .fresh 3).1 ∧
    (findAt ⟨p, #[45, 97, 98], some 9⟩ .fresh 1).2.steps =
      (findAt ⟨p, #[120, 120, 45, 97, 98], some 9⟩ .fresh 3).2.steps := by
  have hp : Pattern.compile {} [37, 102, 91, 97, 93, 97, 40, 98, 42, 41] =
      .ok ⟨[37, 102, 91, 97, 93, 97, 40, 98, 42, 41], [.frontier ⟨0, 8589934592, 0, 0⟩,
        .single (.byte 97) .one, .openCapture 0, .single (.byte 98) .zeroOrMore, .closeCapture 0],
        [.substring], false⟩ := by
    apply eq_ok_of_toOption
    decide +kernel
  have hs : 1 ≤ (#[45, 97, 98] : Subject).size := by decide
  have ht : 3 ≤ (#[120, 120, 45, 97, 98] : Subject).size := by decide
  have hrest : (#[45, 97, 98] : Subject).toList.drop 1 =
    (#[120, 120, 45, 97, 98] : Subject).toList.drop 3 := rfl
  have hbefore : Subject.byteBefore #[45, 97, 98] 1 = Subject.byteBefore #[120, 120, 45, 97, 98] 3 := rfl
  have hfresh : Memory.fresh.slots.length = captureLimit := rfl
  refine ⟨_, _, hp, List.mem_cons_self, hs, ht, hrest, hbefore, hfresh, ?_,
    findAt_apart hp (some 9) hs ht hrest (fun _ => hbefore) hfresh hfresh⟩
  apply eq_ok_of_toOption
  decide +kernel

end Matcher
end BytePattern
