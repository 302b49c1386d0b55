import BytePattern.Search.Leftmost
import BytePattern.Proofs.Match.Preferred
import BytePattern.Proofs.Pattern.WellFormed

/-!
# Searching is the naive scan

Without its fast paths a search would try a new matcher at each offset (`Naive`). It does so in effect: an
attempt answers the same from any slots, since the preferred walk is unique (`attempt_fst_eq`), where the
leading byte of the pattern is not there no walk starts (`attempt_of_not_canStart`), and a pattern of literal
bytes, such as a plain one, matches where its text stands (`attempt_of_literal`).
-/
namespace BytePattern

theorem Record.ofCaptures_injective {captures captures' : List Capture}
    (h : Record.ofCaptures captures = .ofCaptures captures') : captures = captures' := by
  refine List.ext_getElem? fun k => ?_
  have hk : captures[k]?.map Taken.holds = captures'[k]?.map Taken.holds := congrFun h k
  exact Option.map_injective (fun _ _ h => Taken.holds.inj h) hk

theorem Record.ofCaptures_nil : Record.ofCaptures [] = .empty := rfl

theorem Pattern.items_of_leadByte? {p : Pattern} {b : UInt8} (h : p.leadByte? = some b) :
    ∃ q rest, p.items = .single (.byte b) q :: rest ∧ ∀ n, q.Allows n → 1 ≤ n := by
  unfold Pattern.leadByte? at h
  split at h
  · rename_i c rest hi
    cases h
    exact ⟨_, rest, hi, fun n hn => Nat.le_of_eq hn.symm⟩
  · rename_i c rest hi
    cases h
    exact ⟨_, rest, hi, fun n hn => hn⟩
  · cases h

namespace Matcher

/-- The least offset from `init` on at which a new matcher succeeds, with what it finds there. -/
def LeftmostFrom (x : Matcher) (init : Nat) : Option Match → Prop
  | some found => ∃ i, init ≤ i ∧ i ≤ x.subject.size ∧ (x.attempt .fresh i).1 = .ok (some found) ∧
      ∀ k, init ≤ k → k < i → (x.attempt .fresh k).1 = .ok none
  | none => ∀ k, init ≤ k → k ≤ x.subject.size → (x.attempt .fresh k).1 = .ok none

theorem LeftmostFrom.of_succ {x : Matcher} {i : Nat} {result : Option Match}
    (h : x.LeftmostFrom (i + 1) result) (hi : (x.attempt .fresh i).1 = .ok none) :
    x.LeftmostFrom i result := by
  have hbefore {k : Nat} (hik : i ≤ k) (hk : i + 1 ≤ k → (x.attempt .fresh k).1 = .ok none) :
      (x.attempt .fresh k).1 = .ok none := by
    rcases Nat.eq_or_lt_of_le hik with rfl | hlt
    · exact hi
    · exact hk hlt
  cases result with
  | none =>
    intro k hik hk
    exact hbefore hik fun hlt => h k hlt hk
  | some found =>
    obtain ⟨j, hij, hj, hf, hk⟩ := h
    exact ⟨j, Nat.le_of_succ_le hij, hj, hf, fun k hik hkj => hbefore hik fun hlt => hk k hlt hkj⟩

/-- What a search at `init` finds with no fast path and a new matcher for each attempt. -/
def Naive (x : Matcher) (init : Nat) (result : Option Match) : Prop :=
  if x.subject.size < init then result = none
  else if x.pattern.anchored then (x.attempt .fresh init).1 = .ok result
  else x.LeftmostFrom init result

def memoryAfter (x : Matcher) (inits : List Nat) : Memory :=
  inits.foldl (fun m init => (x.findAt m init).2) .fresh

theorem length_slots_attempt (x : Matcher) (m : Memory) (i : Nat) :
    (x.attempt m i).2.slots.length = m.slots.length := by
  have h := x.length_slots_tryMatch m i
  unfold attempt
  split <;> simp_all

theorem length_slots_attemptAt (x : Matcher) (m : Memory) (i : Nat) :
    (x.attemptAt m i).2.slots.length = m.slots.length := by
  unfold attemptAt
  split
  · exact x.length_slots_attempt m i
  · rfl

theorem length_slots_scan (x : Matcher) (m : Memory) (i : Nat) :
    (x.scan m i).2.slots.length = m.slots.length := by
  fun_induction scan x m i with
  | case1 m i m' h _ ih => rw [ih, ← x.length_slots_attemptAt m i, h]
  | case2 m i m' h => rw [← x.length_slots_attemptAt m i, h]
  | case3 m i => exact x.length_slots_attemptAt m i

theorem length_slots_findAt (x : Matcher) (m : Memory) (init : Nat) :
    (x.findAt m init).2.slots.length = m.slots.length := by
  unfold findAt
  split
  · rfl
  · split
    · rfl
    · split
      · exact x.length_slots_attempt m.resetSteps init
      · exact x.length_slots_scan m.resetSteps init

theorem length_slots_memoryAfter (x : Matcher) (inits : List Nat) :
    (x.memoryAfter inits).slots.length = captureLimit := by
  have hfold (m : Memory) : (inits.foldl (fun m init => (x.findAt m init).2) m).slots.length =
      m.slots.length := by
    induction inits generalizing m with
    | nil => rfl
    | cons init inits ih => rw [List.foldl_cons, ih, x.length_slots_findAt]
  exact hfold .fresh

section Compiled

variable {o : Options} {source : Bytes} {p : Pattern} (hp : Pattern.compile o source = .ok p)
  (s : Subject)

include hp

theorem attempt_cases {i : Nat} (hi : i ≤ s.size) {m : Memory}
    (hm : m.slots.length = captureLimit) :
    ((attempt ⟨p, s, none⟩ m i).1 = .ok none ∧
      ∀ counts stop r, ¬ Walk s p.items counts i .empty stop r) ∨
    ∃ counts stop captures, (attempt ⟨p, s, none⟩ m i).1 = .ok (some ⟨i, stop, captures⟩) ∧
      Preferred s p.items counts i .empty stop (.ofCaptures captures) := by
  rcases tryMatch_cases hp s hi hm with
    ⟨m', ht, hno⟩ | ⟨m', stop, counts, captures, ht, hc, _, hpref⟩
  · refine .inl ⟨?_, hno⟩
    simp only [attempt, ht]
  · refine .inr ⟨counts, stop, captures, ?_, hpref⟩
    simp only [attempt, ht, hc]
    rfl

theorem attempt_eq_none_iff {i : Nat} (hi : i ≤ s.size) {m : Memory}
    (hm : m.slots.length = captureLimit) :
    (attempt ⟨p, s, none⟩ m i).1 = .ok none ↔
      ∀ counts stop r, ¬ Walk s p.items counts i .empty stop r := by
  rcases attempt_cases hp s hi hm with ⟨h, hno⟩ | ⟨counts, stop, captures, h, hpref⟩
  · exact iff_of_true h hno
  · refine iff_of_false (fun hn => ?_) fun hno => hno _ _ _ hpref.1
    rw [h] at hn
    cases hn

theorem attempt_fst_eq {i : Nat} (hi : i ≤ s.size) {m : Memory}
    (hm : m.slots.length = captureLimit) :
    (attempt ⟨p, s, none⟩ m i).1 = (attempt ⟨p, s, none⟩ .fresh i).1 := by
  rcases attempt_cases hp s hi hm with ⟨h, hno⟩ | ⟨counts, stop, captures, h, hpref⟩
  · rw [h, (attempt_eq_none_iff hp s hi rfl).2 hno]
  · rcases attempt_cases hp s hi (m := .fresh) rfl with ⟨_, hno⟩ | ⟨_, _, captures', h', hpref'⟩
    · exact absurd hpref.1 (hno _ _ _)
    · obtain ⟨_, rfl, hr⟩ := hpref.unique hpref'
      rw [h, h', Record.ofCaptures_injective hr]

theorem attempt_of_not_canStart {i : Nat} (hi : i ≤ s.size) {m : Memory}
    (hm : m.slots.length = captureLimit) (hc : canStart ⟨p, s, none⟩ i = false) :
    (attempt ⟨p, s, none⟩ m i).1 = .ok none := by
  rw [attempt_eq_none_iff hp s hi hm]
  intro counts stop r hw
  rw [canStart] at hc
  cases hb : p.leadByte? with
  | none => simp [hb] at hc
  | some b =>
    obtain ⟨q, rest, hitems, hq⟩ := Pattern.items_of_leadByte? hb
    rw [hitems] at hw
    cases hw with
    | single hal hac _ =>
      obtain ⟨c, hc', hacc⟩ := hac 0 (hq _ hal)
      obtain rfl : c = b := by simpa [Token.accepts] using hacc
      rw [Nat.add_zero] at hc'
      simp [hb, hc'] at hc

theorem attemptAt_fst_eq {i : Nat} (hi : i ≤ s.size) {m : Memory}
    (hm : m.slots.length = captureLimit) :
    (attemptAt ⟨p, s, none⟩ m i).1 = (attempt ⟨p, s, none⟩ .fresh i).1 := by
  rw [attemptAt]
  by_cases hc : canStart ⟨p, s, none⟩ i
  · rw [if_pos hc]
    exact attempt_fst_eq hp s hi hm
  · rw [if_neg hc]
    exact (attempt_of_not_canStart hp s hi rfl (by simpa using hc)).symm

theorem scan_leftmostFrom {i : Nat} (hi : i ≤ s.size) {m : Memory}
    (hm : m.slots.length = captureLimit) :
    ∃ result, (scan ⟨p, s, none⟩ m i).1 = .ok result ∧ LeftmostFrom ⟨p, s, none⟩ i result := by
  fun_induction scan ⟨p, s, none⟩ m i with
  | case1 m i m' h hlt ih =>
    have hfresh := attemptAt_fst_eq hp s hi hm
    have hm' := length_slots_attemptAt ⟨p, s, none⟩ m i
    rw [h] at hfresh hm'
    obtain ⟨result, hr, hleft⟩ := ih hlt (hm'.trans hm)
    exact ⟨result, hr, hleft.of_succ hfresh.symm⟩
  | case2 m i m' h hge =>
    have hfresh := attemptAt_fst_eq hp s hi hm
    rw [h] at hfresh
    refine ⟨none, rfl, fun k hik hk => ?_⟩
    obtain rfl : i = k := Nat.le_antisymm hik (Nat.le_trans hk (Nat.le_of_not_lt hge))
    exact hfresh.symm
  | case3 m i h =>
    have hfresh := attemptAt_fst_eq hp s hi hm
    rcases attempt_cases hp s hi (m := .fresh) rfl with ⟨hn, _⟩ | ⟨_, stop, captures, hf, _⟩
    · exact (h _ (Prod.ext (hfresh.trans hn) rfl)).elim
    · exact ⟨_, hfresh.trans hf, i, Nat.le_refl i, hi, hf, fun k hik hki => by omega⟩

end Compiled

theorem hasAt_of_walk {s : Subject} {text : Bytes} {counts : List Nat} {i j : Nat} {r r' : Record}
    (h : Walk s (text.map fun b => .single (.byte b) .one) counts i r j r') :
    s.hasAt i text = true ∧ j = i + text.length ∧ r' = r := by
  induction text generalizing counts i with
  | nil =>
    cases h
    exact ⟨rfl, rfl, rfl⟩
  | cons b text ih =>
    cases h with
    | single hal hac hw =>
      cases hal
      obtain ⟨hat, rfl, rfl⟩ := ih hw
      obtain ⟨c, hc, hacc⟩ := Subject.accepts_one.1 hac
      obtain rfl : c = b := by simpa [Token.accepts] using hacc
      refine ⟨?_, by rw [List.length_cons]; omega, rfl⟩
      rw [Subject.hasAt, hc, hat]
      simp

theorem walk_of_hasAt {s : Subject} {text : Bytes} {i : Nat} (h : s.hasAt i text = true)
    (r : Record) :
    ∃ counts, Walk s (text.map fun b => .single (.byte b) .one) counts i r (i + text.length) r := by
  induction text generalizing i with
  | nil => exact ⟨[], .nil⟩
  | cons b text ih =>
    rw [Subject.hasAt, Bool.and_eq_true, beq_iff_eq] at h
    obtain ⟨counts, hw⟩ := ih h.2
    refine ⟨1 :: counts, .single rfl (Subject.accepts_one.2 ⟨b, h.1, ?_⟩) ?_⟩
    · simp [Token.accepts]
    · rwa [List.length_cons, Nat.add_comm text.length, ← Nat.add_assoc]

section Literal

variable {o : Options} {source : Bytes} {p : Pattern} (hp : Pattern.compile o source = .ok p)
  {text : Bytes} (hitems : p.items = text.map fun b => .single (.byte b) .one) (s : Subject)

include hp hitems

theorem attempt_of_literal {i : Nat} (hi : i ≤ s.size) :
    (attempt ⟨p, s, none⟩ .fresh i).1 =
      .ok (if s.hasAt i text then some ⟨i, i + text.length, []⟩ else none) := by
  rcases attempt_cases hp s hi (m := .fresh) rfl with ⟨h, hno⟩ | ⟨_, stop, captures, h, hpref⟩
  · rw [hitems] at hno
    rw [h, if_neg]
    intro hat
    obtain ⟨counts, hw⟩ := walk_of_hasAt hat .empty
    exact hno counts _ _ hw
  · rw [hitems] at hpref
    obtain ⟨hat, rfl, hr⟩ := hasAt_of_walk hpref.1
    rw [h, if_pos hat, Record.ofCaptures_injective (hr.trans Record.ofCaptures_nil.symm)]

theorem leftmostFrom_of_literal {i : Nat} (hi : i ≤ s.size) : LeftmostFrom ⟨p, s, none⟩ i
    ((s.findFrom text i).map fun j => ⟨j, j + text.length, []⟩) := by
  fun_induction Subject.findFrom s text i with
  | case1 i hat =>
    refine ⟨i, Nat.le_refl i, hi, ?_, fun k hik hki => by omega⟩
    rw [attempt_of_literal hp hitems s hi, if_pos hat]
  | case2 i hat hlt ih =>
    refine (ih hlt).of_succ ?_
    rw [attempt_of_literal hp hitems s hi, if_neg hat]
  | case3 i hat hge =>
    intro k hik hk
    obtain rfl : i = k := Nat.le_antisymm hik (Nat.le_trans hk (Nat.le_of_not_lt hge))
    rw [attempt_of_literal hp hitems s hi, if_neg hat]

end Literal

theorem exists_naive {o : Options} {source : Bytes} {p : Pattern}
    (hp : Pattern.compile o source = .ok p) (s : Subject) {m : Memory}
    (hm : m.slots.length = captureLimit) (init : Nat) :
    ∃ result, (findAt ⟨p, s, none⟩ m init).1 = .ok result ∧ Naive ⟨p, s, none⟩ init result := by
  unfold findAt Naive
  simp only
  by_cases hsize : s.size < init
  · exact ⟨none, by rw [if_pos hsize], by rw [if_pos hsize]⟩
  · have hi : init ≤ s.size := Nat.le_of_not_lt hsize
    rw [if_neg hsize]
    by_cases hplain : p.plain = true
    · obtain ⟨hanchor, _, hitems⟩ := Pattern.eq_of_plain hp hplain
      refine ⟨findPlain ⟨p, s, none⟩ init, by rw [if_pos hplain], ?_⟩
      rw [if_neg hsize, if_neg (by simp [hanchor])]
      exact leftmostFrom_of_literal hp hitems s hi
    · rw [if_neg hplain]
      by_cases hanchor : p.anchored = true
      · have hfresh := attempt_fst_eq hp s hi (m := m.resetSteps) hm
        have hok : ∃ result, (attempt ⟨p, s, none⟩ .fresh init).1 = .ok result := by
          rcases attempt_cases hp s hi (m := .fresh) rfl with ⟨h, _⟩ | ⟨_, _, _, h, _⟩
          · exact ⟨_, h⟩
          · exact ⟨_, h⟩
        obtain ⟨result, hr⟩ := hok
        refine ⟨result, by rw [if_pos hanchor, hfresh, hr], ?_⟩
        rw [if_neg hsize, if_pos hanchor]
        exact hr
      · obtain ⟨result, hr, hleft⟩ := scan_leftmostFrom hp s hi (m := m.resetSteps) hm
        refine ⟨result, by rw [if_neg hanchor, hr], ?_⟩
        rw [if_neg hsize, if_neg hanchor]
        exact hleft

/-- After whatever searches before it, a search without a step limit finds what the naive scan finds. -/
theorem findAt_naive {o : Options} {source : Bytes} {p : Pattern}
    (hp : Pattern.compile o source = .ok p) (s : Subject) (inits : List Nat) (init : Nat) :
    ∃ result,
      (findAt ⟨p, s, none⟩ (memoryAfter ⟨p, s, none⟩ inits) init).1 = .ok result ∧
      Naive ⟨p, s, none⟩ init result := by
  have hm := length_slots_memoryAfter ⟨p, s, none⟩ inits
  exact exists_naive hp s hm init

theorem findAt_naive_baa :
    ∃ p, Pattern.compile {} [97, 43, 40, 41] = .ok p ∧ ∃ result,
      (findAt ⟨p, #[98, 97, 97], none⟩ (memoryAfter ⟨p, #[98, 97, 97], none⟩ [0, 3]) 2).1 =
        .ok result ∧ Naive ⟨p, #[98, 97, 97], none⟩ 2 result := by
  have hp : Pattern.compile {} [97, 43, 40, 41] =
      .ok ⟨[97, 43, 40, 41], [.single (.byte 97) .oneOrMore, .positionCapture 0], [.position],
        false⟩ := by
    cbv
  exact ⟨_, hp, findAt_naive hp #[98, 97, 97] [0, 3] 2⟩

end Matcher
end BytePattern
