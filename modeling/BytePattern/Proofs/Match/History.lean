import BytePattern.Proofs.Safety
import BytePattern.Proofs.Search.Stale

/-!
# A matcher has no history

A memory that served any attempts before, whether they matched, failed or ran out of steps with choices
pending, serves the next one like a new memory once its steps are reset: nothing but the number of its
slots is relied on (`tryMatch_of_used`).
-/
namespace BytePattern
namespace Matcher

/-- What attempts and resets, in any order, make of a new memory. -/
inductive Used (x : Matcher) : Memory → Prop
  | fresh : Used x .fresh
  | attempt {m : Memory} (start : Nat) : Used x m → Used x (x.tryMatch m start).2
  | reset {m : Memory} : Used x m → Used x m.resetSteps

theorem Used.length_slots {x : Matcher} {m : Memory} (h : x.Used m) :
    m.slots.length = captureLimit := by
  induction h with
  | fresh => rfl
  | attempt start _ ih => rw [length_slots_tryMatch, ih]
  | reset _ ih => exact ih

/-- After a reset a used memory answers as a new one does, with the same steps and the same captures. -/
theorem tryMatch_of_used {o : Options} {source : Bytes} {p : Pattern}
    (hp : Pattern.compile o source = .ok p) (s : Subject) (limit : Option Nat) {m : Memory}
    (hm : Used ⟨p, s, limit⟩ m) {start : Nat} (hs : start ≤ s.size) :
    (tryMatch ⟨p, s, limit⟩ m.resetSteps start).1 = (tryMatch ⟨p, s, limit⟩ .fresh start).1 ∧
    (tryMatch ⟨p, s, limit⟩ m.resetSteps start).2.steps =
      (tryMatch ⟨p, s, limit⟩ .fresh start).2.steps ∧
    ∀ stop, (tryMatch ⟨p, s, limit⟩ .fresh start).1 = .ok (some stop) → ∃ captures,
      (tryMatch ⟨p, s, limit⟩ m.resetSteps start).2.captures p.captureCount = .ok captures ∧
      (tryMatch ⟨p, s, limit⟩ .fresh start).2.captures p.captureCount = .ok captures := by
  obtain ⟨cs, hrun, hkinds, _⟩ := Pattern.run_of_compile hp
  have hcount : p.captureCount = cs.length := by rw [Pattern.captureCount, hkinds, List.length_map]
  have hsteps : m.resetSteps.steps = Memory.fresh.steps := rfl
  have hlen : Memory.fresh.slots.length = m.resetSteps.slots.length := hm.length_slots.symm
  obtain ⟨hsame, hag⟩ := tryMatch_alike (x := ⟨p, s, limit⟩) hrun hsteps hlen start
  refine ⟨hsame.fst_eq, hsame.steps_eq, fun stop hstop => ?_⟩
  have hcaptures : (tryMatch ⟨p, s, limit⟩ m.resetSteps start).2.captures p.captureCount =
      (tryMatch ⟨p, s, limit⟩ .fresh start).2.captures p.captureCount := by
    simp only [Memory.captures, hcount, (hag stop hstop).take_eq, hsame.length_eq]
  rw [hcaptures]
  rcases tryMatch_outcome hp s limit (m := .fresh) rfl hs with ⟨l, h⟩ | h | ⟨_, captures, _, hc, _⟩
  · cases h.symm.trans hstop
  · cases h.symm.trans hstop
  · exact ⟨captures, hc, hc⟩

theorem tryMatch_of_used_exhausted :
    ∃ p, Pattern.compile {} [40, 97, 42, 41, 97, 98] = .ok p ∧
      let x : Matcher := ⟨p, #[97, 97, 98], some 13⟩
      let m := (x.tryMatch (x.tryMatch .fresh 0).2 0).2
      x.Used m ∧ (x.tryMatch m 0).1 = .error (.budgetExceeded 13) ∧ 0 ≤ x.subject.size ∧
        (x.tryMatch m.resetSteps 0).1 = (x.tryMatch .fresh 0).1 ∧
        (x.tryMatch m.resetSteps 0).2.steps = (x.tryMatch .fresh 0).2.steps ∧
        ∀ stop, (x.tryMatch .fresh 0).1 = .ok (some stop) → ∃ captures,
          (x.tryMatch m.resetSteps 0).2.captures p.captureCount = .ok captures ∧
          (x.tryMatch .fresh 0).2.captures p.captureCount = .ok captures := by
  have hp : Pattern.compile {} [40, 97, 42, 41, 97, 98] =
      .ok ⟨[40, 97, 42, 41, 97, 98], [.openCapture 0, .single (.byte 97) .zeroOrMore,
        .closeCapture 0, .single (.byte 97) .one, .single (.byte 98) .one], [.substring], false⟩ := by
    cbv
  have hused (x : Matcher) : x.Used (x.tryMatch (x.tryMatch .fresh 0).2 0).2 :=
    .attempt 0 (.attempt 0 .fresh)
  refine ⟨_, hp, hused _, ?_, Nat.zero_le _, tryMatch_of_used hp _ _ (hused _) (Nat.zero_le _)⟩
  decide +kernel

end Matcher
end BytePattern
