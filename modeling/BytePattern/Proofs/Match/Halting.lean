import Mathlib.Algebra.Group.Nat.Defs
import BytePattern.Proofs.Match.Bounds
import BytePattern.Proofs.Search.Limit

/-!
# Attempts halt

The weight of what is left to try bounds the steps that are left: `n` steps lower it by `n` at least
(`StepsOf.add_le`). So no run is longer than the weight it starts with, every run comes to a step that
halts (`Matcher.exists_haltsIn`), and the weight of a pattern has a bound in closed form
(`itemsWeight_lt_pow`). The step counter tells exactly how many steps a run made that ended without an
error (`Matcher.HaltsIn.steps_eq`).
-/
namespace BytePattern

inductive StepsOf {α : Type} (r : α → α → Prop) : Nat → α → α → Prop
  | none {a : α} : StepsOf r 0 a a
  | cons {n : Nat} {a b c : α} : r a b → StepsOf r n b c → StepsOf r (n + 1) a c

namespace StepsOf

variable {α : Type} {r : α → α → Prop} {n : Nat} {a b : α}

theorem add_le (h : StepsOf r n a b) {measure : α → Nat}
    (hr : ∀ a b, r a b → measure b < measure a) : n + measure b ≤ measure a := by
  induction h with
  | none => omega
  | cons hstep _ ih =>
    have := hr _ _ hstep
    omega

theorem reaches (h : StepsOf r n a b) : Relation.ReflTransGen r a b := by
  induction h with
  | none => exact .refl
  | cons hstep _ ih => exact .head hstep ih

end StepsOf

theorem itemsWeight_lt_pow (n : Nat) (items : List Item) :
    itemsWeight n items < (n + 3) ^ items.length := by
  induction items with
  | nil => exact Nat.one_pos
  | cons item items ih =>
    have hmul : (n + 3) * (1 + itemsWeight n items) ≤ (n + 3) * (n + 3) ^ items.length :=
      Nat.mul_le_mul_left _ (by omega)
    have hsplit : (n + 3) * (1 + itemsWeight n items) =
        (n + 2) * (1 + itemsWeight n items) + (1 + itemsWeight n items) := Nat.succ_mul ..
    rw [itemsWeight, List.length_cons, Nat.pow_succ']
    omega

namespace Matcher

variable {x : Matcher} {n : Nat} {a b c : Memory × Focus} {result : Except Error (Option Nat)}
  {m : Memory}

abbrev LeadsIn (x : Matcher) : Nat → Memory × Focus → Memory × Focus → Prop := StepsOf x.Leads

def follow (x : Matcher) : Nat → Memory × Focus → Option (Memory × Focus)
  | 0, a => some a
  | n + 1, a =>
    match x.step a.1 a.2 with
    | .halt _ _ => none
    | .next m f => x.follow n (m, f)

theorem leadsIn_iff : x.LeadsIn n a b ↔ x.follow n a = some b := by
  constructor
  · intro h
    induction h with
    | none => rfl
    | @cons _ _ b' _ hstep _ ih =>
      have hnext : x.step _ _ = .next b'.1 b'.2 := hstep
      simp only [follow, hnext, ih]
  · intro h
    induction n generalizing a with
    | zero =>
      cases h
      exact .none
    | succ n ih =>
      rw [follow] at h
      split at h
      · cases h
      · rename_i m f hstep
        exact .cons (show x.Leads a (m, f) from hstep) (ih h)

instance (x : Matcher) (n : Nat) (a b : Memory × Focus) : Decidable (x.LeadsIn n a b) :=
  decidable_of_iff (x.follow n a = some b) leadsIn_iff.symm

def weight (x : Matcher) (a : Memory × Focus) : Nat :=
  a.1.weight x.subject.size + a.2.weight x.subject.size

theorem ticks_of_leads (h : x.Leads a b) : Ticks a.1 a.2 := by
  by_cases ht : Ticks a.1 a.2
  · exact ht
  · cases h.symm.trans (step_of_not_ticks x ht)

theorem steps_of_leads (h : x.Leads a b) : b.1.steps = a.1.steps + 1 := by
  have hstep : x.step a.1 a.2 = .next b.1 b.2 := h
  have hsteps := steps_of_ticks x (ticks_of_leads h)
  rwa [hstep] at hsteps

theorem steps_of_leadsIn (h : x.LeadsIn n a b) : b.1.steps = a.1.steps + n := by
  induction h with
  | none => rfl
  | cons hstep _ ih =>
    rw [ih, steps_of_leads hstep]
    omega

theorem add_weight_le (h : x.LeadsIn n a b) : n + x.weight b ≤ x.weight a :=
  h.add_le fun _ _ hstep => step_weight hstep

theorem not_ticks_of_halt {stop : Option Nat} {f : Focus} {m' : Memory}
    (h : x.step m f = .halt (.ok stop) m') : ¬ Ticks m f := by
  intro ht
  cases f with
  | items rest i =>
    cases rest with
    | nil => exact ht rfl
    | cons item next =>
      simp only [step] at h
      split at h
      · cases h
      · split at h <;> cases h
  | retry =>
    simp only [step] at h
    split at h
    · rename_i hchoices
      exact ht hchoices
    · split at h <;> cases h

/-- From a state on, the run makes so many steps, and the next halts: nothing goes on longer. -/
structure HaltsIn (x : Matcher) (n : Nat) (a : Memory × Focus) (result : Except Error (Option Nat))
    (m : Memory) : Prop where
  halts : ∃ b, x.LeadsIn n a b ∧ x.step b.1 b.2 = .halt result m
  longest : ∀ k b, x.LeadsIn k a b → k ≤ n

namespace HaltsIn

theorem zero (h : x.step a.1 a.2 = .halt result m) : x.HaltsIn 0 a result m where
  halts := ⟨a, .none, h⟩
  longest k b hk := by
    cases hk with
    | none => exact Nat.le_refl 0
    | cons hstep _ => cases h.symm.trans hstep

theorem succ (hstep : x.Leads a b) (h : x.HaltsIn n b result m) : x.HaltsIn (n + 1) a result m where
  halts := by
    obtain ⟨c, hleads, hhalt⟩ := h.halts
    exact ⟨c, .cons hstep hleads, hhalt⟩
  longest k c hk := by
    cases hk with
    | none => exact Nat.zero_le _
    | @cons k _ b' _ hstep' hk =>
      -- the machine is deterministic, so both runs go through the same state
      have hnext : Step.next b.1 b.2 = Step.next b'.1 b'.2 := hstep.symm.trans hstep'
      obtain rfl : b = b' := by
        cases b
        cases b'
        cases hnext
        rfl
      exact Nat.succ_le_succ (h.longest k c hk)

theorem run_eq (h : x.HaltsIn n a result m) : x.run a.1 a.2 = (result, m) := by
  obtain ⟨b, hleads, hhalt⟩ := h.halts
  rw [run_of_reaches hleads.reaches, run_of_halt hhalt]

theorem le_weight (h : x.HaltsIn n a result m) : n ≤ x.weight a := by
  obtain ⟨b, hleads, _⟩ := h.halts
  have := add_weight_le hleads
  omega

theorem steps_eq {stop : Option Nat} (h : x.HaltsIn n a (.ok stop) m) : m.steps = a.1.steps + n := by
  obtain ⟨b, hleads, hhalt⟩ := h.halts
  have hmemory := hhalt.symm.trans (step_of_not_ticks x (not_ticks_of_halt hhalt))
  cases hmemory
  exact steps_of_leadsIn hleads

end HaltsIn

theorem exists_haltsIn (x : Matcher) (a : Memory × Focus) : ∃ n result m, x.HaltsIn n a result m := by
  obtain ⟨m, f⟩ := a
  fun_induction run x m f with
  | case1 m f result m' h => exact ⟨0, result, m', .zero h⟩
  | case2 m f m' f' h ih =>
    have hleads : x.Leads (m, f) (m', f') := h
    obtain ⟨n, result, last, hn⟩ := ih
    exact ⟨n + 1, result, last, hn.succ hleads⟩

theorem steps_run_le (x : Matcher) (m : Memory) (f : Focus) :
    (x.run m f).2.steps ≤ m.steps + x.weight (m, f) + 1 := by
  obtain ⟨n, result, last, hn⟩ := x.exists_haltsIn (m, f)
  have hrun : x.run m f = (result, last) := hn.run_eq
  have hle := hn.le_weight
  obtain ⟨b, hleads, hhalt⟩ := hn.halts
  have hsteps : b.1.steps = m.steps + n := steps_of_leadsIn hleads
  have hlast : (x.step b.1 b.2).memory.steps ≤ b.1.steps + 1 := by
    by_cases ht : Ticks b.1 b.2
    · exact Nat.le_of_eq (steps_of_ticks x ht)
    · rw [step_of_not_ticks x ht]
      exact Nat.le_succ _
  rw [hhalt] at hlast
  replace hlast : last.steps ≤ b.1.steps + 1 := hlast
  rw [hrun]
  show last.steps ≤ m.steps + x.weight (m, f) + 1
  omega

end Matcher
end BytePattern
