import BytePattern.Proofs.Replace.Assembly
import BytePattern.Proofs.Search.Cutoff

/-!
# Substitution under a step limit

The first search that costs more than the limit allows ends a substitution, once the matches before it
have got their texts, unless one of these has failed already. Up to there it does what it does without
the limit: the same replacements for the same matches, from one state to the next
(`Matcher.substitute_limited`).
-/
namespace BytePattern

variable {σ : Type}

theorem Assembled.unique {s : Subject} {copied : Nat}
    {texts : Except Error (List (Match × Bytes)) × σ} {a b : Except Error (Bytes × Nat) × σ}
    (ha : Assembled s copied texts a) (hb : Assembled s copied texts b) : a = b := by
  cases ha with
  | ok hout =>
    cases hb with
    | ok hout' =>
      cases hout.symm.trans hout'
      rfl
  | error =>
    cases hb
    rfl

theorem allowed_cutOff {limit : Nat} {costs : List Nat} {ms : List Match} (quota : Option Nat)
    (h : costs.length ≤ ms.length + 1) :
    allowed quota (cutOff limit costs ms) = cutOff limit (allowed quota costs) (allowed quota ms) := by
  induction costs generalizing quota ms with
  | nil => rw [allowed_nil, cutOff_nil, cutOff_nil, allowed_map]
  | cons c costs ih =>
    by_cases hq : quota = some 0
    · rw [hq, allowed_zero, allowed_zero, allowed_zero]
      rfl
    · rw [allowed_cons hq c]
      rcases Nat.lt_or_ge limit c with hlt | hle
      · rw [cutOff_of_lt hlt, cutOff_of_lt hlt, allowed_cons hq, allowed_nil]
      · cases ms with
        | nil =>
          obtain rfl : costs = [] := List.eq_nil_of_length_eq_zero (by simpa using h)
          rw [allowed_nil, allowed_nil, cutOff_of_le_nil hle, allowed_nil]
        | cons m ms =>
          rw [allowed_cons hq m, cutOff_cons hle, cutOff_cons hle, allowed_cons hq,
            ih _ (Nat.le_of_succ_le_succ h)]

namespace Replacement

theorem texts_append (r : Replacement σ) (s : Subject) (found rest : List (Except Error Match)) :
    r.texts s (found ++ rest) = do
      let done ← r.texts s found
      return done ++ (← r.texts s rest) := by
  induction found with
  | nil => simp [texts]
  | cons a found ih => simp [texts, ih]

end Replacement

structure SubstitutionCut (r : Replacement σ) (s : Subject) (limit : Nat) (costs : List Nat)
    (ms : List Match) (st : σ) (full limited : Except Error (Bytes × Nat) × σ) : Prop where
  within : (∀ c ∈ costs, c ≤ limit) → limited = full
  beyond : ∀ k, costs.findIdx? (limit < ·) = some k →
    Assembled s 0 ((do
      let done ← r.texts s ((ms.take k).map .ok)
      return done ++ (← r.texts s ((ms.drop k).map .ok))).run.run st) full ∧
    limited = (do
      let _ ← r.texts s ((ms.take k).map .ok)
      throw (.budgetExceeded limit) : Effect σ (Bytes × Nat)).run.run st
  same_or_exceeded : limited = full ∨ limited.1 = .error (.budgetExceeded limit)

theorem cutOff_of_forall_le {limit : Nat} {costs : List Nat} {ms : List Match}
    (h : ∀ c ∈ costs, c ≤ limit) : cutOff limit costs ms = ms.map .ok := by
  have hnone : costs.findIdx? (limit < ·) = none := by simpa using h
  rw [cutOff, hnone]

theorem cutOff_of_findIdx? {limit k : Nat} {costs : List Nat} {ms : List Match}
    (h : costs.findIdx? (limit < ·) = some k) :
    cutOff limit costs ms = (ms.take k).map .ok ++ [.error (.budgetExceeded limit)] := by
  rw [cutOff, h]

section Cut

variable {r : Replacement σ} {s : Subject} {limit : Nat} {costs : List Nat} {ms : List Match} {st : σ}
  {full limited : Except Error (Bytes × Nat) × σ}

theorem run_of_assembled_error {found : List (Except Error Match)} {e : Error}
    (h : Assembled s 0 ((r.texts s (found ++ [.error e])).run.run st) limited) :
    limited = (do
      let _ ← r.texts s found
      throw e : Effect σ (Bytes × Nat)).run.run st := by
  rw [Replacement.texts_append, Effect.run_bind] at h
  rw [Effect.run_bind]
  generalize (r.texts s found).run.run st = before at h ⊢
  obtain ⟨e' | done, st'⟩ := before
  · cases h
    rfl
  · replace h : Assembled s 0 (.error e, st') limited := h
    cases h
    rfl

theorem SubstitutionCut.of_assembled
    (hfull : Assembled s 0 ((r.texts s (ms.map .ok)).run.run st) full)
    (hlimited : Assembled s 0 ((r.texts s (cutOff limit costs ms)).run.run st) limited) :
    SubstitutionCut r s limit costs ms st full limited := by
  have hbeyond (k : Nat) (hk : costs.findIdx? (limit < ·) = some k) :
      limited = (do
        let _ ← r.texts s ((ms.take k).map .ok)
        throw (.budgetExceeded limit) : Effect σ (Bytes × Nat)).run.run st := by
    rw [cutOff_of_findIdx? hk] at hlimited
    exact run_of_assembled_error hlimited
  have hsplit (k : Nat) : r.texts s (ms.map .ok) = do
      let done ← r.texts s ((ms.take k).map .ok)
      return done ++ (← r.texts s ((ms.drop k).map .ok)) := by
    rw [← Replacement.texts_append, ← List.map_append, List.take_append_drop]
  have hwithin (h : ∀ c ∈ costs, c ≤ limit) : limited = full := by
    rw [cutOff_of_forall_le h] at hlimited
    exact hlimited.unique hfull
  refine ⟨hwithin, fun k hk => ⟨?_, hbeyond k hk⟩, ?_⟩
  · rw [← hsplit]
    exact hfull
  · cases hk : costs.findIdx? (limit < ·) with
    | none => exact .inl (hwithin (by simpa using hk))
    | some k =>
      have hl := hbeyond k hk
      rw [hsplit k, Effect.run_bind] at hfull
      rw [Effect.run_bind] at hl
      generalize (r.texts s ((ms.take k).map .ok)).run.run st = before at hfull hl
      obtain ⟨e | done, st'⟩ := before
      · cases hfull
        exact .inl hl
      · rw [hl]
        exact .inr rfl

end Cut

namespace Matcher

theorem substitute_limited {o : Options} {source : Bytes} {p : Pattern}
    (hp : Pattern.compile o source = .ok p) {s : Subject} {ms : List Match}
    (h : Swept ⟨p, s, none⟩ 0 ms) (limit : Nat) (r : Replacement σ) (quota : Option Nat) (st : σ) :
    SubstitutionCut r s limit (allowed quota (Matches.costs p s 0 ms)) (allowed quota ms) st
      ((substitute ⟨p, s, none⟩ r quota).run.run st)
      ((substitute ⟨p, s, some limit⟩ r quota).run.run st) := by
  have hfull := substituteFrom_assembled hp s {} r (m := .fresh) rfl quota (Nat.le_refl 0)
    (Nat.zero_le _) st
  have hlimited := substituteFrom_assembled hp s (.withStepLimit {} limit) r (m := .fresh) rfl quota
    (Nat.le_refl 0) (Nat.zero_le _) st
  rw [Matches.toList_of_swept rfl h, allowed_map] at hfull
  rw [Matches.toList_cutOff rfl h, allowed_cutOff quota (Matches.length_costs_le p s 0 ms)] at hlimited
  exact .of_assembled hfull hlimited

end Matcher
end BytePattern
