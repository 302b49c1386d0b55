import BytePattern.Proofs.Library.Kept
import BytePattern.Proofs.Replace.Cutoff

/-!
# The library under a step limit

A sound library answers under a step limit what it answers without one, cut off where a search costs more
than the limit allows (`limitOnlyCuts`). Finding and matching make one search at most (`SearchCut`), a
sequence of matches breaks off at the first search that costs too much (`SequenceCut`), and so does a
substitution, after the same replacements (`SubstitutionCut`). What is compiled and kept is the same.
-/
namespace BytePattern
namespace Library

variable {σ : Type}

structure SearchCut {α : Type} (limit cost : Nat) (full limited : Except Error α × Library) : Prop where
  result : limited.1 = if cost ≤ limit then full.1 else .error (.budgetExceeded limit)
  library : limited.2 = full.2.withStepLimit (some limit)

/-- A sequence of matches without the limit and with it. Pulled after its end it gives nothing. -/
inductive SequenceCut (limit : Nat) :
    Except Error Matches × Library → Except Error Matches × Library → Prop
  | malformed {e : Error} {lib : Library} :
      SequenceCut limit (.error e, lib) (.error e, lib.withStepLimit (some limit))
  | pulled {it it' : Matches} {ms : List Match} {lib : Library} :
      (∀ n, it.pull n = ms[n]?.map .ok) →
      (∀ n, it'.pull n = (cutOff limit (Matches.costs it.pattern it.subject it.offset ms) ms)[n]?) →
      SequenceCut limit (.ok it, lib) (.ok it', lib.withStepLimit (some limit))

inductive SubstituteCut (r : Replacement σ) (s : Subject) (source : Bytes) (limit : Nat)
    (quota : Option Nat) (st : σ) (o : Options) :
    Except Error (Except Error (Bytes × Nat) × σ) × Library →
      Except Error (Except Error (Bytes × Nat) × σ) × Library → Prop
  | malformed {e : Error} {lib : Library} :
      SubstituteCut r s source limit quota st o (.error e, lib)
        (.error e, lib.withStepLimit (some limit))
  | substituted {p : Pattern} {ms : List Match} {full limited : Except Error (Bytes × Nat) × σ}
      {lib : Library} :
      Pattern.compile o source = .ok p → (Matches.ofPattern p s {} 0).toList = ms.map .ok →
      SubstitutionCut r s limit (allowed quota (Matches.costs p s 0 ms)) (allowed quota ms) st full
        limited →
      SubstituteCut r s source limit quota st o (.ok full, lib)
        (.ok limited, lib.withStepLimit (some limit))

def searchCost (lib : Library) (s : Subject) (source : Bytes) (init : Option Int64) : Nat :=
  match initOffset s init, Pattern.compile lib.options source with
  | some i, .ok p => Matcher.cost p s i
  | _, _ => 0

structure LimitOnlyCuts (lib : Library) (limit : Nat) (s : Subject) (source : Bytes) : Prop where
  search : ∀ p, Pattern.compile lib.options source = .ok p → ∀ m : Memory, ∀ init,
    m.slots.length = captureLimit → init ≤ s.size →
      (Matcher.findAt ⟨p, s, none⟩ m init).2.steps = Matcher.cost p s init ∧
      Cut limit (Matcher.findAt ⟨p, s, none⟩ m init) (Matcher.findAt ⟨p, s, some limit⟩ m init)
  find : ∀ init plain, SearchCut limit (if plain then 0 else lib.searchCost s source init)
    ((Library.find s source init plain).run.run (lib.withStepLimit none))
    ((Library.find s source init plain).run.run (lib.withStepLimit (some limit)))
  firstValues : ∀ init, SearchCut limit (lib.searchCost s source init)
    ((Library.firstValues s source init).run.run (lib.withStepLimit none))
    ((Library.firstValues s source init).run.run (lib.withStepLimit (some limit)))
  allMatches : ∀ init, SequenceCut limit
    ((Library.allMatches s source init).run.run (lib.withStepLimit none))
    ((Library.allMatches s source init).run.run (lib.withStepLimit (some limit)))
  substitute : ∀ {σ : Type} (r : Replacement σ) (quota : Option Int64) (st : σ),
    SubstituteCut r s source limit (quota.map fun n => n.toInt.toNat) st lib.options
      ((Library.substitute s source r quota st).run.run (lib.withStepLimit none))
      ((Library.substitute s source r quota st).run.run (lib.withStepLimit (some limit)))

section Search

variable {α β : Type} {limit cost : Nat}

theorem SearchCut.of_eq (a : Except Error α) (lib : Library) :
    SearchCut limit 0 (a, lib.withStepLimit none) (a, lib.withStepLimit (some limit)) :=
  ⟨(if_pos (Nat.zero_le limit)).symm, rfl⟩

theorem SearchCut.bind {x : Effect Library α} {lib₁ lib₂ : Library}
    (h : SearchCut limit cost (x.run.run lib₁) (x.run.run lib₂)) {f : α → Effect Library β}
    (g : α → Except Error β) (hf : ∀ a lib, (f a).run.run lib = (g a, lib)) :
    SearchCut limit cost ((x >>= f).run.run lib₁) ((x >>= f).run.run lib₂) := by
  rw [Effect.run_bind, Effect.run_bind]
  obtain ⟨hresult, hlibrary⟩ := h
  generalize x.run.run lib₁ = full at hresult hlibrary ⊢
  generalize x.run.run lib₂ = limited at hresult hlibrary ⊢
  obtain ⟨a, lib⟩ := full
  obtain ⟨b, lib'⟩ := limited
  obtain rfl : lib' = lib.withStepLimit (some limit) := hlibrary
  replace hresult : b = if cost ≤ limit then a else .error (.budgetExceeded limit) := hresult
  by_cases hcost : cost ≤ limit
  · rw [if_pos hcost] at hresult
    obtain rfl := hresult
    cases b with
    | error e => exact ⟨(if_pos hcost).symm, rfl⟩
    | ok b =>
      simp only [hf]
      exact ⟨(if_pos hcost).symm, rfl⟩
  · rw [if_neg hcost] at hresult
    obtain rfl := hresult
    cases a with
    | error e => exact ⟨(if_neg hcost).symm, rfl⟩
    | ok a =>
      simp only [hf]
      exact ⟨(if_neg hcost).symm, rfl⟩

end Search

section Sound

variable {lib : Library} (hlib : lib.Sound) (s : Subject) (source : Bytes) (limit : Nat)

include hlib

theorem compile_withStepLimit_cases :
    (∃ e, Pattern.compile lib.options source = .error e ∧
      ∀ l, (compile source).run.run (lib.withStepLimit l) = (.error e, lib.withStepLimit l)) ∨
    ∃ c, ∃ lib' : Library, Pattern.compile lib.options source = .ok c.pattern ∧
      ∀ l, (compile source).run.run (lib.withStepLimit l) = (.ok c, lib'.withStepLimit l) := by
  rcases compile_cases hlib source with ⟨e, hp, hrun⟩ | ⟨c, lib', hp, hrun, _⟩
  · exact .inl ⟨e, hp, fun l => by rw [run_compile_withStepLimit, hrun]⟩
  · exact .inr ⟨c, lib', hp, fun l => by rw [run_compile_withStepLimit, hrun]⟩

theorem searchFrom_cut {init : Option Int64} {i : Nat} (hi : initOffset s init = some i) :
    SearchCut limit (lib.searchCost s source init)
      ((searchFrom s source i).run.run (lib.withStepLimit none))
      ((searchFrom s source i).run.run (lib.withStepLimit (some limit))) := by
  rcases compile_withStepLimit_cases hlib source with ⟨e, hp, hrun⟩ | ⟨c, lib', hp, hrun⟩
  · have hcost : lib.searchCost s source init = 0 := by rw [searchCost, hi, hp]
    simp only [searchFrom, Effect.run_bind, hrun, hcost]
    exact .of_eq _ lib
  · have hcost : lib.searchCost s source init = Matcher.cost c.pattern s i := by
      rw [searchCost, hi, hp]
    simp only [searchFrom, Effect.run_bind, hrun, Effect.run_get, Effect.run_lift, hcost]
    refine ⟨?_, rfl⟩
    show Matcher.find ⟨c.pattern, s, some limit⟩ i = _
    split
    · rename_i hle
      exact Matcher.find_of_cost_le hle
    · rename_i hlt
      exact Matcher.find_of_lt_cost (Nat.lt_of_not_le hlt)

theorem find_cut (init : Option Int64) (plain : Bool) :
    SearchCut limit (if plain then 0 else lib.searchCost s source init)
      ((Library.find s source init plain).run.run (lib.withStepLimit none))
      ((Library.find s source init plain).run.run (lib.withStepLimit (some limit))) := by
  unfold Library.find
  cases hi : initOffset s init with
  | none =>
    have hcost : (if plain then 0 else lib.searchCost s source init) = 0 := by
      rw [searchCost, hi]
      exact ite_self 0
    rw [hcost]
    exact .of_eq (.ok none) lib
  | some i =>
    cases plain with
    | true => exact .of_eq _ lib
    | false =>
      rw [if_neg Bool.false_ne_true]
      refine (searchFrom_cut hlib s source limit hi).bind
        (fun found => found.elim (.ok none) fun m =>
          (m.captureValues s).map fun captures => some ⟨m.start + 1, m.stop, captures⟩) ?_
      intro found lib'
      cases found with
      | none => rfl
      | some m =>
        simp only [Effect.run_bind, Effect.run_lift, Option.elim_some]
        cases m.captureValues s <;> rfl

theorem firstValues_cut (init : Option Int64) : SearchCut limit (lib.searchCost s source init)
    ((Library.firstValues s source init).run.run (lib.withStepLimit none))
    ((Library.firstValues s source init).run.run (lib.withStepLimit (some limit))) := by
  unfold Library.firstValues
  cases hi : initOffset s init with
  | none =>
    have hcost : lib.searchCost s source init = 0 := by rw [searchCost, hi]
    rw [hcost]
    exact .of_eq (.ok none) lib
  | some i =>
    refine (searchFrom_cut hlib s source limit hi).bind
      (fun found => found.elim (.ok none) fun m => (m.values s).map some) ?_
    intro found lib'
    cases found with
    | none => rfl
    | some m =>
      simp only [Effect.run_bind, Effect.run_lift, Option.elim_some]
      cases m.values s <;> rfl

theorem allMatches_cut (init : Option Int64) : SequenceCut limit
    ((Library.allMatches s source init).run.run (lib.withStepLimit none))
    ((Library.allMatches s source init).run.run (lib.withStepLimit (some limit))) := by
  rcases compile_withStepLimit_cases hlib source with ⟨e, _, hrun⟩ | ⟨c, lib', hp, hrun⟩
  · simp only [Library.allMatches, Effect.run_bind, hrun]
    exact .malformed
  · simp only [Library.allMatches, Effect.run_bind, hrun, Effect.run_get, Effect.run_pure]
    obtain ⟨ms, hms⟩ := Matches.exists_swept hp s ((initOffset s init).getD (s.size + 1))
    apply SequenceCut.pulled
    · intro n
      rw [Matches.pull_eq, Matches.toList_of_swept rfl hms, List.getElem?_map]
    · intro n
      rw [Matches.pull_eq, Matches.toList_cutOff rfl hms]
      rfl

theorem substitute_cut (r : Replacement σ) (quota : Option Int64) (st : σ) :
    SubstituteCut r s source limit (quota.map fun n => n.toInt.toNat) st lib.options
      ((Library.substitute s source r quota st).run.run (lib.withStepLimit none))
      ((Library.substitute s source r quota st).run.run (lib.withStepLimit (some limit))) := by
  rcases compile_withStepLimit_cases hlib source with ⟨e, _, hrun⟩ | ⟨c, lib', hp, hrun⟩
  · simp only [Library.substitute, Effect.run_bind, hrun]
    exact .malformed
  · simp only [Library.substitute, Effect.run_bind, hrun, Effect.run_get, Effect.run_pure]
    obtain ⟨ms, hms⟩ := Matches.exists_swept hp s 0
    exact .substituted hp (Matches.toList_of_swept rfl hms)
      (Matcher.substitute_limited hp hms limit r _ st)

/-- A step limit changes no answer of a library, it only cuts answers off. -/
theorem limitOnlyCuts : LimitOnlyCuts lib limit s source where
  search p hp m _ hm hinit := ⟨Matcher.steps_findAt hp hm hinit,
    Matcher.findAt_cut ⟨p, s, none⟩ m fun h => absurd hinit (Nat.not_le_of_lt h)⟩
  find := find_cut hlib s source limit
  firstValues := firstValues_cut hlib s source limit
  allMatches := allMatches_cut hlib s source limit
  substitute := substitute_cut hlib s source limit

end Sound

theorem limitOnlyCuts_aab : (ofOptions {} true).Sound ∧
    LimitOnlyCuts (ofOptions {} true) 3 #[97, 97, 98] [97, 42] :=
  ⟨sound_ofOptions {} true, limitOnlyCuts (sound_ofOptions {} true) #[97, 97, 98] [97, 42] 3⟩

end Library
end BytePattern
