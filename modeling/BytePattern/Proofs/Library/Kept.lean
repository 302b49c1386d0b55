import BytePattern.Library.Basic

/-!
# Kept patterns

A library is sound if every pattern it keeps is what its source compiles to. Then compiling in it is
compiling, whether the pattern was kept or is compiled now, and malformed sources leave the library as it
was (`compile_cases`). A new library is sound, and so is one that was cleared. None of this depends on the
step limit (`run_compile_withStepLimit`).
-/
namespace BytePattern
namespace Library

def Sound (lib : Library) : Prop :=
  ∀ entries, lib.cache = some entries → ∀ source c, (source, c) ∈ entries →
    Pattern.compile lib.options source = .ok c.pattern

theorem sound_ofOptions (o : Options) (cached : Bool) : (ofOptions o cached).Sound := by
  intro entries h source c hc
  cases cached with
  | false => cases h
  | true =>
    cases h
    cases hc

def withStepLimit (lib : Library) (limit : Option Nat) : Library :=
  { lib with options := { lib.options with stepLimit := limit } }

section Compile

variable {lib : Library} {source : Bytes}

theorem run_compileFresh (lib : Library) (source : Bytes) : (compileFresh source).run.run lib =
    match Pattern.compile lib.options source with
    | .ok p => (.ok ⟨p, lib.compilations⟩, { lib with compilations := lib.compilations + 1 })
    | .error e => (.error e, lib) := by
  simp only [compileFresh, Effect.run_bind, Effect.run_get, Effect.run_lift]
  cases Pattern.compile lib.options source with
  | ok p => rfl
  | error e => rfl

theorem run_compile_of_uncached (h : lib.cache = none) :
    (compile source).run.run lib = (compileFresh source).run.run lib := by
  simp only [compile, Effect.run_bind, Effect.run_get, h]

theorem run_compile_of_kept {entries : Cache} {c : Compiled} (h : lib.cache = some entries)
    (hc : entries.lookup source = some c) : (compile source).run.run lib = (.ok c, lib) := by
  simp only [compile, Effect.run_bind, Effect.run_get, h, hc, Effect.run_pure]

theorem run_compile_of_missing {entries : Cache} (h : lib.cache = some entries)
    (hc : entries.lookup source = none) : (compile source).run.run lib =
      match (compileFresh source).run.run lib with
      | (.ok c, lib) => (.ok c, { lib with cache := some ((source, c) :: entries) })
      | (.error e, lib) => (.error e, lib) := by
  simp only [compile, Effect.run_bind, Effect.run_get, h, hc, Effect.run_modify, Effect.run_pure]
  rcases (compileFresh source).run.run lib with ⟨e | c, lib'⟩
  · rfl
  · rfl

theorem compile_cases (hlib : lib.Sound) (source : Bytes) :
    (∃ e, Pattern.compile lib.options source = .error e ∧
      (compile source).run.run lib = (.error e, lib)) ∨
    ∃ c lib', Pattern.compile lib.options source = .ok c.pattern ∧
      (compile source).run.run lib = (.ok c, lib') ∧ lib'.options = lib.options ∧ lib'.Sound := by
  have hfresh := run_compileFresh lib source
  cases hcache : lib.cache with
  | none =>
    rw [run_compile_of_uncached hcache]
    cases hp : Pattern.compile lib.options source with
    | error e =>
      rw [hp] at hfresh
      exact .inl ⟨e, rfl, hfresh⟩
    | ok p =>
      rw [hp] at hfresh
      refine .inr ⟨⟨p, lib.compilations⟩, _, rfl, hfresh, rfl, fun entries h => ?_⟩
      cases hcache.symm.trans h
  | some entries =>
    cases hc : entries.lookup source with
    | some c =>
      obtain ⟨before, after, hentries, _⟩ := List.lookup_eq_some_iff.1 hc
      have hmem : (source, c) ∈ entries := by simp [hentries]
      exact .inr ⟨c, lib, hlib entries hcache source c hmem, run_compile_of_kept hcache hc, rfl, hlib⟩
    | none =>
      rw [run_compile_of_missing hcache hc]
      cases hp : Pattern.compile lib.options source with
      | error e =>
        rw [hp] at hfresh
        rw [hfresh]
        exact .inl ⟨e, rfl, rfl⟩
      | ok p =>
        rw [hp] at hfresh
        rw [hfresh]
        refine .inr ⟨⟨p, lib.compilations⟩, _, rfl, rfl, rfl, fun entries' h source' c hc' => ?_⟩
        cases h
        rcases List.mem_cons.1 hc' with heq | hold
        · cases heq
          exact hp
        · exact hlib entries hcache source' c hold

theorem run_compile_withStepLimit (lib : Library) (source : Bytes) (limit : Option Nat) :
    (compile source).run.run (lib.withStepLimit limit) =
      (((compile source).run.run lib).1, ((compile source).run.run lib).2.withStepLimit limit) := by
  have hp : Pattern.compile (lib.withStepLimit limit).options source =
      Pattern.compile lib.options source := rfl
  have hfresh : (compileFresh source).run.run (lib.withStepLimit limit) =
      (((compileFresh source).run.run lib).1,
        ((compileFresh source).run.run lib).2.withStepLimit limit) := by
    rw [run_compileFresh, run_compileFresh, hp]
    cases Pattern.compile lib.options source <;> rfl
  cases hcache : lib.cache with
  | none =>
    have hcache' : (lib.withStepLimit limit).cache = none := hcache
    rw [run_compile_of_uncached hcache, run_compile_of_uncached hcache', hfresh]
  | some entries =>
    have hcache' : (lib.withStepLimit limit).cache = some entries := hcache
    cases hc : entries.lookup source with
    | some c => rw [run_compile_of_kept hcache hc, run_compile_of_kept hcache' hc]
    | none =>
      rw [run_compile_of_missing hcache hc, run_compile_of_missing hcache' hc, hfresh]
      rcases (compileFresh source).run.run lib with ⟨e | c, lib'⟩
      · rfl
      · rfl

end Compile

theorem sound_clear (lib : Library) : lib.clear.Sound := by
  intro entries hentries source c hc
  cases hcache : lib.cache with
  | none =>
    rw [clear, hcache] at hentries
    cases hentries
  | some old =>
    rw [clear, hcache] at hentries
    cases hentries
    cases hc

end Library
end BytePattern
