import Mathlib.Tactic.Choose
import BytePattern.Proofs.Library.Kept

/-!
# What operations do to a library

An operation compiles one source or none, and that is all it does to the library. What it answers depends
on the options alone, so that it makes no difference whether patterns are kept (`Compiles`). And all that
compiling does to a cache is to add an entry for a source that it does not hold and that is well-formed
(`compiled_cases`).
-/
namespace BytePattern
namespace Library

variable {α β : Type} {lib : Library} {source : Bytes}

def compiled (lib : Library) (source : Bytes) : Library := ((compile source).run.run lib).2

theorem compiled_spec (h : lib.Sound) (source : Bytes) :
    (lib.compiled source).options = lib.options ∧ (lib.compiled source).Sound := by
  rcases compile_cases h source with ⟨e, _, hrun⟩ | ⟨c, lib', _, hrun, ho, hlib'⟩
  · rw [compiled, hrun]
    exact ⟨rfl, h⟩
  · rw [compiled, hrun]
    exact ⟨ho, hlib'⟩

theorem compiled_of_uncached (h : lib.cache = none) (source : Bytes) :
    (lib.compiled source).cache = none ∧ lib.compilations ≤ (lib.compiled source).compilations := by
  rw [compiled, run_compile_of_uncached h, run_compileFresh]
  split
  · exact ⟨h, Nat.le_succ _⟩
  · exact ⟨h, Nat.le_refl _⟩

theorem mem_keys_of_lookup {entries : Cache} {c : Compiled} (h : entries.lookup source = some c) :
    source ∈ entries.map Prod.fst := by
  obtain ⟨before, after, hentries, _⟩ := List.lookup_eq_some_iff.1 h
  simp [hentries]

theorem not_mem_keys_of_lookup {entries : Cache} (h : entries.lookup source = none) :
    source ∉ entries.map Prod.fst := by
  intro hmem
  obtain ⟨entry, hentry, heq⟩ := List.mem_map.1 hmem
  have hne := List.lookup_eq_none_iff.1 h entry hentry
  simp [heq] at hne

theorem compiled_cases {entries : Cache} (h : lib.cache = some entries) (source : Bytes) :
    lib.compiled source = lib ∧
      (source ∈ entries.map Prod.fst ∨ ∃ e, Pattern.compile lib.options source = .error e) ∨
    ∃ c, source ∉ entries.map Prod.fst ∧ Pattern.compile lib.options source = .ok c.pattern ∧
      (lib.compiled source).cache = some ((source, c) :: entries) := by
  cases hc : entries.lookup source with
  | some c =>
    exact .inl ⟨by rw [compiled, run_compile_of_kept h hc], .inl (mem_keys_of_lookup hc)⟩
  | none =>
    have hrun := run_compile_of_missing h hc
    rw [run_compileFresh] at hrun
    cases hp : Pattern.compile lib.options source with
    | error e =>
      rw [hp] at hrun
      exact .inl ⟨by rw [compiled, hrun], .inr ⟨e, rfl⟩⟩
    | ok p =>
      rw [hp] at hrun
      exact .inr ⟨⟨p, lib.compilations⟩, not_mem_keys_of_lookup hc, rfl, by rw [compiled, hrun]⟩

theorem run_compile_bind (hlib : lib.Sound) {f : Compiled → Effect Library α}
    (answer : Pattern → Options → Except Error α)
    (hf : ∀ c lib, (f c).run.run lib = (answer c.pattern lib.options, lib)) (source : Bytes) :
    (compile source >>= f).run.run lib =
      (Pattern.compile lib.options source >>= (answer · lib.options), lib.compiled source) := by
  rw [Effect.run_bind]
  rcases compile_cases hlib source with ⟨e, he, hrun⟩ | ⟨c, lib', hc, hrun, ho, _⟩
  · simp only [hrun, he, compiled]
    rfl
  · simp only [hrun, hf, hc, ho, compiled]
    rfl

def foundOf (s : Subject) (m : Match) : Except Error Found :=
  (m.captureValues s).map fun captures => ⟨m.start + 1, m.stop, captures⟩

section Run

variable (hlib : lib.Sound) (s : Subject) (source : Bytes)

include hlib

theorem run_searchFrom (i : Nat) : (searchFrom s source i).run.run lib =
    (Pattern.compile lib.options source >>= fun p => (Matcher.ofPattern p s lib.options).find i,
      lib.compiled source) :=
  run_compile_bind hlib (fun p o => (Matcher.ofPattern p s o).find i) (fun _ _ => rfl) source

omit hlib in
theorem run_firstValues_past {init : Option Int64} (hi : initOffset s init = none) :
    (firstValues s source init).run.run lib = (.ok none, lib) := by
  rw [firstValues, hi]
  rfl

theorem run_firstValues {init : Option Int64} {i : Nat} (hi : initOffset s init = some i) :
    ((firstValues s source init).run.run lib).1 =
      Pattern.compile lib.options source >>= fun p =>
        (Matcher.ofPattern p s lib.options).find i >>= fun found =>
          found.elim (.ok none) fun m => (m.values s).map some := by
  rw [firstValues, hi]
  simp only
  rw [Effect.run_bind_fst fun found => found.elim (.ok none) fun m => (m.values s).map some,
    run_searchFrom hlib, bind_assoc]
  intro found lib'
  cases found with
  | none => rfl
  | some m => exact Effect.run_bind_pure ..

omit hlib in
theorem run_find_past {init : Option Int64} (hi : initOffset s init = none) (plain : Bool) :
    (find s source init plain).run.run lib = (.ok none, lib) := by
  rw [find, hi]
  rfl

theorem run_find {init : Option Int64} {i : Nat} (hi : initOffset s init = some i) :
    ((find s source init false).run.run lib).1 =
      Pattern.compile lib.options source >>= fun p =>
        (Matcher.ofPattern p s lib.options).find i >>= fun found =>
          found.elim (.ok none) fun m => (foundOf s m).map some := by
  rw [find, hi]
  simp only [Bool.false_eq_true, if_false]
  rw [Effect.run_bind_fst fun found => found.elim (.ok none) fun m => (foundOf s m).map some,
    run_searchFrom hlib, bind_assoc]
  intro found lib'
  cases found with
  | none => rfl
  | some m =>
    refine (Effect.run_bind_pure ..).trans ?_
    show _ = ((foundOf s m).map some, lib')
    rw [Effect.run_lift, foundOf]
    cases m.captureValues s <;> rfl

theorem run_allMatches (init : Option Int64) : (allMatches s source init).run.run lib =
    (Pattern.compile lib.options source >>= fun p =>
      .ok (Matches.ofPattern p s lib.options ((initOffset s init).getD (s.size + 1))),
      lib.compiled source) :=
  run_compile_bind hlib
    (fun p o => .ok (Matches.ofPattern p s o ((initOffset s init).getD (s.size + 1))))
    (fun _ _ => rfl) source

theorem run_substitute {σ : Type} (r : Replacement σ) (limit : Option Int64) (st : σ) :
    (substitute s source r limit st).run.run lib =
      (Pattern.compile lib.options source >>= fun p =>
        .ok (((Matcher.ofPattern p s lib.options).substitute r
          (limit.map fun n => n.toInt.toNat)).run.run st), lib.compiled source) :=
  run_compile_bind hlib
    (fun p o => .ok (((Matcher.ofPattern p s o).substitute r
      (limit.map fun n : Int64 => n.toInt.toNat)).run.run st)) (fun _ _ => rfl) source

end Run

/-- In a sound library the operation answers what the options make of it, and compiles the source if
there is one. -/
def Compiles (op : Effect Library α) (source? : Option Bytes) : Prop :=
  ∃ answer : Options → Except Error α, ∀ lib : Library, lib.Sound →
    op.run.run lib = (answer lib.options, source?.elim lib lib.compiled)

theorem elim_compiled_spec (h : lib.Sound) (source? : Option Bytes) :
    (source?.elim lib lib.compiled).options = lib.options ∧
      (source?.elim lib lib.compiled).Sound := by
  cases source? with
  | none => exact ⟨rfl, h⟩
  | some source => exact compiled_spec h source

namespace Compiles

theorem pure (a : α) : Compiles (Pure.pure a) none := ⟨fun _ => .ok a, fun _ _ => rfl⟩

theorem lift (x : Except Error α) : Compiles (liftM x) none := ⟨fun _ => x, fun _ _ => rfl⟩

theorem bind {x : Effect Library α} {f : α → Effect Library β} {source? : Option Bytes}
    (hx : Compiles x source?) (hf : ∀ a, Compiles (f a) none) : Compiles (x >>= f) source? := by
  obtain ⟨answer, hanswer⟩ := hx
  choose rest hrest using hf
  refine ⟨fun o => answer o >>= (rest · o), fun lib hlib => ?_⟩
  simp only [Effect.run_bind, hanswer lib hlib]
  cases answer lib.options with
  | error e => rfl
  | ok a =>
    obtain ⟨ho, hsound⟩ := elim_compiled_spec hlib source?
    have hrun := hrest a _ hsound
    rw [ho] at hrun
    exact hrun

theorem of_pattern {f : Compiled → Effect Library α} (answer : Pattern → Options → Except Error α)
    (hf : ∀ c lib, (f c).run.run lib = (answer c.pattern lib.options, lib)) (source : Bytes) :
    Compiles (compile source >>= f) (some source) :=
  ⟨fun o => Pattern.compile o source >>= (answer · o), fun _ hlib =>
    run_compile_bind hlib answer hf source⟩

theorem searchFrom (s : Subject) (source : Bytes) (i : Nat) :
    Compiles (Library.searchFrom s source i) (some source) :=
  of_pattern (fun p o => (Matcher.ofPattern p s o).find i) (fun _ _ => rfl) source

theorem find (s : Subject) (source : Bytes) (init : Option Int64) (plain : Bool) :
    Compiles (Library.find s source init plain)
      (if plain then none else (initOffset s init).map fun _ => source) := by
  unfold Library.find
  cases initOffset s init with
  | none =>
    rw [Option.map_none, ite_self]
    exact pure none
  | some i =>
    cases plain with
    | true => exact pure _
    | false =>
      refine (searchFrom s source i).bind fun found => ?_
      cases found with
      | none => exact pure none
      | some m => exact (lift (m.captureValues s)).bind fun _ => pure _

theorem firstValues (s : Subject) (source : Bytes) (init : Option Int64) :
    Compiles (Library.firstValues s source init) ((initOffset s init).map fun _ => source) := by
  unfold Library.firstValues
  cases initOffset s init with
  | none => exact pure none
  | some i =>
    refine (searchFrom s source i).bind fun found => ?_
    cases found with
    | none => exact pure none
    | some m => exact (lift (m.values s)).bind fun _ => pure _

theorem allMatches (s : Subject) (source : Bytes) (init : Option Int64) :
    Compiles (Library.allMatches s source init) (some source) :=
  of_pattern (fun p o => .ok (Matches.ofPattern p s o ((initOffset s init).getD (s.size + 1))))
    (fun _ _ => rfl) source

theorem substitute {σ : Type} (s : Subject) (source : Bytes) (r : Replacement σ)
    (limit : Option Int64) (st : σ) :
    Compiles (Library.substitute s source r limit st) (some source) :=
  of_pattern (fun p o => .ok (((Matcher.ofPattern p s o).substitute r
    (limit.map fun n : Int64 => n.toInt.toNat)).run.run st)) (fun _ _ => rfl) source

end Compiles

end Library
end BytePattern
