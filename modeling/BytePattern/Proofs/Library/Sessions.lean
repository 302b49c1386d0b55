import Mathlib.Data.List.DropRight
import BytePattern.Library.Session
import BytePattern.Proofs.Library.Compiles
import BytePattern.Proofs.Search.AllMatches

/-!
# Sessions with and without a cache

Nothing that a session answers tells whether patterns are kept: sessions that agree on their options and
iterators give the same answers and go on to agree, step by step (`Alike.answer_eq`, `Alike.step`). An
iterator depends on no other request (`Pulled.step`). The cache has an entry for each source that was
compiled since it was cleared (`kept_after`, by induction on the requests), and the entry stays the same
until then (`Holds.step`). All of it is put together in `cacheOnlyKeeps`.
-/
namespace BytePattern

variable {σ : Type}

def Answer.content : Answer σ → Answer σ
  | .compiled c => .compiled { c with serial := 0 }
  | a => a

namespace Request

/-- The source that is compiled for a request. A plain search needs none, and a search that starts past
the end is not made. -/
def source? : Request σ → Option Bytes
  | .find s source init plain =>
    if plain then none else (Library.initOffset s init).map fun _ => source
  | .firstValues s source init => (Library.initOffset s init).map fun _ => source
  | .allValues _ source _ => some source
  | .substitute _ source _ _ _ => some source
  | .compile source => some source
  | .iterate _ _ source _ => some source
  | .next _ => none
  | .clear => none
  | .options => none

def clears : Request σ → Bool
  | .clear => true
  | _ => false

def started? (o : Options) : Request σ → Option (Nat × Matches)
  | .iterate id s source init =>
    match Pattern.compile o source with
    | .ok p => some (id, Matches.ofPattern p s o ((Library.initOffset s init).getD (s.size + 1)))
    | .error _ => none
  | _ => none

def pulls (id : Nat) : Request σ → Bool
  | .next id' => id' == id
  | _ => false

end Request

namespace Session

def after (ss : Session) (requests : List (Request σ)) : Session :=
  requests.foldl (fun ss r => (ss.step r).2) ss

theorem after_concat (ss : Session) (requests : List (Request σ)) (r : Request σ) :
    ss.after (requests ++ [r]) = ((ss.after requests).step r).2 := by
  rw [after, List.foldl_append]
  rfl

theorem after_append (ss : Session) (requests rest : List (Request σ)) :
    ss.after (requests ++ rest) = (ss.after requests).after rest := List.foldl_append

theorem run_append (ss : Session) (requests rest : List (Request σ)) :
    ss.run (requests ++ rest) = ss.run requests ++ (ss.after requests).run rest := by
  induction requests generalizing ss with
  | nil => rfl
  | cons r requests ih => exact congrArg (ss.step r :: ·) (ih (ss.step r).2)

section Step

variable {ss : Session}

theorem library_step (h : ss.library.Sound) (r : Request σ) : (ss.step r).2.library =
    if r.clears then ss.library.clear else r.source?.elim ss.library ss.library.compiled := by
  have hcompiles {α : Type} {op : Effect Library α} {source? : Option Bytes}
      (hop : Library.Compiles op source?) (answer : α → Answer σ) :
      (ss.withLibrary op answer).2.library = source?.elim ss.library ss.library.compiled := by
    obtain ⟨_, hrun⟩ := hop
    simp only [withLibrary, hrun _ h]
  cases r with
  | find s source init plain => exact hcompiles (.find s source init plain) _
  | firstValues s source init => exact hcompiles (.firstValues s source init) _
  | allValues s source init => exact hcompiles (.allMatches s source init) _
  | substitute s source r limit st => exact hcompiles (.substitute s source r limit st) _
  | compile source => rfl
  | iterate id s source init =>
    obtain ⟨_, hrun⟩ := Library.Compiles.allMatches s source init
    simp only [step, hrun _ h]
    split
    · rfl
    · rfl
  | next id => rfl
  | clear => rfl
  | options => rfl

theorem step_spec (h : ss.library.Sound) (r : Request σ) :
    (ss.step r).2.library.options = ss.library.options ∧ (ss.step r).2.library.Sound := by
  rw [library_step h]
  split
  · exact ⟨rfl, Library.sound_clear ss.library⟩
  · exact Library.elim_compiled_spec h _

theorem options_step (h : ss.library.Sound) (r : Request σ) :
    (ss.step r).2.library.options = ss.library.options := (step_spec h r).1

theorem sound_step (h : ss.library.Sound) (r : Request σ) : (ss.step r).2.library.Sound :=
  (step_spec h r).2

theorem after_of_step {P : Session → Prop} {requests : List (Request σ)} (h : ss.library.Sound)
    (hss : P ss) (hstep : ∀ ss : Session, ss.library.Sound → P ss → ∀ r ∈ requests, P (ss.step r).2) :
    P (ss.after requests) := by
  induction requests generalizing ss with
  | nil => exact hss
  | cons r requests ih =>
    apply ih (sound_step h r)
    · exact hstep ss h hss r (.head _)
    · intro ss' h' hss' r' hr'
      exact hstep ss' h' hss' r' (.tail _ hr')

theorem sound_after_ofOptions (o : Options) (cached : Bool) (requests : List (Request σ)) :
    ((ofOptions o cached).after requests).library.Sound ∧
      ((ofOptions o cached).after requests).library.options = o := by
  have hlib : (ofOptions o cached).library.Sound := Library.sound_ofOptions o cached
  refine after_of_step (P := fun ss => ss.library.Sound ∧ ss.library.options = o) hlib ⟨hlib, rfl⟩ ?_
  rintro ss h ⟨_, rfl⟩ r _
  exact ⟨sound_step h r, options_step h r⟩

end Step

structure Alike (ss ss' : Session) : Prop where
  options_eq : ss'.library.options = ss.library.options
  iterators_eq : ss'.iterators = ss.iterators
  sound : ss.library.Sound
  sound' : ss'.library.Sound

namespace Alike

variable {ss ss' : Session}

theorem answer_eq (h : Alike ss ss') (r : Request σ) :
    (ss'.step r).1.map Answer.content = (ss.step r).1.map Answer.content ∧
      (ss'.step r).2.iterators = (ss.step r).2.iterators := by
  have hcompiles {α : Type} {op : Effect Library α} {source? : Option Bytes}
      (hop : Library.Compiles op source?) (answer : α → Answer σ) :
      (ss'.withLibrary op answer).1.map Answer.content =
          (ss.withLibrary op answer).1.map Answer.content ∧
        (ss'.withLibrary op answer).2.iterators = (ss.withLibrary op answer).2.iterators := by
    obtain ⟨_, hrun⟩ := hop
    simp only [withLibrary, hrun _ h.sound, hrun _ h.sound', h.options_eq, h.iterators_eq, and_self]
  cases r with
  | find s source init plain => exact hcompiles (.find s source init plain) _
  | firstValues s source init => exact hcompiles (.firstValues s source init) _
  | allValues s source init => exact hcompiles (.allMatches s source init) _
  | substitute s source r limit st => exact hcompiles (.substitute s source r limit st) _
  | compile source =>
    -- the two objects have numbers of their own, and the content leaves them out
    have hcontent {lib : Library} (hlib : lib.Sound) :
        ((((Library.compile source).run.run lib).1.map Answer.compiled).map
            Answer.content : Except Error (Answer σ)) =
          (Pattern.compile lib.options source).map fun p => .compiled ⟨p, 0⟩ := by
      rcases Library.compile_cases hlib source with ⟨e, he, hrun⟩ | ⟨c, _, hc, hrun, _⟩
      · rw [hrun, he]
        rfl
      · rw [hrun, hc]
        rfl
    have hanswer := hcontent h.sound'
    rw [h.options_eq, ← hcontent h.sound] at hanswer
    exact ⟨hanswer, h.iterators_eq⟩
  | iterate id s source init =>
    simp only [Session.step, Library.run_allMatches h.sound, Library.run_allMatches h.sound',
      h.options_eq, h.iterators_eq]
    cases Pattern.compile ss.library.options source with
    | error e => exact ⟨rfl, rfl⟩
    | ok p => exact ⟨rfl, rfl⟩
  | next id =>
    simp only [Session.step, h.iterators_eq, and_self]
  | clear => exact ⟨rfl, h.iterators_eq⟩
  | options =>
    simp only [Session.step, h.options_eq, h.iterators_eq, and_self]

theorem step (h : Alike ss ss') (r : Request σ) : Alike (ss.step r).2 (ss'.step r).2 where
  options_eq := by rw [options_step h.sound, options_step h.sound', h.options_eq]
  iterators_eq := (h.answer_eq r).2
  sound := sound_step h.sound r
  sound' := sound_step h.sound' r

theorem run (h : Alike ss ss') (requests : List (Request σ)) :
    (ss'.run requests).map (·.1.map Answer.content) =
      (ss.run requests).map (·.1.map Answer.content) := by
  induction requests generalizing ss ss' with
  | nil => rfl
  | cons r requests ih =>
    simp only [Session.run, List.map_cons, (h.answer_eq r).1, ih (h.step r)]

theorem ofOptions (o : Options) : Alike (Session.ofOptions o false) (Session.ofOptions o true) :=
  ⟨rfl, rfl, Library.sound_ofOptions o false, Library.sound_ofOptions o true⟩

end Alike

end Session

namespace Matches

theorem after_succ (it : Matches) (n : Nat) : it.after (n + 1) = (it.after n).next.2 := by
  induction n generalizing it with
  | zero => rfl
  | succ n ih => exact ih it.next.2

def valuesAt (it : Matches) (n : Nat) : Except Error (Option (List CaptureValue)) :=
  match it.pull n with
  | none => .ok none
  | some r => (valuesOf it.subject r).map some

theorem valuesAt_eq (it : Matches) (n : Nat) : it.valuesAt n =
    match (it.after n).next.1 with
    | none => .ok none
    | some r => (valuesOf (it.after n).subject r).map some := by
  unfold valuesAt pull
  rw [(it.keeps_after n).2.1]

end Matches

namespace Session

def Pulled (ss : Session) (id : Nat) (it : Matches) (n : Nat) : Prop :=
  ss.iterators.lookup id = some (it.after n)

theorem lookup_replace (iterators : List (Nat × Matches)) (id id' : Nat) (it : Matches) :
    ((id', it) :: iterators.filter (·.1 != id')).lookup id =
      if id' = id then some it else iterators.lookup id := by
  by_cases hid : id' = id
  · rw [if_pos hid, hid, List.lookup_cons_self]
  · have hne : (id == id') = false := beq_eq_false_iff_ne.2 (Ne.symm hid)
    rw [if_neg hid, List.lookup_cons, hne]
    show (iterators.filter (·.1 != id')).lookup id = iterators.lookup id
    induction iterators with
    | nil => rfl
    | cons entry iterators ih =>
      obtain ⟨k, other⟩ := entry
      by_cases hk : k = id'
      · have hskip : (id == k) = false := by rw [hk, hne]
        rw [List.filter_cons_of_neg (by simp [hk]), List.lookup_cons, hskip]
        exact ih
      · rw [List.filter_cons_of_pos (by simp [hk]), List.lookup_cons, List.lookup_cons, ih]

namespace Pulled

variable {ss : Session} {id n : Nat} {it : Matches}

theorem next (h : Pulled ss id it n) :
    (ss.step (.next id : Request σ)).1 = (it.valuesAt n).map .values ∧
      Pulled (ss.step (.next id : Request σ)).2 id it (n + 1) := by
  have hpull : pull ss.iterators id = (it.valuesAt n,
      (id, it.after (n + 1)) :: ss.iterators.filter (·.1 != id)) := by
    have hlookup : ss.iterators.lookup id = some (it.after n) := h
    rw [it.valuesAt_eq, it.after_succ]
    unfold pull
    split
    · rename_i hnone
      cases hnone.symm.trans hlookup
    · rename_i current hcurrent
      cases hcurrent.symm.trans hlookup
      rfl
  constructor
  · simp only [Session.step, hpull]
  · simp only [Pulled, Session.step, hpull, List.lookup_cons_self]

theorem step (hlib : ss.library.Sound) (h : Pulled ss id it n) {r : Request σ}
    (hr : ∀ it', r.started? ss.library.options ≠ some (id, it')) :
    Pulled (ss.step r).2 id it (n + if r.pulls id then 1 else 0) := by
  cases r with
  | find | firstValues | allValues | substitute | compile | clear | options => exact h
  | iterate id' s source init =>
    simp only [Request.started?] at hr
    simp only [Pulled, Session.step, Library.run_allMatches hlib]
    cases hp : Pattern.compile ss.library.options source with
    | error e => exact h
    | ok p =>
      rw [hp] at hr
      have hne : id' ≠ id := by
        rintro rfl
        exact hr _ rfl
      exact (lookup_replace _ id id' _).trans ((if_neg hne).trans h)
  | next id' =>
    by_cases hid : id' = id
    · subst hid
      have hpulls : (Request.next id' : Request σ).pulls id' = true := beq_self_eq_true id'
      rw [if_pos hpulls]
      exact h.next.2
    · have hpulls : ¬ (Request.next id' : Request σ).pulls id = true := by simpa [Request.pulls]
      rw [if_neg hpulls]
      simp only [Pulled, Session.step, pull]
      split
      · exact h
      · exact (lookup_replace _ id id' _).trans ((if_neg hid).trans h)

theorem after (hlib : ss.library.Sound) (h : Pulled ss id it n) {requests : List (Request σ)}
    (hr : ∀ r ∈ requests, ∀ it', r.started? ss.library.options ≠ some (id, it')) :
    Pulled (ss.after requests) id it (n + requests.countP (·.pulls id)) := by
  induction requests generalizing ss n with
  | nil => exact h
  | cons r requests ih =>
    have hstep := h.step hlib (hr r (.head _))
    rw [List.countP_cons, Nat.add_comm (requests.countP _), ← Nat.add_assoc]
    refine ih (sound_step hlib r) hstep fun r' hr' => ?_
    rw [options_step hlib]
    exact hr r' (.tail _ hr')

end Pulled

theorem pulled_of_started {ss : Session} (hlib : ss.library.Sound) {r : Request σ} {id : Nat}
    {it : Matches} (h : r.started? ss.library.options = some (id, it)) :
    Pulled (ss.step r).2 id it 0 := by
  cases r with
  | iterate id' s source init =>
    simp only [Request.started?] at h
    simp only [Pulled, step, Library.run_allMatches hlib]
    split at h
    · rename_i p hp
      cases h
      rw [hp]
      exact List.lookup_cons_self
    · cases h
  | find | firstValues | allValues | substitute | compile | next | clear | options => cases h

structure Kept (o : Options) (requests : List (Request σ)) (entries : Cache) : Prop where
  nodup : (entries.map Prod.fst).Nodup
  mem_iff : ∀ source, source ∈ entries.map Prod.fst ↔
    (∃ r ∈ requests, r.source? = some source) ∧ ∃ p, Pattern.compile o source = .ok p

namespace Kept

variable {o : Options} {requests : List (Request σ)} {entries : Cache}

theorem nil (o : Options) : Kept o ([] : List (Request σ)) [] where
  nodup := .nil
  mem_iff _ := by simp

theorem concat (h : Kept o requests entries) {r : Request σ}
    (hr : ∀ source, r.source? = some source →
      source ∈ entries.map Prod.fst ∨ ∃ e, Pattern.compile o source = .error e) :
    Kept o (requests ++ [r]) entries where
  nodup := h.nodup
  mem_iff source := by
    constructor
    · intro hmem
      obtain ⟨⟨r', hr', hsource⟩, hp⟩ := (h.mem_iff source).1 hmem
      exact ⟨⟨r', List.mem_append_left _ hr', hsource⟩, hp⟩
    · rintro ⟨⟨r', hr', hsource⟩, p, hp⟩
      rcases List.mem_append.1 hr' with hold | hlast
      · exact (h.mem_iff source).2 ⟨⟨r', hold, hsource⟩, p, hp⟩
      · obtain rfl := List.mem_singleton.1 hlast
        rcases hr source hsource with hmem | ⟨e, he⟩
        · exact hmem
        · cases he.symm.trans hp

theorem concat_cons (h : Kept o requests entries) {r : Request σ} {source : Bytes} {c : Compiled}
    (hr : r.source? = some source) (hnew : source ∉ entries.map Prod.fst)
    (hp : Pattern.compile o source = .ok c.pattern) :
    Kept o (requests ++ [r]) ((source, c) :: entries) where
  nodup := List.nodup_cons.2 ⟨hnew, h.nodup⟩
  mem_iff other := by
    rw [List.map_cons, List.mem_cons, h.mem_iff]
    constructor
    · rintro (rfl | ⟨⟨r', hr', hsource⟩, hp'⟩)
      · exact ⟨⟨r, by simp, hr⟩, _, hp⟩
      · exact ⟨⟨r', List.mem_append_left _ hr', hsource⟩, hp'⟩
    · rintro ⟨⟨r', hr', hsource⟩, hp'⟩
      rcases List.mem_append.1 hr' with hold | hlast
      · exact .inr ⟨⟨r', hold, hsource⟩, hp'⟩
      · obtain rfl := List.mem_singleton.1 hlast
        exact .inl (Option.some.inj (hsource.symm.trans hr))

end Kept

theorem kept_after (o : Options) (requests : List (Request σ)) :
    ∃ entries, ((ofOptions o true).after requests).library.cache = some entries ∧
      Kept o (requests.rtakeWhile fun r => !r.clears) entries := by
  induction requests using List.reverseRecOn with
  | nil => exact ⟨[], rfl, .nil o⟩
  | append_singleton requests r ih =>
    obtain ⟨entries, hcache, hkept⟩ := ih
    obtain ⟨hlib, ho⟩ := sound_after_ofOptions o true requests
    rw [after_concat, library_step hlib, List.rtakeWhile_concat]
    generalize ((ofOptions o true).after requests).library = lib at *
    cases hclears : r.clears with
    | true => exact ⟨[], by simp [Library.clear, hcache], .nil o⟩
    | false =>
      simp only [Bool.false_eq_true, if_false, Bool.not_false, if_true]
      cases hsource : r.source? with
      | none => exact ⟨entries, hcache, hkept.concat (by simp [hsource])⟩
      | some source =>
        rcases Library.compiled_cases hcache source with ⟨hsame, hold⟩ | ⟨c, hnew, hp, hc⟩
        · rw [ho] at hold
          refine ⟨entries, by rw [Option.elim_some, hsame, hcache], hkept.concat fun source' h => ?_⟩
          cases hsource.symm.trans h
          exact hold
        · rw [ho] at hp
          exact ⟨_, hc, hkept.concat_cons hsource hnew hp⟩

def Holds (ss : Session) (source : Bytes) (c : Compiled) : Prop :=
  ∃ entries, ss.library.cache = some entries ∧ entries.lookup source = some c

theorem Holds.step {ss : Session} {source : Bytes} {c : Compiled} (hlib : ss.library.Sound)
    (h : Holds ss source c) {r : Request σ} (hr : r.clears = false) : Holds (ss.step r).2 source c := by
  obtain ⟨entries, hcache, hlookup⟩ := h
  unfold Holds
  rw [library_step hlib, hr, if_neg Bool.false_ne_true]
  cases r.source? with
  | none => exact ⟨entries, hcache, hlookup⟩
  | some other =>
    rcases Library.compiled_cases hcache other with ⟨hsame, _⟩ | ⟨c', hnew, _, hc⟩
    · exact ⟨entries, by rw [Option.elim_some, hsame, hcache], hlookup⟩
    · refine ⟨_, hc, ?_⟩
      have hne : (source == other) = false := by
        refine beq_eq_false_iff_ne.2 ?_
        rintro rfl
        exact hnew (Library.mem_keys_of_lookup hlookup)
      rw [List.lookup_cons, hne, hlookup]

theorem Holds.after {ss : Session} {source : Bytes} {c : Compiled} (hlib : ss.library.Sound)
    (h : Holds ss source c) {requests : List (Request σ)} (hr : ∀ r ∈ requests, r.clears = false) :
    Holds (ss.after requests) source c := by
  refine after_of_step (P := fun ss => Holds ss source c) hlib h ?_
  intro ss hlib h r hmem
  exact h.step hlib (hr r hmem)

theorem holds_of_compile {ss : Session} {source : Bytes} {c : Compiled} {entries : Cache}
    (hcache : ss.library.cache = some entries)
    (h : (ss.step (.compile source : Request σ)).1 = .ok (.compiled c)) :
    Holds (ss.step (.compile source : Request σ)).2 source c := by
  simp only [step, withLibrary] at h ⊢
  unfold Holds
  cases hlookup : entries.lookup source with
  | some kept =>
    rw [Library.run_compile_of_kept hcache hlookup] at h ⊢
    cases h
    exact ⟨entries, hcache, hlookup⟩
  | none =>
    rw [Library.run_compile_of_missing hcache hlookup, Library.run_compileFresh] at h ⊢
    cases hp : Pattern.compile ss.library.options source with
    | error e =>
      rw [hp] at h
      cases h
    | ok p =>
      rw [hp] at h
      cases h
      exact ⟨_, rfl, List.lookup_cons_self⟩

theorem Holds.compile {ss : Session} {source : Bytes} {c : Compiled} (h : Holds ss source c) :
    (ss.step (.compile source : Request σ)).1 = .ok (.compiled c) := by
  obtain ⟨entries, hcache, hlookup⟩ := h
  simp only [Session.step, withLibrary, Library.run_compile_of_kept hcache hlookup]
  rfl

def Made (ss : Session) (n : Nat) : Prop := ss.library.cache = none ∧ n ≤ ss.library.compilations

theorem Made.step {ss : Session} {n : Nat} (hlib : ss.library.Sound) (h : Made ss n) (r : Request σ) :
    Made (ss.step r).2 n := by
  obtain ⟨hcache, hn⟩ := h
  unfold Made
  rw [library_step hlib]
  split
  · exact ⟨by rw [Library.clear, hcache, Option.map_none], hn⟩
  · cases r.source? with
    | none => exact ⟨hcache, hn⟩
    | some source =>
      obtain ⟨hcache', hle⟩ := Library.compiled_of_uncached hcache source
      exact ⟨hcache', Nat.le_trans hn hle⟩

theorem Made.after {ss : Session} {n : Nat} (hlib : ss.library.Sound) (h : Made ss n)
    (requests : List (Request σ)) : Made (ss.after requests) n := by
  refine after_of_step (P := fun ss => Made ss n) hlib h ?_
  intro ss hlib h r _
  exact h.step hlib r

theorem Made.compile {ss : Session} {n : Nat} {source : Bytes} {c : Compiled} (h : Made ss n)
    (hc : (ss.step (.compile source : Request σ)).1 = .ok (.compiled c)) :
    n ≤ c.serial ∧ Made (ss.step (.compile source : Request σ)).2 (c.serial + 1) := by
  obtain ⟨hcache, hn⟩ := h
  simp only [Session.step, withLibrary, Library.run_compile_of_uncached hcache,
    Library.run_compileFresh] at hc ⊢
  cases hp : Pattern.compile ss.library.options source with
  | error e =>
    rw [hp] at hc
    cases hc
  | ok p =>
    rw [hp] at hc
    cases hc
    exact ⟨hn, hcache, Nat.le_refl _⟩

structure CacheOnlyKeeps (σ : Type) (o : Options) : Prop where
  answers : ∀ requests : List (Request σ),
    ((ofOptions o true).run requests).map (·.1.map Answer.content) =
      ((ofOptions o false).run requests).map (·.1.map Answer.content)
  /-- Whatever comes between its pulls, an iterator gives what its matches give when they are pulled on
  their own. -/
  iterators : ∀ cached (before rest : List (Request σ)) (r : Request σ) id it,
    r.started? o = some (id, it) → (∀ r' ∈ rest, ∀ it', r'.started? o ≠ some (id, it')) →
      (((ofOptions o cached).after (before ++ r :: rest)).step (.next id : Request σ)).1 =
        (it.valuesAt (rest.countP (·.pulls id))).map .values
  /-- After any requests there are entries for what was compiled since the cache was cleared, and no
  others. -/
  entries : ∀ requests : List (Request σ), ∃ entries,
    ((ofOptions o true).after requests).library.cache = some entries ∧
      Kept o (requests.rtakeWhile fun r => !r.clears) entries ∧
      ∀ source c, (source, c) ∈ entries → Pattern.compile o source = .ok c.pattern
  /-- Until it is cleared, the cache gives out the object that was compiled first. -/
  objects : ∀ (before rest : List (Request σ)) source c, (∀ r ∈ rest, r.clears = false) →
    (((ofOptions o true).after before).step (.compile source : Request σ)).1 = .ok (.compiled c) →
      (((ofOptions o true).after (before ++ .compile source :: rest)).step
        (.compile source : Request σ)).1 = .ok (.compiled c)
  /-- Without a cache each is an object of its own. -/
  distinct : ∀ (before rest : List (Request σ)) source source' c c',
    (((ofOptions o false).after before).step (.compile source : Request σ)).1 = .ok (.compiled c) →
      (((ofOptions o false).after (before ++ .compile source :: rest)).step
        (.compile source' : Request σ)).1 = .ok (.compiled c') → c.serial < c'.serial

theorem cacheOnlyKeeps (o : Options) : CacheOnlyKeeps σ o where
  answers requests := (Alike.ofOptions o).run requests
  iterators cached before rest r id it hr hrest := by
    obtain ⟨hlib, ho⟩ := sound_after_ofOptions o cached before
    rw [after_append]
    generalize (ofOptions o cached).after before = ss at hlib ho ⊢
    subst ho
    have hstart := pulled_of_started hlib hr
    rw [← options_step hlib r] at hrest
    have hpulled := hstart.after (sound_step hlib r) hrest
    rw [Nat.zero_add] at hpulled
    exact hpulled.next.1
  entries requests := by
    obtain ⟨hlib, ho⟩ := sound_after_ofOptions o true requests
    obtain ⟨entries, hcache, hkept⟩ := kept_after o requests
    refine ⟨entries, hcache, hkept, fun source c hc => ?_⟩
    rw [← ho]
    exact hlib entries hcache source c hc
  objects before rest source c hrest h := by
    obtain ⟨hlib, _⟩ := sound_after_ofOptions o true before
    obtain ⟨entries, hcache, _⟩ := kept_after o before
    rw [after_append]
    have hholds := holds_of_compile hcache h
    exact (hholds.after (sound_step hlib _) hrest).compile
  distinct before rest source source' c c' hc hc' := by
    obtain ⟨hlib, _⟩ := sound_after_ofOptions o false before
    have hstart : Made (ofOptions o false) 0 := ⟨rfl, Nat.zero_le _⟩
    have hbefore := hstart.after (Library.sound_ofOptions o false) before
    rw [after_append] at hc'
    have hmade := (hbefore.compile hc).2.after (sound_step hlib _) rest
    exact (hmade.compile hc').1

end Session
end BytePattern
