import BytePattern.Proofs.Match.Bounds
import BytePattern.Proofs.Replace.Assembly

/-!
# Nothing is read out of range

Reading an offset of the subject or a slot that does not exist is an error of its own, and so is taking a
capture that is still open, or a position, for a text. No operation with a compiled pattern ever meets
it (`neverOutOfRange`): not an attempt, whatever the slots hold that it starts from, not a search or a
sequence of matches, and not a substitution with a template. For an attempt without a limit that is part
of what it computes, and a limit only cuts it short (`Matcher.run_eq_or_exceeded`). A pending run and the
depth of a balanced span are counted less one, so that one can always be taken away.
-/
namespace BytePattern

namespace Template

variable {s : Subject} {m : Match}

theorem captureText_ne_outOfRange (h : m.Inside s) (n : Nat) :
    m.captureText s n ≠ .error .outOfRange := by
  unfold Match.captureText
  split
  · rename_i c hc
    obtain ⟨v, hv⟩ := h.value_eq_ok (List.mem_of_getElem? hc)
    rw [hv]
    exact nofun
  · split
    · rw [h.text_eq_ok]
      exact nofun
    · exact nofun

theorem escape_ne_outOfRange (h : m.Inside s) (d : UInt8) : escape s m d ≠ .error .outOfRange := by
  unfold escape
  split
  · exact nofun
  · split
    · rw [h.text_eq_ok]
      exact nofun
    · split
      · exact captureText_ne_outOfRange h _
      · exact nofun

theorem expand_ne_outOfRange (h : m.Inside s) (t : Bytes) : (expand s m t).2 ≠ some .outOfRange := by
  fun_induction expand s m t with
  | case1 => exact nofun
  | case2 => exact nofun
  | case3 d rest text _ out failure hrest ih => rwa [hrest] at ih
  | case4 d rest e he =>
    intro heq
    cases heq
    exact escape_ne_outOfRange h d he
  | case5 b rest _ out failure hrest ih => rwa [hrest] at ih

end Template

structure Match.Readable (s : Subject) (m : Match) : Prop where
  inside : m.Inside s
  text : ∃ bytes, m.text s = .ok bytes
  capture : ∀ c ∈ m.captures, ∃ v, c.value s = .ok v
  values : ∃ first rest, m.values s = .ok (first :: rest) ∧ m.firstValue s = .ok first

theorem Match.Inside.readable {s : Subject} {m : Match} (h : m.Inside s) : m.Readable s where
  inside := h
  text := ⟨_, h.text_eq_ok⟩
  capture _ hc := h.value_eq_ok hc
  values := h.values_eq_ok

namespace Matcher

def Passes (x : Matcher) (a b : Memory × Nat) : Prop :=
  x.attemptAt a.1 a.2 = (.ok none, b.1) ∧ a.2 < x.subject.size ∧ b.2 = a.2 + 1

theorem scan_of_passes {x : Matcher} {a b : Memory × Nat} (h : Relation.ReflTransGen x.Passes a b) :
    x.scan a.1 a.2 = x.scan b.1 b.2 := by
  induction h with
  | refl => rfl
  | tail _ hpass ih =>
    obtain ⟨hnone, hlt, hnext⟩ := hpass
    rw [ih, scan_of_none hnone, if_pos hlt, hnext]

theorem le_size_of_passes {x : Matcher} {a b : Memory × Nat} (ha : a.2 ≤ x.subject.size)
    (h : Relation.ReflTransGen x.Passes a b) : b.2 ≤ x.subject.size := by
  induction h with
  | refl => exact ha
  | tail _ hpass _ =>
    obtain ⟨_, hlt, hnext⟩ := hpass
    rw [hnext]
    exact hlt

section Compiled

variable {o : Options} {source : Bytes} {p : Pattern} (hp : Pattern.compile o source = .ok p)
  (s : Subject) (limit : Option Nat) {m : Memory} (hm : m.slots.length = captureLimit)

include hp hm

theorem tryMatch_outcome {start : Nat} (hs : start ≤ s.size) :
    (∃ l, (tryMatch ⟨p, s, limit⟩ m start).1 = .error (.budgetExceeded l)) ∨
    (tryMatch ⟨p, s, limit⟩ m start).1 = .ok none ∨
    ∃ stop captures, (tryMatch ⟨p, s, limit⟩ m start).1 = .ok (some stop) ∧
      (tryMatch ⟨p, s, limit⟩ m start).2.captures p.captureCount = .ok captures ∧
      Match.Inside s ⟨start, stop, captures⟩ := by
  have hfull : (tryMatch ⟨p, s, none⟩ m start).1 = .ok none ∨
      ∃ stop captures, (tryMatch ⟨p, s, none⟩ m start).1 = .ok (some stop) ∧
        (tryMatch ⟨p, s, none⟩ m start).2.captures p.captureCount = .ok captures ∧
        Match.Inside s ⟨start, stop, captures⟩ := by
    rcases tryMatch_cases hp s hs hm with ⟨m', ht, _⟩ | ⟨m', stop, _, captures, ht, hc, _⟩
    · exact .inl (by rw [ht])
    · have hattempt : (attempt ⟨p, s, none⟩ m start).1 = .ok (some ⟨start, stop, captures⟩) := by
        simp only [attempt, ht, hc]
        rfl
      refine .inr ⟨stop, captures, by rw [ht], by rw [ht, hc], ?_⟩
      exact attempt_inside hp s hs hm hattempt
  cases limit with
  | none => exact .inr hfull
  | some l =>
    rcases run_eq_or_exceeded ⟨p, s, none⟩ l m.clear (.items p.items start) with heq | he
    · have ht : tryMatch ⟨p, s, some l⟩ m start = tryMatch ⟨p, s, none⟩ m start := heq
      rw [ht]
      exact .inr hfull
    · exact .inl ⟨l, he⟩

theorem tryMatch_ne_outOfRange {start : Nat} (hs : start ≤ s.size) :
    (tryMatch ⟨p, s, limit⟩ m start).1 ≠ .error .outOfRange := by
  intro he
  rcases tryMatch_outcome hp s limit hm hs with ⟨l, h⟩ | h | ⟨stop, captures, h, _⟩
  · cases h.symm.trans he
  · cases h.symm.trans he
  · cases h.symm.trans he

theorem findAt_ne_outOfRange (init : Nat) :
    (findAt ⟨p, s, limit⟩ m init).1 ≠ .error .outOfRange := by
  intro he
  rcases findAt_finds hp s limit hm init with ⟨result, h, _⟩ | ⟨l, _, h⟩
  · cases h.symm.trans he
  · cases h.symm.trans he

end Compiled

theorem step_ne_outOfRange {x : Matcher} {a b : Memory × Focus} (h : x.Reaches a b)
    (hrun : (x.run a.1 a.2).1 ≠ .error .outOfRange) (m : Memory) :
    x.step b.1 b.2 ≠ .halt (.error .outOfRange) m := by
  -- a state in which a step would read out of range would let the whole attempt end so
  intro hstep
  rw [run_of_reaches h, run_of_halt hstep] at hrun
  exact hrun rfl

end Matcher

namespace Matches

variable {o : Options} {source : Bytes} {it : Matches}

theorem next_ne_outOfRange (hp : Pattern.compile o source = .ok it.pattern) :
    it.next.1 ≠ some (.error .outOfRange) := by
  intro h
  have hfind := find_of_next (Prod.ext h rfl : it.next = (some (.error .outOfRange), it.next.2))
  exact Matcher.findAt_ne_outOfRange hp it.subject it.options.stepLimit (m := .fresh) rfl it.offset hfind

theorem outOfRange_not_mem_toList (hp : Pattern.compile o source = .ok it.pattern) :
    .error .outOfRange ∉ it.toList := by
  fun_induction toList it with
  | case1 it r it' h ih =>
    intro hmem
    rcases List.mem_cons.1 hmem with heq | hmem
    · exact next_ne_outOfRange hp (by rw [h, heq])
    · exact ih (by rw [(keeps_of_next h).1, hp]) hmem
  | case2 => exact List.not_mem_nil

end Matches

theorem Replacement.ends_ne_outOfRange {σ : Type} {s : Subject} {t : Bytes}
    {found : List (Except Error Match)} (hfound : .error .outOfRange ∉ found)
    (hinside : ∀ m, .ok m ∈ found → m.Inside s) {st st' : σ}
    {result : Except Error (List (Match × Bytes))}
    (h : Replacement.Ends (.template t) s found st result st') : result ≠ .error .outOfRange := by
  cases h with
  | replaced _ _ => exact nofun
  | searchFailed heq _ =>
    intro he
    cases he
    exact hfound (by simp [heq])
  | @replacementFailed _ m _ _ _ _ heq _ hgives =>
    intro he
    cases he
    cases hgives with
    | misused hexpand =>
      have hm : .ok m ∈ found := by simp [heq]
      exact Template.expand_ne_outOfRange (hinside m hm) t (by rw [hexpand])

theorem Matcher.substitute_ne_outOfRange {σ : Type} {o : Options} {source : Bytes} {p : Pattern}
    (hp : Pattern.compile o source = .ok p) (s : Subject) (o' : Options) (t : Bytes)
    (quota : Option Nat) (st : σ) :
    (((ofPattern p s o').substitute (.template t) quota).run.run st).1 ≠ .error .outOfRange := by
  have hinside (m : Match) (hm : .ok m ∈ allowed quota (Matches.ofPattern p s o' 0).toList) :
      m.Inside s := Matches.inside_of_mem_toList hp (mem_of_mem_allowed hm)
  have hfound : .error .outOfRange ∉ allowed quota (Matches.ofPattern p s o' 0).toList :=
    fun hmem => Matches.outOfRange_not_mem_toList hp (mem_of_mem_allowed hmem)
  have hends := Replacement.ends_ne_outOfRange hfound hinside
    (Replacement.ends_texts (r := .template t) hinside st)
  have hass := substituteFrom_assembled hp s o' (.template t) (m := .fresh) rfl quota (Nat.le_refl 0)
    (Nat.zero_le _) st
  exact fun he => hends (hass.eq_error he)

/-- What holds of every operation with a pattern on a subject. -/
structure NeverOutOfRange (p : Pattern) (s : Subject) : Prop where
  states : ∀ (limit : Option Nat) (m : Memory) start m' f, m.slots.length = captureLimit → start ≤ s.size →
    Matcher.Reaches ⟨p, s, limit⟩ (m.clear, .items p.items start) (m', f) →
      m'.Bounded s.size ∧ f.Bounded s.size ∧
        ∀ m'', Matcher.step ⟨p, s, limit⟩ m' f ≠ .halt (.error .outOfRange) m''
  attempts : ∀ (limit : Option Nat) (m : Memory) start, m.slots.length = captureLimit → start ≤ s.size →
    (Matcher.tryMatch ⟨p, s, limit⟩ m start).1 ≠ .error .outOfRange ∧
    ∀ stop, (Matcher.tryMatch ⟨p, s, limit⟩ m start).1 = .ok (some stop) →
      ∃ captures, (Matcher.tryMatch ⟨p, s, limit⟩ m start).2.captures p.captureCount = .ok captures ∧
        Match.Readable s ⟨start, stop, captures⟩
  scans : ∀ (limit : Option Nat) (m : Memory) init m' i, init ≤ s.size →
    Relation.ReflTransGen (Matcher.Passes ⟨p, s, limit⟩) (m, init) (m', i) →
      i ≤ s.size ∧ Matcher.scan ⟨p, s, limit⟩ m init = Matcher.scan ⟨p, s, limit⟩ m' i
  searches : ∀ (limit : Option Nat) (m : Memory) init, m.slots.length = captureLimit →
    (Matcher.findAt ⟨p, s, limit⟩ m init).1 ≠ .error .outOfRange ∧
    ∀ found, (Matcher.findAt ⟨p, s, limit⟩ m init).1 = .ok (some found) → found.Readable s
  pulls : ∀ it : Matches, it.pattern = p → it.subject = s →
    it.next.1 ≠ some (.error .outOfRange) ∧ ∀ m, it.next.1 = some (.ok m) → m.Readable s
  substitutions : ∀ {σ : Type} (o : Options) (t : Bytes) (quota : Option Nat) (st : σ),
    (((Matcher.ofPattern p s o).substitute (.template t) quota).run.run st).1 ≠ .error .outOfRange

theorem neverOutOfRange {o : Options} {source : Bytes} {p : Pattern}
    (hp : Pattern.compile o source = .ok p) (s : Subject) : NeverOutOfRange p s where
  states limit m start m' f hm hs h := by
    have hrun := Matcher.tryMatch_ne_outOfRange hp s limit hm hs
    have hstart : (Focus.items p.items start).Bounded s.size := hs
    obtain ⟨hm', hf⟩ :=
      Matcher.bounded_of_reaches (x := ⟨p, s, limit⟩) (.clear s.size m) hstart h
    exact ⟨hm', hf, Matcher.step_ne_outOfRange h hrun⟩
  attempts limit m start hm hs := by
    refine ⟨Matcher.tryMatch_ne_outOfRange hp s limit hm hs, fun stop h => ?_⟩
    rcases Matcher.tryMatch_outcome hp s limit hm hs with ⟨l, h'⟩ | h' | ⟨_, captures, h', hc, hin⟩
    · cases h.symm.trans h'
    · cases h.symm.trans h'
    · cases h.symm.trans h'
      exact ⟨captures, hc, hin.readable⟩
  scans limit m init m' i hinit h :=
    ⟨Matcher.le_size_of_passes (x := ⟨p, s, limit⟩) hinit h, Matcher.scan_of_passes h⟩
  searches limit m init hm := ⟨Matcher.findAt_ne_outOfRange hp s limit hm init,
    fun found h => (Matcher.findAt_inside hp s hm h).readable⟩
  pulls it hpattern hsubject := by
    subst hpattern hsubject
    refine ⟨Matches.next_ne_outOfRange hp, fun m h => ?_⟩
    exact (Matches.inside_of_next hp (Prod.ext h rfl)).readable
  substitutions o' t quota st := Matcher.substitute_ne_outOfRange hp s o' t quota st

theorem neverOutOfRange_aaa : ∃ p, Pattern.compile {} [40, 97, 42, 41, 37, 49] = .ok p ∧
    NeverOutOfRange p #[97, 97, 97] := by
  have hp : Pattern.compile {} [40, 97, 42, 41, 37, 49] =
      .ok ⟨[40, 97, 42, 41, 37, 49], [.openCapture 0, .single (.byte 97) .zeroOrMore, .closeCapture 0,
        .backReference 0], [.substring], false⟩ := by
    cbv
  exact ⟨_, hp, neverOutOfRange hp #[97, 97, 97]⟩

end BytePattern
