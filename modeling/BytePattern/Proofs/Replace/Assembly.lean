import BytePattern.Replace.Substitute
import BytePattern.Proofs.Search.AllMatches
import BytePattern.Proofs.Search.Stale

/-!
# Substitution follows the sequence of matches

A substitution searches with one memory from beginning to end, and yet it meets the matches that the
sequence of all matches gives, one new memory for each (`Matcher.substituteFrom_assembled`, by induction on what
is left of the subject). So its result is put together from three parts: the matches that the quota
allows (`allowed`), the texts that they get in turn (`Replacement.texts`), and the bytes between
them (`interleave`). What such a run can end in is `Replacement.Ends`.
-/
namespace BytePattern

variable {σ : Type}

def allowed {α : Type} (quota : Option Nat) (l : List α) : List α := quota.elim l l.take

def Replacement.texts (r : Replacement σ) (s : Subject) :
    List (Except Error Match) → Effect σ (List (Match × Bytes))
  | [] => return []
  | found :: rest => do
    let m ← found
    let text ← r.textFor s m
    return (m, text) :: (← r.texts s rest)

def interleave (s : Subject) : Nat → List (Match × Bytes) → Option Bytes
  | copied, [] => s.slice? copied s.size
  | copied, (m, text) :: rest => do
    let gap ← s.slice? copied m.start
    return gap ++ text ++ (← interleave s m.stop rest)

inductive Assembled (s : Subject) (copied : Nat) :
    Except Error (List (Match × Bytes)) × σ → Except Error (Bytes × Nat) × σ → Prop
  | ok {done : List (Match × Bytes)} {out : Bytes} {st : σ} : interleave s copied done = some out →
      Assembled s copied (.ok done, st) (.ok (out, done.length), st)
  | error {e : Error} {st : σ} : Assembled s copied (.error e, st) (.error e, st)

theorem Assembled.cons {s : Subject} {copied : Nat} {m : Match} {gap : Bytes}
    {texts : Except Error (List (Match × Bytes)) × σ} {answer : Except Error (Bytes × Nat) × σ}
    (hgap : s.slice? copied m.start = some gap) (text : Bytes)
    (h : Assembled s m.stop texts answer) :
    Assembled s copied (texts.1.map ((m, text) :: ·), texts.2)
      (answer.1.map fun (out, n) => (gap ++ text ++ out, n + 1), answer.2) := by
  cases h with
  | ok hout =>
    refine .ok ?_
    simp only [interleave, hgap, hout]
    rfl
  | error => exact .error

theorem Assembled.eq_error {s : Subject} {copied : Nat}
    {texts : Except Error (List (Match × Bytes)) × σ} {answer : Except Error (Bytes × Nat) × σ}
    {e : Error} (h : Assembled s copied texts answer) (he : answer.1 = .error e) :
    texts.1 = .error e := by
  cases h with
  | ok _ => cases he
  | error =>
    cases he
    rfl

inductive ReplaceValue.Texts (matched : Bytes) : ReplaceValue → Except Error Bytes → Prop
  | nil : Texts matched .nil (.ok matched)
  | false : Texts matched (.boolean false) (.ok matched)
  | text {v : ReplaceValue} {bytes : Bytes} : v.toBytes? = some bytes → Texts matched v (.ok bytes)
  | refused {v : ReplaceValue} : v.keepsMatch = false → v.toBytes? = none →
      Texts matched v (.error (.badValue v.typeName))

/-- The text for a match, or why there is none, with the state before and after. The function is called
once and with all values, the lookup once and with the first. -/
inductive Replacement.Gives (s : Subject) (m : Match) :
    Replacement σ → σ → Except Error Bytes → σ → Prop
  | expanded {t out : Bytes} {st : σ} : Template.expand s m t = (out, none) →
      Gives s m (.template t) st (.ok out) st
  | misused {t out : Bytes} {e : Error} {st : σ} : Template.expand s m t = (out, some e) →
      Gives s m (.template t) st (.error e) st
  | called {call : List CaptureValue → Effect σ ReplaceValue} {values : List CaptureValue}
      {v : ReplaceValue} {matched : Bytes} {text : Except Error Bytes} {st st' : σ} :
      m.values s = .ok values → (call values).run.run st = (.ok v, st') →
      m.text s = .ok matched → v.Texts matched text → Gives s m (.function call) st text st'
  | callFailed {call : List CaptureValue → Effect σ ReplaceValue} {values : List CaptureValue}
      {e : Error} {st st' : σ} :
      m.values s = .ok values → (call values).run.run st = (.error e, st') →
      Gives s m (.function call) st (.error e) st'
  | gotten {get : CaptureValue → Effect σ ReplaceValue} {first : CaptureValue}
      {values : List CaptureValue} {v : ReplaceValue} {matched : Bytes} {text : Except Error Bytes}
      {st st' : σ} :
      m.values s = .ok (first :: values) → (get first).run.run st = (.ok v, st') →
      m.text s = .ok matched → v.Texts matched text → Gives s m (.lookup get) st text st'
  | getFailed {get : CaptureValue → Effect σ ReplaceValue} {first : CaptureValue}
      {values : List CaptureValue} {e : Error} {st st' : σ} :
      m.values s = .ok (first :: values) → (get first).run.run st = (.error e, st') →
      Gives s m (.lookup get) st (.error e) st'

namespace Replacement

inductive Replaced (r : Replacement σ) (s : Subject) : σ → List (Match × Bytes) → σ → Prop
  | nil {st : σ} : Replaced r s st [] st
  | cons {m : Match} {text : Bytes} {done : List (Match × Bytes)} {st st₁ st₂ : σ} :
      r.Gives s m st (.ok text) st₁ → Replaced r s st₁ done st₂ → Replaced r s st ((m, text) :: done) st₂

/-- How replacing what was found ends: with all of it replaced, or with the first error, which is one of
searching or one of replacing. -/
inductive Ends (r : Replacement σ) (s : Subject) (found : List (Except Error Match)) (st : σ) :
    Except Error (List (Match × Bytes)) → σ → Prop
  | replaced {done : List (Match × Bytes)} {st' : σ} : found = done.map (.ok ·.1) →
      r.Replaced s st done st' → Ends r s found st (.ok done) st'
  | searchFailed {done : List (Match × Bytes)} {e : Error} {rest : List (Except Error Match)}
      {st' : σ} : found = done.map (.ok ·.1) ++ .error e :: rest →
      r.Replaced s st done st' → Ends r s found st (.error e) st'
  | replacementFailed {done : List (Match × Bytes)} {m : Match} {e : Error}
      {rest : List (Except Error Match)} {st₁ st' : σ} : found = done.map (.ok ·.1) ++ .ok m :: rest →
      r.Replaced s st done st₁ → r.Gives s m st₁ (.error e) st' → Ends r s found st (.error e) st'

theorem textOfValue_texts {s : Subject} {m : Match} {matched : Bytes} (h : m.text s = .ok matched)
    (v : ReplaceValue) : v.Texts matched (textOfValue s m v) := by
  unfold textOfValue
  split
  · rename_i hkeeps
    rw [h]
    cases v with
    | nil => exact .nil
    | boolean b =>
      cases b with
      | false => exact .false
      | true => cases hkeeps
    | integer | number | text | other => cases hkeeps
  · rename_i hkeeps
    split
    · exact .text ‹_›
    · exact .refused (Bool.eq_false_iff.2 hkeeps) ‹_›

theorem gives_textFor (r : Replacement σ) {s : Subject} {m : Match} (h : m.Inside s) (st : σ) :
    r.Gives s m st ((r.textFor s m).run.run st).1 ((r.textFor s m).run.run st).2 := by
  obtain ⟨first, values, hvalues, hfirst⟩ := h.values_eq_ok
  have htext := h.text_eq_ok
  cases r with
  | template t =>
    simp only [textFor]
    split
    · exact .expanded ‹_›
    · exact .misused ‹_›
  | function call =>
    simp only [textFor, hvalues, Effect.run_bind, Effect.run_lift]
    rcases hcall : (call (first :: values)).run.run st with ⟨e | v, st'⟩
    · exact .callFailed hvalues hcall
    · exact .called hvalues hcall htext (textOfValue_texts htext v)
  | lookup get =>
    simp only [textFor, hfirst, Effect.run_bind, Effect.run_lift]
    rcases hget : (get first).run.run st with ⟨e | v, st'⟩
    · exact .getFailed hvalues hget
    · exact .gotten hvalues hget htext (textOfValue_texts htext v)

section Texts

variable {r : Replacement σ} {s : Subject} {m : Match} {rest : List (Except Error Match)} {st st₁ : σ}

theorem run_texts_of_textFor_error {e : Error} (h : (r.textFor s m).run.run st = (.error e, st₁)) :
    (r.texts s (.ok m :: rest)).run.run st = (.error e, st₁) := by
  simp only [texts, Effect.run_bind, Effect.run_lift, h]

theorem run_texts_of_textFor_ok {text : Bytes} (h : (r.textFor s m).run.run st = (.ok text, st₁)) :
    (r.texts s (.ok m :: rest)).run.run st =
      (((r.texts s rest).run.run st₁).1.map ((m, text) :: ·), ((r.texts s rest).run.run st₁).2) := by
  simp only [texts, Effect.run_bind, Effect.run_lift, h]
  rw [← Effect.run_bind, Effect.run_bind_pure]

theorem ends_texts {found : List (Except Error Match)} (h : ∀ m, .ok m ∈ found → m.Inside s) (st : σ) :
    r.Ends s found st ((r.texts s found).run.run st).1 ((r.texts s found).run.run st).2 := by
  induction found generalizing st with
  | nil => exact .replaced rfl .nil
  | cons a rest ih =>
    cases a with
    | error e => exact .searchFailed (by rfl) .nil
    | ok m =>
      have hgives := r.gives_textFor (h m (.head _)) st
      rcases htext : (r.textFor s m).run.run st with ⟨e | text, st₁⟩
      · rw [htext] at hgives
        rw [run_texts_of_textFor_error htext]
        exact .replacementFailed (by rfl) .nil hgives
      · rw [htext] at hgives
        rw [run_texts_of_textFor_ok htext]
        have hrest := ih (fun m' hm' => h m' (.tail _ hm')) st₁
        rcases hdone : (r.texts s rest).run.run st₁ with ⟨e | done, st₂⟩
        · rw [hdone] at hrest
          cases hrest with
          | searchFailed hfound hrep =>
            exact .searchFailed (congrArg (_ :: ·) hfound) (.cons hgives hrep)
          | replacementFailed hfound hrep hfail =>
            exact .replacementFailed (congrArg (_ :: ·) hfound) (.cons hgives hrep) hfail
        · rw [hdone] at hrest
          cases hrest with
          | replaced hfound hrep => exact .replaced (congrArg (_ :: ·) hfound) (.cons hgives hrep)

end Texts

end Replacement

section Allowed

variable {α β : Type} {quota : Option Nat}

theorem allowed_zero (l : List α) : allowed (some 0) l = [] := rfl

theorem allowed_nil (quota : Option Nat) : allowed quota ([] : List α) = [] := by
  cases quota with
  | none => rfl
  | some n => exact List.take_nil

theorem allowed_cons (h : quota ≠ some 0) (a : α) (l : List α) :
    allowed quota (a :: l) = a :: allowed (quota.map (· - 1)) l := by
  cases quota with
  | none => rfl
  | some n =>
    cases n with
    | zero => exact absurd rfl h
    | succ n => rfl

theorem mem_of_mem_allowed {l : List α} {a : α} (h : a ∈ allowed quota l) : a ∈ l := by
  cases quota with
  | none => exact h
  | some n => exact List.mem_of_mem_take h

theorem allowed_map (quota : Option Nat) (f : α → β) (l : List α) :
    allowed quota (l.map f) = (allowed quota l).map f := by
  cases quota with
  | none => rfl
  | some n => exact List.map_take.symm

end Allowed

namespace Matcher

section Steps

variable {x : Matcher} {r : Replacement σ} {m : Memory} {quota : Option Nat} {i copied : Nat}
  {st st₁ : σ}

theorem run_substituteFrom_of_none {tail : Bytes}
    (h : quota = some 0 ∨ (x.findAt m i).1 = .ok none)
    (htail : x.subject.slice? copied x.subject.size = some tail) :
    (x.substituteFrom r m quota i copied).run.run st = (.ok (tail, 0), st) := by
  have hstop : x.substituteFrom r m quota i copied = do
      return (← inRange (x.subject.slice? copied x.subject.size), 0) := by
    rw [substituteFrom]
    split
    · rfl
    · rename_i hq
      replace h := h.resolve_left hq
      split <;> simp_all
  rw [hstop, htail]
  rfl

theorem substituteFrom_of_error (hq : quota ≠ some 0) {e : Error} (h : (x.findAt m i).1 = .error e) :
    x.substituteFrom r m quota i copied = throw e := by
  rw [substituteFrom, if_neg hq]
  split <;> simp_all

section Found

variable (hq : quota ≠ some 0) {found : Match} (h : (x.findAt m i).1 = .ok (some found)) {gap : Bytes}
  (hgap : x.subject.slice? copied found.start = some gap)

include hq h

theorem substituteFrom_of_some : x.substituteFrom r m quota i copied = do
      let gap ← inRange (x.subject.slice? copied found.start)
      let text ← r.textFor x.subject found
      if x.pattern.anchored then
        return (gap ++ text ++ (← inRange (x.subject.slice? found.stop x.subject.size)), 1)
      else
        let (out, n) ← x.substituteFrom r (x.findAt m i).2 (quota.map (· - 1)) found.resumeAt
          found.stop
        return (gap ++ text ++ out, n + 1) := by
  rw [substituteFrom, if_neg hq]
  split
  · simp_all
  · simp_all
  · rename_i h'
    rw [h'] at h
    cases h
    rw [h']

include hgap

theorem run_substituteFrom_of_textFor_error {e : Error}
    (htext : (r.textFor x.subject found).run.run st = (.error e, st₁)) :
    (x.substituteFrom r m quota i copied).run.run st = (.error e, st₁) := by
  rw [substituteFrom_of_some hq h, hgap]
  simp only [Effect.run_bind, Effect.run_lift, inRange_some, htext]

variable {text : Bytes} (htext : (r.textFor x.subject found).run.run st = (.ok text, st₁))

include htext

theorem run_substituteFrom_of_anchored (ha : x.pattern.anchored = true) {tail : Bytes}
    (htail : x.subject.slice? found.stop x.subject.size = some tail) :
    (x.substituteFrom r m quota i copied).run.run st = (.ok (gap ++ text ++ tail, 1), st₁) := by
  rw [substituteFrom_of_some hq h, hgap, htail]
  simp only [Effect.run_bind, Effect.run_lift, inRange_some, htext, ha, if_true, Effect.run_pure]

theorem run_substituteFrom_of_unanchored (ha : x.pattern.anchored = false) :
    (x.substituteFrom r m quota i copied).run.run st =
      let answer := (x.substituteFrom r (x.findAt m i).2 (quota.map (· - 1)) found.resumeAt
        found.stop).run.run st₁
      (answer.1.map fun (out, n) => (gap ++ text ++ out, n + 1), answer.2) := by
  rw [substituteFrom_of_some hq h, hgap]
  simp only [Effect.run_bind, Effect.run_lift, inRange_some, htext, ha, Bool.false_eq_true, if_false]
  rw [← Effect.run_bind, Effect.run_bind_pure]

end Found

end Steps

section Compiled

variable {o : Options} {source : Bytes} {p : Pattern} (hp : Pattern.compile o source = .ok p)
  (s : Subject) (o' : Options) (r : Replacement σ)

include hp

theorem substituteFrom_assembled {m : Memory} (hm : m.slots.length = captureLimit)
    (quota : Option Nat) {i copied : Nat} (hi : copied ≤ i) (hs : copied ≤ s.size) (st : σ) :
    Assembled s copied
      ((r.texts s (allowed quota (Matches.ofPattern p s o' i).toList)).run.run st)
      (((ofPattern p s o').substituteFrom r m quota i copied).run.run st) := by
  induction hn : s.size + 1 - i using Nat.strong_induction_on generalizing m quota i copied st with
  | _ n ih =>
    have htail := Subject.slice?_eq_some hs (Nat.le_refl s.size)
    by_cases hq : quota = some 0
    · rw [run_substituteFrom_of_none (.inl hq) htail, hq, allowed_zero]
      exact .ok htail
    · have hfind : ((ofPattern p s o').findAt m i).1 = (ofPattern p s o').find i :=
        findAt_fst_eq hp s o'.stepLimit hm i
      rcases hf : (ofPattern p s o').find i with e | _ | found
      · rw [hf] at hfind
        rw [Matches.toList_of_find_error hf, allowed_cons hq, substituteFrom_of_error hq hfind]
        exact .error
      · rw [hf] at hfind
        rw [Matches.toList_of_find_none hf, allowed_nil,
          run_substituteFrom_of_none (.inr hfind) htail]
        exact .ok htail
      · rw [hf] at hfind
        have hin : found.Inside s := findAt_inside hp s hm hfind
        have hstart := le_start_of_find hf
        have hgap := Subject.slice?_eq_some (Nat.le_trans hi hstart)
          (Nat.le_trans hin.start_le_stop hin.stop_le_size)
        rw [Matches.toList_of_find_some hf, allowed_cons hq]
        rcases htext : (r.textFor s found).run.run st with ⟨e | text, st₁⟩
        · rw [Replacement.run_texts_of_textFor_error htext,
            run_substituteFrom_of_textFor_error hq hfind hgap htext]
          exact .error
        · rw [Replacement.run_texts_of_textFor_ok htext]
          cases ha : p.anchored with
          | true =>
            have hrest := Subject.slice?_eq_some hin.stop_le_size (Nat.le_refl s.size)
            rw [run_substituteFrom_of_anchored hq hfind hgap htext ha hrest, if_pos rfl,
              allowed_nil]
            have hlast : interleave s found.stop [] = some _ := hrest
            exact Assembled.cons hgap text (.ok hlast)
          | false =>
            have hinit := init_le_of_find hf
            have hresume := found.start_lt_resumeAt
            have hlt : s.size + 1 - found.resumeAt < n := by
              simp only [ofPattern] at hinit
              omega
            have hm' : ((ofPattern p s o').findAt m i).2.slots.length = captureLimit :=
              (length_slots_findAt _ m i).trans hm
            rw [run_substituteFrom_of_unanchored hq hfind hgap htext ha, if_neg Bool.false_ne_true]
            exact Assembled.cons hgap text
              (ih _ hlt hm' _ found.stop_le_resumeAt hin.stop_le_size st₁ rfl)

/-- A substitution replaces the matches of the sequence that its quota allows, in turn, and copies what
lies between them; the first error ends it, and no search or replacement follows. -/
theorem substitute_ends (quota : Option Nat) (st : σ) :
    ∃ result st',
      r.Ends s (allowed quota (Matches.ofPattern p s o' 0).toList) st result st' ∧
      Assembled s 0 (result, st') (((ofPattern p s o').substitute r quota).run.run st) := by
  have hinside : ∀ m, .ok m ∈ allowed quota (Matches.ofPattern p s o' 0).toList →
      m.Inside s := fun m hm => Matches.inside_of_mem_toList hp (mem_of_mem_allowed hm)
  exact ⟨_, _, Replacement.ends_texts hinside st,
    substituteFrom_assembled hp s o' r rfl quota (Nat.le_refl 0) (Nat.zero_le _) st⟩

end Compiled

theorem substitute_ends_axb :
    let r : Replacement Nat := .function fun values => do
      modify (· + values.length)
      return .nil
    let o : Options := .withStepLimit {} 100
    ∃ p, Pattern.compile {} [120, 42] = .ok p ∧ ∃ result st',
      r.Ends #[97, 120, 98]
        (allowed (some 2) (Matches.ofPattern p #[97, 120, 98] o 0).toList) 0 result st' ∧
      Assembled #[97, 120, 98] 0 (result, st')
        (((ofPattern p #[97, 120, 98] o).substitute r (some 2)).run.run 0) := by
  have hp : Pattern.compile {} [120, 42] =
      .ok ⟨[120, 42], [.single (.byte 120) .zeroOrMore], [], false⟩ := by
    cbv
  exact ⟨_, hp, substitute_ends hp #[97, 120, 98] _ _ (some 2) 0⟩

end Matcher
end BytePattern
