import BytePattern.Proofs.Library.Compiles
import BytePattern.Proofs.Library.Offset
import BytePattern.Proofs.Search.AllMatches
import BytePattern.Proofs.Search.Nesting

/-!
# One first match

Finding, reading the first values and pulling the first match of all compile and search each on its own.
They show one result nevertheless (`Agree`), also where there is nothing to search: a sequence that starts
past the end makes a search that finds nothing, where the other two make none. Only a source that is
malformed tells the two apart (`firstMatch_agrees`).
-/
namespace BytePattern

namespace Match

variable {s : Subject} {p : Pattern} {m : Match}

theorem Nested.captures_eq_nil_iff (h : m.Nested p) : m.captures = [] ↔ p.captures = [] := by
  rw [← h.kinds, List.map_eq_nil_iff]

theorem values_of_ne (h : m.captures ≠ []) : m.values s = m.captureValues s := if_neg h

theorem values_of_nil (h : m.captures = []) : m.values s = do return [.text (← m.text s)] := if_pos h

theorem captureValues_of_nil (h : m.captures = []) : m.captureValues s = .ok [] := by
  rw [captureValues, h]
  rfl

end Match

theorem Matches.next_ofPattern (p : Pattern) (s : Subject) (o : Options) (i : Nat) :
    (ofPattern p s o i).next.1 =
      match (Matcher.ofPattern p s o).find i with
      | .ok found => found.map .ok
      | .error e => some (.error e) := by
  simp only [next, ofPattern, Bool.false_eq_true, if_false]
  cases (Matcher.ofPattern p s o).find i with
  | error e => rfl
  | ok found => cases found <;> rfl

namespace Library

/-- What the first pull of all matches, the first values and the first span show if they agree. Without
captures the span of the match is the only value; its bounds are counted from one, with the end inside. -/
inductive Agree (s : Subject) (p : Pattern) : Option (Except Error Match) →
    Except Error (Option (List CaptureValue)) → Except Error (Option Found) → Prop
  | nothing : Agree s p none (.ok none) (.ok none)
  | failure (e : Error) : Agree s p (some (.error e)) (.error e) (.error e)
  | captures {m : Match} {values : List CaptureValue} : p.captures ≠ [] → m.values s = .ok values →
      Agree s p (some (.ok m)) (.ok (some values)) (.ok (some ⟨m.start + 1, m.stop, values⟩))
  | whole {m : Match} {text : Bytes} : p.captures = [] → m.values s = .ok [.text text] →
      s.slice? m.start m.stop = some text →
      Agree s p (some (.ok m)) (.ok (some [.text text])) (.ok (some ⟨m.start + 1, m.stop, []⟩))

theorem agree_of_find {o o' : Options} {source : Bytes} {p : Pattern}
    (hp : Pattern.compile o source = .ok p) {s : Subject} {i : Nat} {m : Match}
    (h : (Matcher.ofPattern p s o').find i = .ok (some m)) :
    Agree s p (some (.ok m)) ((m.values s).map some) ((foundOf s m).map some) := by
  have hinside : m.Inside s := Matcher.findAt_inside hp s rfl h
  have hnil := (Matcher.nested_of_findAt hp s rfl h).captures_eq_nil_iff
  by_cases hcaptures : m.captures = []
  · have hslice := Subject.slice?_eq_some hinside.start_le_stop hinside.stop_le_size
    have hvalues : m.values s = .ok [.text (s.extract m.start m.stop).toList] := by
      rw [Match.values_of_nil hcaptures, hinside.text_eq_ok]
      rfl
    rw [foundOf, Match.captureValues_of_nil hcaptures, hvalues]
    exact .whole (hnil.1 hcaptures) hvalues hslice
  · obtain ⟨values, hvalues⟩ := hinside.captureValues_eq_ok
    rw [Match.values_of_ne hcaptures, foundOf, hvalues]
    exact .captures (mt hnil.2 hcaptures) ((Match.values_of_ne hcaptures).trans hvalues)

section Agree

variable {lib : Library} (hlib : lib.Sound) (s : Subject) {source : Bytes}

include hlib

theorem agree_of_compile {p : Pattern} (hp : Pattern.compile lib.options source = .ok p)
    (init : Option Int64) : ∃ it, ((allMatches s source init).run.run lib).1 = .ok it ∧
      Agree s p it.next.1 ((firstValues s source init).run.run lib).1
        ((find s source init false).run.run lib).1 := by
  rw [run_allMatches hlib, hp]
  refine ⟨_, rfl, ?_⟩
  rw [Matches.next_ofPattern]
  cases hi : initOffset s init with
  | none =>
    have hpast : (Matcher.ofPattern p s lib.options).find (s.size + 1) = .ok none :=
      Matcher.find_past_end (Nat.lt_succ_self _)
    rw [run_firstValues_past s source hi, run_find_past s source hi, Option.getD_none, hpast]
    exact .nothing
  | some i =>
    rw [run_firstValues hlib s source hi, run_find hlib s source hi, hp, Option.getD_some]
    simp only [ok_bind]
    cases hfind : (Matcher.ofPattern p s lib.options).find i with
    | error e => exact .failure e
    | ok found =>
      cases found with
      | none => exact .nothing
      | some m => exact agree_of_find hp hfind

/-- Every library agrees with itself on the first match, whatever the options are and whether it keeps its
patterns. A malformed source is reported by all, but where no search is to be made, only the sequence of all
matches has compiled it. A subject in memory is short enough for one more than its length to be a word. -/
theorem firstMatch_agrees (hsize : s.size + 1 < 2 ^ 64) (source : Bytes) (init : Option Int64) :
    (∀ p, Pattern.compile lib.options source = .ok p →
      ∃ it, ((allMatches s source init).run.run lib).1 = .ok it ∧
        Agree s p it.next.1 ((firstValues s source init).run.run lib).1
          ((find s source init false).run.run lib).1) ∧
    (∀ e, Pattern.compile lib.options source = .error e →
      (∃ f, e = .malformed f) ∧ ((allMatches s source init).run.run lib).1 = .error e ∧
      ((∀ i, init = some i → i.toInt ≤ s.size + 1) →
        ((firstValues s source init).run.run lib).1 = .error e ∧
        ((find s source init false).run.run lib).1 = .error e) ∧
      ∀ i, init = some i → s.size + 1 < i.toInt →
        ((firstValues s source init).run.run lib).1 = .ok none ∧
        ((find s source init false).run.run lib).1 = .ok none) := by
  refine ⟨fun p hp => agree_of_compile hlib s hp init, fun e he => ?_⟩
  refine ⟨Pattern.malformed_of_compile he, ?_, fun hle => ?_, fun i hi hlt => ?_⟩
  · rw [run_allMatches hlib, he]
    rfl
  · cases hoffset : initOffset s init with
    | none =>
      obtain ⟨i, hi, hlt⟩ := (initOffset_eq_none_iff hsize).1 hoffset
      exact absurd (hle i hi) (Int.not_le_of_gt hlt)
    | some i =>
      rw [run_firstValues hlib s source hoffset, run_find hlib s source hoffset, he]
      exact ⟨rfl, rfl⟩
  · have hoffset := (initOffset_eq_none_iff hsize).2 ⟨i, hi, hlt⟩
    rw [run_firstValues_past s source hoffset, run_find_past s source hoffset]
    exact ⟨rfl, rfl⟩

end Agree

theorem firstMatch_agrees_ab : (ofOptions {} true).Sound ∧ (#[97, 98] : Subject).size + 1 < 2 ^ 64 ∧
    (∃ p it, Pattern.compile {} [98, 42] = .ok p ∧
      ((allMatches #[97, 98] [98, 42] (some 3)).run.run (ofOptions {} true)).1 = .ok it ∧
      Agree #[97, 98] p it.next.1 (.ok (some [.text []])) (.ok (some ⟨3, 2, []⟩))) ∧
    ∃ f, ((allMatches #[97, 98] [40] (some 4)).run.run (ofOptions {} true)).1 = .error (.malformed f) ∧
      ((firstValues #[97, 98] [40] (some 4)).run.run (ofOptions {} true)).1 = .ok none ∧
      ((find #[97, 98] [40] (some 4) false).run.run (ofOptions {} true)).1 = .ok none := by
  have hsound := sound_ofOptions {} true
  have hsize : (#[97, 98] : Subject).size + 1 < 2 ^ 64 := by decide
  have hvalues : ((firstValues #[97, 98] [98, 42] (some 3)).run.run (ofOptions {} true)).1 =
      .ok (some [.text []]) := by
    apply eq_ok_of_toOption
    decide +kernel
  have hfound : ((find #[97, 98] [98, 42] (some 3) false).run.run (ofOptions {} true)).1 =
      .ok (some ⟨3, 2, []⟩) := by
    apply eq_ok_of_toOption
    decide +kernel
  have hp : Pattern.compile {} [98, 42] =
      .ok ⟨[98, 42], [.single (.byte 98) .zeroOrMore], [], false⟩ := by
    cbv
  have he : Pattern.compile {} [40] = .error (.malformed ⟨.unfinishedCapture, 0⟩) := by
    cbv
  refine ⟨hsound, hsize, ?_, ?_⟩
  · obtain ⟨it, hit, hagree⟩ := (firstMatch_agrees hsound #[97, 98] hsize [98, 42] (some 3)).1 _ hp
    rw [hvalues, hfound] at hagree
    exact ⟨_, it, hp, hit, hagree⟩
  · obtain ⟨_, hall, _, hpast⟩ :=
      (firstMatch_agrees hsound #[97, 98] hsize [40] (some 4)).2 _ he
    exact ⟨_, hall, hpast 4 rfl (by decide)⟩

end Library
end BytePattern
