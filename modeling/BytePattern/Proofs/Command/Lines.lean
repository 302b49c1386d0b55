import BytePattern.Command.Run
import BytePattern.Proofs.Library.Compiles
import BytePattern.Proofs.Search.AllMatches
import BytePattern.Proofs.Text.Decimal

/-!
# Lines of text

A line has a tab before a field as soon as there is text to the left of it. So a field that is empty is
followed by a tab unless all fields to its left are empty, too: a line loses one tab for every empty
field it starts with (`tabbed_eq`). Numbers are never empty; a captured text can be.
-/
namespace BytePattern

namespace Command

def tabbed (fields : List Bytes) : Bytes := [Byte.tab].intercalate fields

/-- The tabs that a line loses, one for each empty field at its start that is not the only one. -/
def lostTabs (fields : List Bytes) : Nat :=
  min (fields.takeWhile (· = [])).length (fields.length - 1)

def writtenLine (fields : List Bytes) : Bytes := line ((tabbed fields).drop (lostTabs fields))

theorem tabbed_cons (f : Bytes) (fields : List Bytes) :
    tabbed (f :: fields) = f ++ fields.flatMap (Byte.tab :: ·) := by
  induction fields generalizing f with
  | nil => rw [tabbed, List.intercalate_singleton, List.flatMap_nil, List.append_nil]
  | cons g fields ih =>
    rw [tabbed, List.intercalate_cons_cons, ← tabbed, ih, List.flatMap_cons, List.append_assoc,
      List.singleton_append, List.cons_append]

theorem lostTabs_of_ne {f : Bytes} (h : f ≠ []) (fields : List Bytes) :
    lostTabs (f :: fields) = 0 := by
  rw [lostTabs, List.takeWhile_cons_of_neg (by simpa using h), List.length_nil, Nat.zero_min]

theorem lostTabs_nil_cons (f : Bytes) (fields : List Bytes) :
    lostTabs ([] :: f :: fields) = lostTabs (f :: fields) + 1 := by
  rw [lostTabs, lostTabs, List.takeWhile_cons_of_pos (by simp), List.length_cons, List.length_cons,
    List.length_cons]
  omega

theorem joinFields_nil_cons (fields : List Bytes) : joinFields ([] :: fields) = joinFields fields := rfl

theorem foldl_fields {text : Bytes} (h : text ≠ []) (fields : List Bytes) :
    fields.foldl (fun text f => if text = [] then f else text ++ Byte.tab :: f) text =
      text ++ fields.flatMap (Byte.tab :: ·) := by
  induction fields generalizing text with
  | nil => exact (List.append_nil text).symm
  | cons f fields ih =>
    rw [List.foldl_cons, if_neg h, ih (List.append_ne_nil_of_left_ne_nil h _), List.flatMap_cons,
      List.append_assoc]

theorem joinFields_of_ne {f : Bytes} (h : f ≠ []) (fields : List Bytes) :
    joinFields (f :: fields) = tabbed (f :: fields) := by
  rw [tabbed_cons, joinFields, List.foldl_cons, if_pos rfl, foldl_fields h]

theorem tabbed_eq (fields : List Bytes) :
    tabbed fields = List.replicate (lostTabs fields) Byte.tab ++ joinFields fields := by
  induction fields with
  | nil => rfl
  | cons f fields ih =>
    by_cases h : f = []
    · subst h
      cases fields with
      | nil => rfl
      | cons g fields =>
        rw [lostTabs_nil_cons, joinFields_nil_cons, List.replicate_succ, List.cons_append, ← ih,
          tabbed_cons, List.nil_append, List.flatMap_cons, tabbed_cons, List.cons_append]
    · rw [lostTabs_of_ne h, List.replicate_zero, List.nil_append, joinFields_of_ne h]

theorem line_joinFields (fields : List Bytes) : line (joinFields fields) = writtenLine fields := by
  rw [writtenLine, tabbed_eq, List.drop_left' List.length_replicate]

theorem lostTabs_eq_zero {fields : List Bytes} :
    lostTabs fields = 0 ↔ fields.length ≤ 1 ∨ fields.head? ≠ some [] := by
  rcases fields with _ | ⟨f, _ | ⟨g, fields⟩⟩
  · simp [lostTabs]
  · simp [lostTabs]
  · by_cases h : f = []
    · simp [h, lostTabs_nil_cons]
    · simp [h, lostTabs_of_ne h]

theorem writtenLine_eq_iff {fields : List Bytes} :
    writtenLine fields = line (tabbed fields) ↔ fields.length ≤ 1 ∨ fields.head? ≠ some [] := by
  rw [← lostTabs_eq_zero, ← line_joinFields, line, line, List.append_left_inj, tabbed_eq,
    List.self_eq_append_left, List.replicate_eq_nil_iff]

theorem textLine_values (values : List CaptureValue) :
    textLine [] values = writtenLine (values.map (·.toBytes)) :=
  line_joinFields _

theorem textLine_cons (n : Nat) (numbers : List Nat) (values : List CaptureValue) :
    textLine (n :: numbers) values =
      line (tabbed ((n :: numbers).map Decimal.ofNat ++ values.map (·.toBytes))) :=
  congrArg line (joinFields_of_ne (Decimal.ofNat_ne_nil n) _)

theorem exists_rows {s : Subject} {ms : List Match} (h : ∀ m ∈ ms, m.Inside s) :
    ∃ rows : List (Match × List CaptureValue), rows.map Prod.fst = ms ∧
      ∀ r ∈ rows, r.1.values s = .ok r.2 := by
  induction ms with
  | nil => exact ⟨[], rfl, List.forall_mem_nil _⟩
  | cons m ms ih =>
    obtain ⟨rows, hrows, hvalues⟩ := ih fun m hm => h m (.tail _ hm)
    obtain ⟨v, vs, hm, _⟩ := (h m (.head _)).values_eq_ok
    exact ⟨(m, v :: vs) :: rows, congrArg (m :: ·) hrows, List.forall_mem_cons.2 ⟨hm, hvalues⟩⟩

theorem matchLines_eq (st : Settings) {s : Subject} {rows : List (Match × List CaptureValue)}
    (h : ∀ r ∈ rows, r.1.values s = .ok r.2) (failure : Option Error) :
    matchLines st s ((rows.map Prod.fst).map .ok ++ failure.toList.map .error) =
      (rows.flatMap fun r => matchLine st r.1 r.2, failure) := by
  induction rows with
  | nil => cases failure <;> rfl
  | cons r rows ih =>
    simp only [List.map_cons, List.cons_append, matchLines, h r (.head _),
      ih fun r hr => h r (.tail _ hr), List.flatMap_cons]

theorem matchLines_text {st : Settings} (hjson : st.json = false) (s : Subject) (failure : Option Error)
    {ms : List Match} (h : ∀ m ∈ ms, m.Inside s) :
    ∃ rows : List (List CaptureValue), ms.map (·.values s) = rows.map .ok ∧
      matchLines st s (ms.map .ok ++ failure.toList.map .error) =
        (rows.flatMap fun values => writtenLine (values.map (·.toBytes)), failure) := by
  obtain ⟨rows, rfl, hvalues⟩ := exists_rows h
  refine ⟨rows.map Prod.snd, ?_, ?_⟩
  · rw [List.map_map, List.map_map]
    exact List.map_congr_left hvalues
  · simp only [matchLines_eq st hvalues, matchLine, hjson, Bool.false_eq_true, if_false,
      textLine_values, List.flatMap_map]

theorem call_allMatches {st : Settings} {s : Subject} {source : Bytes} {it : Matches}
    (h : st.call (Library.allMatches s source st.init) = .ok it) :
    it.subject = s ∧ it.options = st.library.options ∧
      Pattern.compile st.library.options source = .ok it.pattern := by
  have hsound : st.library.Sound := Library.sound_ofOptions _ _
  rw [Settings.call, Library.run_allMatches hsound] at h
  obtain ⟨p, hp, hit⟩ := bind_eq_ok.1 h
  cases hit
  exact ⟨rfl, rfl, hp⟩

/-- What is printed of a result as text: its values with tabs between them, less the tabs that are lost.
Behind two positions no tab is lost. -/
theorem perform_text {st : Settings} (hjson : st.json = false) (j : Job) (s : Subject) :
    (j.verb = .find → ∀ f, st.call (Library.find s j.source st.init st.plain) = .ok (some f) →
      j.perform st s = .success (line (tabbed
        (Decimal.ofNat f.first :: Decimal.ofNat f.last :: f.captures.map (·.toBytes))))) ∧
    (j.verb = .firstValues → ∀ values,
      st.call (Library.firstValues s j.source st.init) = .ok (some values) →
      j.perform st s = .success (writtenLine (values.map (·.toBytes)))) ∧
    (j.verb = .allValues → ∀ it, st.call (Library.allMatches s j.source st.init) = .ok it →
      ∃ (rows : List (List CaptureValue)) (failure : Option Error),
        it.toList.map (Matches.valuesOf s) = rows.map .ok ++ failure.toList.map .error ∧
        (j.perform st s).stdout = rows.flatMap fun values => writtenLine (values.map (·.toBytes))) := by
  refine ⟨fun hverb f hf => ?_, fun hverb values hvalues => ?_, fun hverb it hit => ?_⟩
  · rw [Job.perform, hverb]
    simp only [hf, ok_bind, foundLine, hjson, Bool.false_eq_true, if_false, textLine_cons]
    rfl
  · rw [Job.perform, hverb]
    simp only [hvalues, ok_bind, valuesLine, hjson, Bool.false_eq_true, if_false, textLine_values]
    rfl
  · obtain ⟨rfl, _, hp⟩ := call_allMatches hit
    obtain ⟨ms, failure, heq⟩ := it.toList_eq
    have hinside : ∀ m ∈ ms, m.Inside it.subject := fun m hm =>
      Matches.inside_of_mem_toList hp (by simp [heq, hm])
    obtain ⟨rows, hrows, hlines⟩ := matchLines_text hjson it.subject failure hinside
    refine ⟨rows, failure, ?_, ?_⟩
    · rw [heq, List.map_append, List.map_map, ← hrows]
      cases failure <;> rfl
    · simp only [Job.perform, hverb, hit, heq, hlines]
      cases failure <;> rfl

theorem perform_text_empty : ({} : Settings).json = false ∧
    ({} : Settings).call (Library.firstValues #[97] (utf8 "(x*)(y*)(a)(z*)(b*)") none) =
      .ok (some [.text [], .text [], .text [97], .text [], .text []]) ∧
    Job.perform ⟨.firstValues, [97], utf8 "(x*)(y*)(a)(z*)(b*)", []⟩ {} #[97] =
      .success [97, 9, 9, 10] := by
  have hvalues : ({} : Settings).call (Library.firstValues #[97] (utf8 "(x*)(y*)(a)(z*)(b*)") none) =
      .ok (some [.text [], .text [], .text [97], .text [], .text []]) := by
    apply eq_ok_of_toOption
    decide +kernel
  have hline : writtenLine [[], [], [97], [], []] = [97, 9, 9, 10] := by decide
  refine ⟨rfl, hvalues, ?_⟩
  rw [← hline]
  exact (perform_text rfl ⟨.firstValues, [97], utf8 "(x*)(y*)(a)(z*)(b*)", []⟩ #[97]).2.1 rfl _ hvalues

/-- An empty value and `a` are printed as `a` alone, without the tab between them. -/
theorem run_match_empty_first :
    ({} : Settings).call (Library.firstValues #[97] (utf8 "(x*)(a)") none) =
      .ok (some [.text [], .text [97]]) ∧
    run [utf8 "match", [97], utf8 "(x*)(a)"] [] = .success [97, 10] ∧
    run [utf8 "match", [97], utf8 "(x*)(a)"] [] ≠ .success (line (tabbed [[], [97]])) := by
  refine ⟨?_, ?_, ?_⟩
  · apply eq_ok_of_toOption
    decide +kernel
  · decide +kernel
  · decide +kernel

end Command
end BytePattern
