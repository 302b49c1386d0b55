import BytePattern.Proofs.Library.Compiles
import BytePattern.Proofs.Replace.Assembly
import BytePattern.Proofs.Replace.Template
import BytePattern.Proofs.Search.Literal

/-!
# Replacing quoted text

A quoted text and a template with its percent signs doubled make of a substitution the replacement of one
text by another. That is said of lists of bytes, with no pattern and no match in it: going from the left,
every occurrence of the needle that does not reach into the one before it is replaced
(`replaceOccurrences`), and without a needle the text stands before each byte and at the end
(`insertEverywhere`). A substitution does just that, as far as it may (`Library.substitute_quote`).
-/
namespace BytePattern

/-- The bytes with as many occurrences of the needle replaced as the quota allows, and how many were. -/
def replaceOccurrences (needle text : Bytes) (quota : Option Nat) : Bytes → Bytes × Nat
  | [] => ([], 0)
  | b :: rest =>
    if quota = some 0 then (b :: rest, 0)
    else if needle.isPrefixOf (b :: rest) then
      let (out, n) := replaceOccurrences needle text (quota.map (· - 1))
        (rest.drop (needle.length - 1))
      (text ++ out, n + 1)
    else
      let (out, n) := replaceOccurrences needle text quota rest
      (b :: out, n)
termination_by bytes => bytes.length
decreasing_by all_goals (simp only [List.length_cons, List.length_drop]; omega)

/-- The bytes with the text before each of them and at the end, from the left as often as the quota
allows, and how often that is. -/
def insertEverywhere (text : Bytes) (quota : Option Nat) : Bytes → Bytes × Nat
  | [] => if quota = some 0 then ([], 0) else (text, 1)
  | b :: rest =>
    if quota = some 0 then (b :: rest, 0)
    else
      let (out, n) := insertEverywhere text (quota.map (· - 1)) rest
      (text ++ b :: out, n + 1)

def replaceText (needle text : Bytes) (quota : Option Nat) (bytes : Bytes) : Bytes × Nat :=
  if needle = [] then insertEverywhere text quota bytes
  else replaceOccurrences needle text quota bytes

section Reference

variable {needle text : Bytes} {quota : Option Nat}

theorem replaceOccurrences_zero (needle text bytes : Bytes) :
    replaceOccurrences needle text (some 0) bytes = (bytes, 0) := by
  cases bytes with
  | nil => rw [replaceOccurrences]
  | cons b rest => rw [replaceOccurrences, if_pos rfl]

theorem replaceOccurrences_append (hneedle : needle ≠ []) (hq : quota ≠ some 0) {rest : Bytes} :
    replaceOccurrences needle text quota (needle ++ rest) =
      let (out, n) := replaceOccurrences needle text (quota.map (· - 1)) rest
      (text ++ out, n + 1) := by
  obtain ⟨b, needle, rfl⟩ := List.exists_cons_of_ne_nil hneedle
  have hat : (b :: needle).isPrefixOf (b :: (needle ++ rest)) = true :=
    List.isPrefixOf_iff_prefix.2 (List.prefix_append ..)
  rw [List.cons_append, replaceOccurrences, if_neg hq, if_pos hat]
  simp

theorem insertEverywhere_zero (text bytes : Bytes) :
    insertEverywhere text (some 0) bytes = (bytes, 0) := by
  cases bytes with
  | nil => rw [insertEverywhere, if_pos rfl]
  | cons b rest => rw [insertEverywhere, if_pos rfl]

end Reference

namespace Template

def double (text : Bytes) : Bytes :=
  text.flatMap fun b => if b = Byte.percent then [Byte.percent, Byte.percent] else [b]

theorem expand_double (s : Subject) (m : Match) (text : Bytes) :
    expand s m (double text) = (text, none) := by
  induction text with
  | nil => rfl
  | cons b text ih =>
    rw [double] at ih ⊢
    rw [List.flatMap_cons]
    split
    · rename_i hb
      rw [List.cons_append, List.singleton_append, expand, if_pos rfl, escape, if_pos rfl]
      simp only [ih, hb, List.singleton_append]
    · rename_i hb
      rw [List.singleton_append, expand_cons_of_ne hb, ih]

end Template

theorem Replacement.run_textFor_double {σ : Type} (s : Subject) (m : Match) (text : Bytes) (st : σ) :
    ((Replacement.template (Template.double text)).textFor s m).run.run st = (.ok text, st) := by
  rw [textFor, Template.expand_double]
  rfl

namespace Subject

variable {s : Subject} {needle text : Bytes} {quota : Option Nat} {i j : Nat}

theorem hasAt_iff_isPrefix : s.hasAt i needle = true ↔ needle <+: s.toList.drop i := by
  rw [hasAt_iff, List.prefix_iff_getElem?]
  simp only [List.getElem?_drop, Array.getElem?_toList]

theorem extract_append_drop (s : Subject) (hij : i ≤ j) :
    (s.extract i j).toList ++ s.toList.drop j = s.toList.drop i := by
  have hdrop : s.toList.drop j = (s.toList.drop i).drop (j - i) := by
    rw [List.drop_drop, Nat.add_sub_cancel' hij]
  rw [Array.toList_extract, List.extract_eq_take_drop, hdrop, List.take_append_drop]

theorem append_extract (s : Subject) {k : Nat} (hij : i ≤ j) (hjk : j ≤ k) :
    (s.extract i j).toList ++ (s.extract j k).toList = (s.extract i k).toList := by
  have h := s.extract_append_drop (Nat.le_trans hij hjk)
  rw [← s.extract_append_drop hij, ← s.extract_append_drop hjk, ← List.append_assoc] at h
  exact (List.append_cancel_right h).symm

theorem slice?_size (s : Subject) (hi : i ≤ s.size) : s.slice? i s.size = some (s.toList.drop i) := by
  rw [slice?_eq_some hi (Nat.le_refl _), Array.toList_extract, List.extract_eq_take_drop,
    List.take_of_length_le]
  simp

theorem extract_self (s : Subject) (i : Nat) : (s.extract i i).toList = [] := by
  rw [Array.extract_empty_of_stop_le_start (Nat.le_refl i)]

theorem toList_drop_eq_cons (hi : i < s.size) : s.toList.drop i = s[i] :: s.toList.drop (i + 1) :=
  List.drop_eq_getElem_cons (l := s.toList) hi

theorem extract_eq_cons (hij : i < j) (hi : i < s.size) :
    (s.extract i j).toList = s[i] :: (s.extract (i + 1) j).toList := by
  have h := s.extract_append_drop (Nat.le_of_lt hij)
  rw [toList_drop_eq_cons hi, ← s.extract_append_drop hij, ← List.cons_append] at h
  exact List.append_cancel_right h

theorem replaceOccurrences_of_findFrom (hneedle : needle ≠ []) (hq : quota ≠ some 0)
    (hi : i ≤ s.size) : replaceOccurrences needle text quota (s.toList.drop i) =
      match s.findFrom needle i with
      | none => (s.toList.drop i, 0)
      | some j =>
        let (out, n) := replaceOccurrences needle text (quota.map (· - 1))
          (s.toList.drop (j + needle.length))
        ((s.extract i j).toList ++ text ++ out, n + 1) := by
  -- up to the first occurrence nothing is replaced, and behind it replacing goes on
  fun_induction findFrom s needle i with
  | case1 i hat =>
    have hrest := List.prefix_iff_eq_append.1 (hasAt_iff_isPrefix.1 hat)
    rw [← hrest, replaceOccurrences_append hneedle hq, List.drop_drop]
    simp only [extract_self, List.nil_append]
  | case2 i hat hlt ih =>
    have hno : ¬ needle.isPrefixOf (s[i] :: s.toList.drop (i + 1)) = true := by
      rw [List.isPrefixOf_iff_prefix, ← toList_drop_eq_cons hlt, ← hasAt_iff_isPrefix]
      exact hat
    rw [toList_drop_eq_cons hlt, replaceOccurrences, if_neg hq, if_neg hno, ih hlt]
    cases hf : s.findFrom needle (i + 1) with
    | none => rfl
    | some j =>
      have hij := le_of_findFrom hf
      simp only [extract_eq_cons hij hlt, List.cons_append]
  | case3 i hat hge =>
    obtain rfl : i = s.size := Nat.le_antisymm hi (Nat.le_of_not_lt hge)
    rw [List.drop_eq_nil_of_le (by simp), replaceOccurrences]

theorem stop_le_of_findFrom (hi : i ≤ s.size) (h : s.findFrom needle i = some j) :
    i ≤ j ∧ j + needle.length ≤ s.size := by
  refine ⟨le_of_findFrom h, ?_⟩
  fun_induction findFrom s needle i with
  | case1 i hat =>
    cases h
    have hlength : needle.length ≤ s.size - j := by simpa using (hasAt_iff_isPrefix.1 hat).length_le
    omega
  | case2 i _ hlt ih => exact ih hlt h
  | case3 => cases h

theorem findFrom_nil (s : Subject) (i : Nat) : s.findFrom [] i = some i := by
  rw [findFrom]
  exact if_pos rfl

end Subject

namespace Matcher

section Literal

variable {σ : Type} {o : Options} {source : Bytes} {p : Pattern}
  (hp : Pattern.compile o source = .ok p) (hanchored : p.anchored = false) {needle : Bytes}
  (hitems : p.items = needle.map fun b => .single (.byte b) .one) (s : Subject) (text : Bytes)
  {m : Memory} (hm : m.slots.length = captureLimit) {quota : Option Nat} {i copied : Nat} (st : σ)

include hp hanchored hitems hm

theorem run_literal_stop (h : quota = some 0 ∨ s.size < i ∨ s.findFrom needle i = none)
    (hcopied : copied ≤ s.size) :
    (substituteFrom ⟨p, s, none⟩ (.template (Template.double text)) m quota i copied).run.run st =
      (.ok (s.toList.drop copied, 0), st) := by
  apply run_substituteFrom_of_none (h.imp_right fun h => ?_) (s.slice?_size hcopied)
  rw [findAt_fst_eq hp s none hm, find_of_literal hp hanchored hitems, Subject.findLiteral]
  by_cases hi : s.size < i
  · rw [if_pos hi, Option.map_none]
  · rw [if_neg hi, h.resolve_left hi, Option.map_none, Option.map_none]

theorem run_literal_found (hq : quota ≠ some 0) (hi : i ≤ s.size) {j : Nat}
    (h : s.findFrom needle i = some j) (hcopied : copied ≤ i) :
    (substituteFrom ⟨p, s, none⟩ (.template (Template.double text)) m quota i copied).run.run st =
      let answer := (substituteFrom ⟨p, s, none⟩ (.template (Template.double text))
        (findAt ⟨p, s, none⟩ m i).2 (quota.map (· - 1)) (max (j + needle.length) (j + 1))
        (j + needle.length)).run.run st
      (answer.1.map fun (out, n) => ((s.extract copied j).toList ++ text ++ out, n + 1), answer.2) := by
  obtain ⟨hij, hstop⟩ := Subject.stop_le_of_findFrom hi h
  have hfound : (findAt ⟨p, s, none⟩ m i).1 = .ok (some ⟨j, j + needle.length, []⟩) := by
    rw [findAt_fst_eq hp s none hm, find_of_literal hp hanchored hitems, Subject.findLiteral,
      if_neg (Nat.not_lt_of_le hi), h]
    rfl
  have hgap := Subject.slice?_eq_some (s := s) (Nat.le_trans hcopied hij)
    (Nat.le_trans (Nat.le_add_right ..) hstop)
  exact run_substituteFrom_of_unanchored (x := ⟨p, s, none⟩) hq hfound hgap
    (Replacement.run_textFor_double ..) hanchored

theorem run_literal_occurrences (hneedle : needle ≠ []) (hi : i ≤ s.size) (hcopied : copied ≤ i) :
    (substituteFrom ⟨p, s, none⟩ (.template (Template.double text)) m quota i copied).run.run st =
      let (out, n) := replaceOccurrences needle text quota (s.toList.drop i)
      (.ok ((s.extract copied i).toList ++ out, n), st) := by
  induction hn : s.size - i using Nat.strong_induction_on generalizing m quota i copied with
  | _ n ih =>
    by_cases hq : quota = some 0
    · rw [run_literal_stop hp hanchored hitems s text hm st (.inl hq) (Nat.le_trans hcopied hi), hq,
        replaceOccurrences_zero]
      simp only [s.extract_append_drop hcopied]
    · rw [Subject.replaceOccurrences_of_findFrom hneedle hq hi]
      cases hf : s.findFrom needle i with
      | none =>
        rw [run_literal_stop hp hanchored hitems s text hm st (.inr (.inr hf))
          (Nat.le_trans hcopied hi)]
        simp only [s.extract_append_drop hcopied]
      | some j =>
        obtain ⟨hij, hstop⟩ := Subject.stop_le_of_findFrom hi hf
        have hpos : 1 ≤ needle.length := List.length_pos_of_ne_nil hneedle
        have hresume : max (j + needle.length) (j + 1) = j + needle.length := by omega
        have hm' : (findAt ⟨p, s, none⟩ m i).2.slots.length = captureLimit :=
          (length_slots_findAt _ m i).trans hm
        rw [run_literal_found hp hanchored hitems s text hm st hq hi hf hcopied, hresume,
          ih _ (by omega) hm' hstop (Nat.le_refl _) rfl]
        simp only [s.extract_self, List.nil_append]
        rw [← s.append_extract hcopied hij]
        simp only [Except.map, List.append_assoc]

theorem run_literal_everywhere (hneedle : needle = []) (hi : i ≤ s.size) (hcopied : copied ≤ i) :
    (substituteFrom ⟨p, s, none⟩ (.template (Template.double text)) m quota i copied).run.run st =
      let (out, n) := insertEverywhere text quota (s.toList.drop i)
      (.ok ((s.extract copied i).toList ++ out, n), st) := by
  induction hn : s.size - i using Nat.strong_induction_on generalizing m quota i copied with
  | _ n ih =>
    by_cases hq : quota = some 0
    · rw [run_literal_stop hp hanchored hitems s text hm st (.inl hq) (Nat.le_trans hcopied hi), hq,
        insertEverywhere_zero]
      simp only [s.extract_append_drop hcopied]
    · have hf : s.findFrom needle i = some i := by rw [hneedle, Subject.findFrom_nil]
      have hm' : (findAt ⟨p, s, none⟩ m i).2.slots.length = captureLimit :=
        (length_slots_findAt _ m i).trans hm
      have hstop : i + needle.length = i := by rw [hneedle, List.length_nil, Nat.add_zero]
      have hresume : max (i + needle.length) (i + 1) = i + 1 := by
        rw [hstop]
        exact Nat.max_eq_right (Nat.le_succ i)
      rw [run_literal_found hp hanchored hitems s text hm st hq hi hf hcopied, hresume, hstop]
      rcases Nat.eq_or_lt_of_le hi with rfl | hlt
      · have hend : s.toList.drop s.size = [] := List.drop_eq_nil_of_le (by simp)
        rw [run_literal_stop hp hanchored hitems s text hm' st (.inr (.inl (Nat.lt_succ_self _)))
          (Nat.le_refl _), hend, insertEverywhere, if_neg hq]
        simp only [Except.map, List.append_nil]
      · rw [ih _ (by omega) hm' hlt (Nat.le_succ i) rfl, Subject.toList_drop_eq_cons hlt,
          insertEverywhere, if_neg hq]
        simp only [Except.map, Subject.extract_eq_cons (Nat.lt_succ_self i) hlt, s.extract_self,
          List.append_assoc, List.singleton_append]

omit hm in
theorem run_substitute_literal (quota : Option Nat) :
    (substitute ⟨p, s, none⟩ (.template (Template.double text)) quota).run.run st =
      (.ok (replaceText needle text quota s.toList), st) := by
  rw [replaceText]
  by_cases hneedle : needle = []
  · rw [if_pos hneedle]
    have hrun : (substituteFrom ⟨p, s, none⟩ (.template (Template.double text)) .fresh quota 0 0).run.run
        st = _ := run_literal_everywhere hp hanchored hitems s text rfl st hneedle (Nat.zero_le _)
      (Nat.le_refl 0)
    simp only [s.extract_self, List.nil_append, List.drop_zero] at hrun
    exact hrun
  · rw [if_neg hneedle]
    have hrun : (substituteFrom ⟨p, s, none⟩ (.template (Template.double text)) .fresh quota 0 0).run.run
        st = _ := run_literal_occurrences hp hanchored hitems s text rfl st hneedle (Nat.zero_le _)
      (Nat.le_refl 0)
    simp only [s.extract_self, List.nil_append, List.drop_zero] at hrun
    exact hrun

end Literal

end Matcher

namespace Library

/-- A quoted text and a doubled template replace the needle by the text, whatever bytes are in them. A
negative limit counts as zero. -/
theorem substitute_quote {σ : Type} {lib : Library} (hlib : lib.Sound)
    (hlimit : lib.options.stepLimit = none) (s : Subject) (needle text : Bytes)
    (limit : Option Int64) (st : σ) :
    ((substitute s (quote needle) (.template (Template.double text)) limit st).run.run lib).1 =
      .ok (.ok (replaceText needle text (limit.map fun n => n.toInt.toNat) s.toList), st) := by
  have hcompile := Pattern.compile_quote lib.options needle
  rw [run_substitute hlib, hcompile, ok_bind, Matcher.ofPattern, hlimit]
  exact congrArg Except.ok (Matcher.run_substitute_literal hcompile rfl rfl s text st _)

theorem substitute_quote_overlapping : (ofOptions { maxCaptures := 0 } true).Sound ∧
    (ofOptions { maxCaptures := 0 } true).options.stepLimit = none ∧
    ((substitute #[97, 37, 97, 37, 97, 37, 97] (quote [97, 37, 97])
      (.template (Template.double [37, 49])) (some 3) ()).run.run
        (ofOptions { maxCaptures := 0 } true)).1 = .ok (.ok ([37, 49, 37, 37, 49], 2), ()) := by
  have hsound := sound_ofOptions { maxCaptures := 0 } true
  refine ⟨hsound, rfl, ?_⟩
  rw [substitute_quote hsound rfl]
  cbv

end Library
end BytePattern
