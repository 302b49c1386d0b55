import BytePattern.Proofs.Search.Inside
import BytePattern.Proofs.Text.Decimal
import BytePattern.Replace.Substitute

/-!
# Templates piece by piece

A template is read as pieces from the left: runs of bytes that are no percent sign, and escapes of a percent
sign and one more byte. Every piece either means a text or, if it is an escape, is rejected with an error
(`means_or_rejects`). Expanding goes through the pieces up to the first that is rejected, and a percent sign
that is left over at the end stands for itself (`expand_of_expansion`). So what is behind a whole number of
pieces is expanded on its own (`expand_append`).
-/
namespace BytePattern

structure Match.SpansInside (s : Subject) (m : Match) : Prop where
  start_le_stop : m.start ≤ m.stop
  stop_le_size : m.stop ≤ s.size
  captures : ∀ i j, Capture.substring i j ∈ m.captures → i ≤ j ∧ j ≤ s.size

theorem Match.SpansInside.text_eq_ok {s : Subject} {m : Match} (h : m.SpansInside s) :
    m.text s = .ok (s.extract m.start m.stop).toList :=
  inRange_eq_ok.2 (Subject.slice?_eq_some h.start_le_stop h.stop_le_size)

namespace Template

inductive Piece
  | run (bytes : Bytes)
  | escape (d : UInt8)

def Piece.spelled : Piece → Bytes
  | .run bytes => bytes
  | .escape d => [Byte.percent, d]

/-- The template is a whole number of pieces: it does not end inside an escape. -/
def Closed (template : Bytes) : Prop :=
  ∃ pieces : List Piece, (∀ bytes, Piece.run bytes ∈ pieces → Byte.percent ∉ bytes) ∧
    template = pieces.flatMap Piece.spelled

inductive Piece.Means (s : Subject) (m : Match) : Piece → Bytes → Prop
  | run {bytes : Bytes} (h : Byte.percent ∉ bytes) : Means s m (.run bytes) bytes
  | percent : Means s m (.escape Byte.percent) [Byte.percent]
  | whole : Means s m (.escape (Decimal.digit 0)) (s.extract m.start m.stop).toList
  | substring {n i j : Nat} (hlo : 1 ≤ n) (hhi : n ≤ 9) (h : m.captures[n - 1]? = some (.substring i j)) :
      Means s m (.escape (Decimal.digit n)) (s.extract i j).toList
  | position {n i : Nat} (hlo : 1 ≤ n) (hhi : n ≤ 9) (h : m.captures[n - 1]? = some (.position i)) :
      Means s m (.escape (Decimal.digit n)) (Decimal.ofNat (i + 1))
  | only (h : m.captures = []) : Means s m (.escape (Decimal.digit 1)) (s.extract m.start m.stop).toList

inductive Rejects (m : Match) : UInt8 → Error → Prop
  | missing {n : Nat} (hlo : 1 ≤ n) (hhi : n ≤ 9) (h : m.captures.length < n)
      (honly : ¬ (n = 1 ∧ m.captures = [])) : Rejects m (Decimal.digit n) (.captureIndex n)
  | other {d : UInt8} (hpercent : d ≠ Byte.percent) (hdigit : Byte.isDigit d = false) :
      Rejects m d .badTemplate

/-- The text of a template and, if an escape is rejected, the error of the leftmost one that is. -/
inductive Expansion (s : Subject) (m : Match) (template : Bytes) : Bytes → Option Error → Prop
  | done {pieces : List Piece} {texts : List Bytes} {tail : Bytes}
      (hmeans : List.Forall₂ (Piece.Means s m) pieces texts)
      (htemplate : template = pieces.flatMap Piece.spelled ++ tail)
      (htail : tail = [] ∨ tail = [Byte.percent]) :
      Expansion s m template (texts.flatten ++ tail) none
  | failed {pieces : List Piece} {texts : List Bytes} {d : UInt8} {rest : Bytes} {e : Error}
      (hmeans : List.Forall₂ (Piece.Means s m) pieces texts)
      (htemplate : template = pieces.flatMap Piece.spelled ++ Byte.percent :: d :: rest)
      (hrejects : Rejects m d e) : Expansion s m template texts.flatten (some e)

section Piece

variable {s : Subject} {m : Match}

theorem exists_digit : ∀ d, Byte.isDigit d = true → ∃ n ≤ 9, d = Decimal.digit n := by
  decide +kernel

theorem escape_digit {n : Nat} (hlo : 1 ≤ n) (hhi : n ≤ 9) :
    escape s m (Decimal.digit n) = m.captureText s n := by
  obtain ⟨hdigit, hvalue⟩ := Decimal.digit_spec n (Nat.lt_succ_of_le hhi)
  have hpercent : Decimal.digit n ≠ Byte.percent := by
    intro h
    rw [h] at hdigit
    cases hdigit
  have hzero : Decimal.digit n ≠ Byte.digitZero := by
    intro h
    rw [h, UInt8.sub_self, UInt8.toNat_zero] at hvalue
    omega
  rw [escape, if_neg hpercent, if_neg hzero, if_pos hdigit, hvalue]

theorem escape_of_means (hm : m.SpansInside s) {d : UInt8} {text : Bytes}
    (h : Piece.Means s m (.escape d) text) : escape s m d = .ok text := by
  cases h with
  | percent => rfl
  | whole => exact hm.text_eq_ok
  | @substring n i j hlo hhi hc =>
    obtain ⟨hij, hj⟩ := hm.captures i j (List.mem_of_getElem? hc)
    rw [escape_digit hlo hhi, Match.captureText, hc]
    simp only [Capture.value, Subject.slice?_eq_some hij hj]
    rfl
  | position hlo hhi hc =>
    rw [escape_digit hlo hhi, Match.captureText, hc]
    rfl
  | only hc =>
    rw [escape_digit (Nat.le_refl 1) (by decide), Match.captureText, hc]
    exact (if_pos ⟨rfl, rfl⟩).trans hm.text_eq_ok

theorem escape_of_rejects {d : UInt8} {e : Error} (h : Rejects m d e) : escape s m d = .error e := by
  cases h with
  | missing hlo hhi hn honly =>
    rw [escape_digit hlo hhi, Match.captureText, List.getElem?_eq_none (by omega)]
    exact if_neg honly
  | other hpercent hdigit =>
    have hzero : d ≠ Byte.digitZero := by
      rintro rfl
      cases hdigit
    rw [escape, if_neg hpercent, if_neg hzero, if_neg (by rw [hdigit]; decide)]

theorem means_or_rejects (s : Subject) (m : Match) (d : UInt8) :
    (∃ text, Piece.Means s m (.escape d) text) ∨ ∃ e, Rejects m d e := by
  by_cases hpercent : d = Byte.percent
  · subst hpercent
    exact .inl ⟨_, .percent⟩
  by_cases hdigit : Byte.isDigit d = true
  · obtain ⟨n, hhi, rfl⟩ := exists_digit d hdigit
    rcases Nat.eq_zero_or_pos n with rfl | hlo
    · exact .inl ⟨_, .whole⟩
    cases hc : m.captures[n - 1]? with
    | some c =>
      cases c with
      | substring i j => exact .inl ⟨_, .substring hlo hhi hc⟩
      | position i => exact .inl ⟨_, .position hlo hhi hc⟩
    | none =>
      by_cases honly : n = 1 ∧ m.captures = []
      · obtain ⟨rfl, hnil⟩ := honly
        exact .inl ⟨_, .only hnil⟩
      · have hn := List.getElem?_eq_none_iff.1 hc
        exact .inr ⟨_, .missing hlo hhi (by omega) honly⟩
  · exact .inr ⟨_, .other hpercent (Bool.eq_false_iff.2 hdigit)⟩

theorem expand_cons_of_ne {b : UInt8} (hb : b ≠ Byte.percent) (rest : Bytes) :
    expand s m (b :: rest) = (b :: (expand s m rest).1, (expand s m rest).2) := by
  rw [expand.eq_def]
  exact if_neg hb

theorem expand_run {bytes : Bytes} (h : Byte.percent ∉ bytes) (rest : Bytes) :
    expand s m (bytes ++ rest) = (bytes ++ (expand s m rest).1, (expand s m rest).2) := by
  induction bytes with
  | nil => rfl
  | cons b bytes ih =>
    obtain ⟨hb, hbytes⟩ := not_or.1 (mt List.mem_cons.2 h)
    rw [List.cons_append, expand_cons_of_ne (Ne.symm hb), ih hbytes]
    rfl

theorem expand_escape (d : UInt8) (rest : Bytes) :
    expand s m (Byte.percent :: d :: rest) =
      match escape s m d with
      | .ok text => (text ++ (expand s m rest).1, (expand s m rest).2)
      | .error e => ([], some e) := by
  rw [expand.eq_def]
  exact if_pos rfl

theorem expand_piece (hm : m.SpansInside s) {p : Piece} {text : Bytes} (h : p.Means s m text)
    (rest : Bytes) :
    expand s m (p.spelled ++ rest) = (text ++ (expand s m rest).1, (expand s m rest).2) := by
  cases p with
  | run bytes =>
    cases h with
    | run hbytes => exact expand_run hbytes rest
  | escape d =>
    have hescape := escape_of_means hm h
    exact (expand_escape d rest).trans (by rw [hescape])

end Piece

section Expand

variable {s : Subject} {m : Match} (hm : m.SpansInside s)

include hm

theorem expand_pieces {pieces : List Piece} {texts : List Bytes}
    (h : List.Forall₂ (Piece.Means s m) pieces texts) (rest : Bytes) :
    expand s m (pieces.flatMap Piece.spelled ++ rest) =
      (texts.flatten ++ (expand s m rest).1, (expand s m rest).2) := by
  induction h with
  | nil => rfl
  | cons hp _ ih =>
    rw [List.flatMap_cons, List.append_assoc, expand_piece hm hp, ih, List.flatten_cons,
      List.append_assoc]

theorem expand_of_expansion {template text : Bytes} {failure : Option Error}
    (h : Expansion s m template text failure) : expand s m template = (text, failure) := by
  cases h with
  | done hmeans htemplate htail =>
    rw [htemplate, expand_pieces hm hmeans]
    rcases htail with rfl | rfl <;> rfl
  | failed hmeans htemplate hrejects =>
    rw [htemplate, expand_pieces hm hmeans, expand_escape, escape_of_rejects hrejects]
    simp only [List.append_nil]

omit hm in
theorem Expansion.cons {p : Piece} {text rest out : Bytes} {failure : Option Error}
    (hp : p.Means s m text) (h : Expansion s m rest out failure) :
    Expansion s m (p.spelled ++ rest) (text ++ out) failure := by
  cases h with
  | done hmeans htemplate htail =>
    rw [← List.append_assoc, ← List.flatten_cons]
    refine .done (.cons hp hmeans) ?_ htail
    rw [htemplate, List.flatMap_cons, List.append_assoc]
  | @failed pieces texts d rest' e hmeans htemplate hrejects =>
    rw [← List.flatten_cons]
    have hread : p.spelled ++ rest = (p :: pieces).flatMap Piece.spelled ++ Byte.percent :: d :: rest' := by
      rw [htemplate, List.flatMap_cons, List.append_assoc]
    exact .failed (.cons hp hmeans) hread hrejects

theorem exists_expansion (template : Bytes) : ∃ text failure, Expansion s m template text failure := by
  fun_induction expand s m template with
  | case1 => exact ⟨_, _, .done .nil rfl (.inl rfl)⟩
  | case2 => exact ⟨_, _, .done .nil rfl (.inr rfl)⟩
  | case3 d rest text hok _ _ _ ih =>
    rcases means_or_rejects s m d with ⟨text', hp⟩ | ⟨e, hr⟩
    · obtain ⟨out, failure, h⟩ := ih
      exact ⟨_, _, h.cons hp⟩
    · exact ⟨_, _, .failed .nil rfl hr⟩
  | case4 d rest e he =>
    rcases means_or_rejects s m d with ⟨text', hp⟩ | ⟨e, hr⟩
    · rw [escape_of_means hm hp] at he
      cases he
    · exact ⟨_, _, .failed .nil rfl hr⟩
  | case5 b rest hb _ _ _ ih =>
    obtain ⟨out, failure, h⟩ := ih
    exact ⟨_, _, h.cons (.run fun hmem => hb (List.mem_singleton.1 hmem).symm)⟩

omit hm in
theorem expand_append {template : Bytes} (h : Closed template) (next : Bytes) :
    expand s m (template ++ next) =
      match expand s m template with
      | (text, none) => (text ++ (expand s m next).1, (expand s m next).2)
      | (text, some e) => (text, some e) := by
  obtain ⟨pieces, hruns, rfl⟩ := h
  induction pieces with
  | nil => rfl
  | cons p pieces ih =>
    have ih := ih fun bytes hb => hruns bytes (.tail _ hb)
    rw [List.flatMap_cons, List.append_assoc]
    generalize pieces.flatMap Piece.spelled = template at *
    cases p with
    | run bytes =>
      have hbytes := hruns bytes (.head _)
      rw [Piece.spelled, expand_run hbytes, expand_run hbytes, ih]
      rcases expand s m template with ⟨text, _ | e⟩
      · simp only [List.append_assoc]
      · rfl
    | escape d =>
      rw [Piece.spelled, List.cons_append, List.cons_append, List.nil_append, expand_escape,
        List.cons_append, List.cons_append, List.nil_append, expand_escape]
      cases escape s m d with
      | error e => rfl
      | ok text =>
        simp only [ih]
        rcases expand s m template with ⟨out, _ | e⟩
        · simp only [List.append_assoc]
        · rfl

/-- To the buffer is added what the template stands for, up to the first escape that is rejected. Behind a
template that does not end inside an escape the next one is expanded as on its own. -/
theorem expandInto_pieces (buffer template : Bytes) :
    (∀ out failure, expandInto buffer s m template = (out, failure) ↔
        ∃ text, out = buffer ++ text ∧ Expansion s m template text failure) ∧
      (Closed template → ∀ next, expandInto buffer s m (template ++ next) =
        match expandInto buffer s m template with
        | (out, none) => expandInto out s m next
        | (out, some e) => (out, some e)) := by
  constructor
  · intro out failure
    rw [expandInto]
    constructor
    · intro h
      obtain ⟨text, failure', hread⟩ := exists_expansion hm template
      rw [expand_of_expansion hm hread] at h
      cases h
      exact ⟨text, rfl, hread⟩
    · rintro ⟨text, rfl, hread⟩
      rw [expand_of_expansion hm hread]
  · intro hclosed next
    simp only [expandInto]
    rw [expand_append hclosed]
    rcases expand s m template with ⟨text, _ | e⟩
    · simp only [List.append_assoc]
    · rfl

end Expand

theorem expandInto_pieces_missing :
    Match.SpansInside #[97, 98, 99] ⟨0, 3, [.substring 0 1, .position 3]⟩ ∧
      ∃ text, Expansion #[97, 98, 99] ⟨0, 3, [.substring 0 1, .position 3]⟩
        [37, 37, 37, 49, 45, 37, 50, 37, 48, 37, 51, 37] text (some (.captureIndex 3)) ∧
        ([33, 37, 97, 45, 52, 97, 98, 99] : Bytes) = [33] ++ text := by
  have hspans : Match.SpansInside #[97, 98, 99] ⟨0, 3, [.substring 0 1, .position 3]⟩ :=
    ⟨by decide, by decide, fun i j h => by
      simp only [List.mem_cons, Capture.substring.injEq, List.not_mem_nil, reduceCtorEq, or_false] at h
      obtain ⟨rfl, rfl⟩ := h
      decide⟩
  obtain ⟨text, hout, hread⟩ := ((expandInto_pieces hspans [33]
    [37, 37, 37, 49, 45, 37, 50, 37, 48, 37, 51, 37]).1 _ _).1 (by cbv)
  exact ⟨hspans, text, hread, hout⟩

end Template
end BytePattern
