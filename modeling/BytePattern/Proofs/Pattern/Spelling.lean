import Mathlib.Tactic.SplitIfs
import BytePattern.Pattern.Element

/-!
# How elements are spelled

The grammar of patterns as relations between texts and what they spell, with no scanner in it. A set is
spelled by its members and the closing bracket; an element by its own bytes in view of the bytes that
follow, since a quantifier belongs to the token before it and a dollar sign ends a pattern only in last
place. Reading an element finds what is spelled at the front of a source (`Spells.read_append`,
`spells_of_read`) or the reason why nothing is (`Broken.read_eq`, `broken_of_read`).
-/
namespace BytePattern

namespace Bracket

/-- The bytes up to and with the closing bracket spell the members. In `first` place a closing bracket
is a member. -/
inductive Members : Bool → Bytes → List SetMember → Prop
  | close : Members false [Byte.bracketClose] []
  | escape {first : Bool} {e : UInt8} {text : Bytes} {ms : List SetMember} :
      Members false text ms → Members first (Byte.percent :: e :: text) (escaped e :: ms)
  | range {first : Bool} {lo hi : UInt8} {text : Bytes} {ms : List SetMember} :
      ¬ (lo = Byte.bracketClose ∧ first = false) → lo ≠ Byte.percent → hi ≠ Byte.bracketClose →
      Members false text ms →
      Members first (lo :: Byte.minus :: hi :: text) (.range lo hi :: ms)
  | byte {first : Bool} {b : UInt8} {text : Bytes} {ms : List SetMember} :
      ¬ (b = Byte.bracketClose ∧ first = false) → b ≠ Byte.percent →
      (∀ hi tail, text = Byte.minus :: hi :: tail → hi = Byte.bracketClose) →
      Members false text ms → Members first (b :: text) (.byte b :: ms)

inductive Spells : Bytes → ByteSet → Prop
  | plain {text : Bytes} {ms : List SetMember} :
      text.head? ≠ some Byte.caret → Members true text ms → Spells text (ByteSet.ofMembers ms false)
  | negated {text : Bytes} {ms : List SetMember} :
      Members true text ms → Spells (Byte.caret :: text) (ByteSet.ofMembers ms true)

def Unclosed (text : Bytes) : Prop := ∀ front rest set, text = front ++ rest → ¬ Spells front set

theorem Members.ne_nil {first : Bool} {text : Bytes} {ms : List SetMember}
    (h : Members first text ms) : text ≠ [] := by
  cases h <;> simp

theorem Members.eq_close {first : Bool} {b : UInt8} {ms : List SetMember}
    (h : Members first [b] ms) : b = Byte.bracketClose := by
  cases h with
  | close => rfl
  | byte _ _ _ h => exact absurd rfl h.ne_nil

theorem Members.readMembers_append {first : Bool} {text : Bytes} {ms : List SetMember}
    (h : Members first text ms) (rest : Bytes) :
    readMembers first (text ++ rest) = some (ms, text.length) := by
  induction h with
  | close =>
    rw [List.singleton_append, readMembers.eq_def]
    simp only [and_self, if_true, List.length_singleton]
  | @escape first e text ms _ ih =>
    rw [List.cons_append, List.cons_append, readMembers, if_neg (by decide +revert), if_pos rfl]
    simp only [ih, Option.map_some, List.length_cons]
  | @range first lo hi text ms hc hp hh _ ih =>
    simp only [List.cons_append]
    rw [readMembers, if_neg hc, if_neg hp]
    simp only [hh, ih, ne_eq, not_false_eq_true, and_self, if_true, Option.map_some,
      List.length_cons]
  | @byte first b text ms hc hp hm h ih =>
    -- a minus sign that starts a range would stand in the text of the members itself
    have hrange : ∀ m hi tail, text ++ rest = m :: hi :: tail →
        ¬ (m = Byte.minus ∧ hi ≠ Byte.bracketClose) := by
      intro m hi tail ht hmin
      obtain ⟨rfl, hh⟩ := hmin
      cases text with
      | nil => exact h.ne_nil rfl
      | cons c text =>
        cases text with
        | nil =>
          cases ht
          exact absurd h.eq_close (by decide)
        | cons d text =>
          cases ht
          exact hh (hm _ _ rfl)
    rw [List.cons_append, readMembers.eq_def]
    simp only [if_neg hc, if_neg hp]
    split
    · rename_i m hi tail ht
      rw [if_neg (hrange m hi tail ht), ← ht, ih]
      simp
    · rw [ih]
      simp

theorem members_of_readMembers {first : Bool} {text : Bytes} {ms : List SetMember} {n : Nat}
    (h : readMembers first text = some (ms, n)) :
    ∃ front rest, text = front ++ rest ∧ front.length = n ∧ Members first front ms := by
  fun_induction readMembers first text generalizing ms n with
  | case1 => cases h
  | case2 first b rest hc =>
    cases h
    obtain ⟨rfl, rfl⟩ := hc
    exact ⟨[Byte.bracketClose], rest, rfl, rfl, .close⟩
  | case3 => cases h
  | case4 first e rest hc ih =>
    obtain ⟨⟨ms, n⟩, hr, h⟩ := Option.map_eq_some_iff.1 h
    obtain ⟨front, tail, rfl, rfl, hm⟩ := ih hr
    cases h
    exact ⟨Byte.percent :: e :: front, tail, rfl, rfl, .escape hm⟩
  | case5 first b hc hp m hi text hmin ih =>
    obtain ⟨⟨ms, n⟩, hr, h⟩ := Option.map_eq_some_iff.1 h
    obtain ⟨front, tail, rfl, rfl, hm⟩ := ih hr
    obtain ⟨rfl, hh⟩ := hmin
    cases h
    exact ⟨b :: Byte.minus :: hi :: front, tail, rfl, rfl, .range hc hp hh hm⟩
  | case6 first b hc hp m hi text hmin ih =>
    obtain ⟨⟨ms, n⟩, hr, h⟩ := Option.map_eq_some_iff.1 h
    obtain ⟨front, tail, ht, rfl, hm⟩ := ih hr
    cases h
    refine ⟨b :: front, tail, by rw [ht]; rfl, rfl, .byte hc hp ?_ hm⟩
    intro c after he
    subst he
    cases ht
    exact Decidable.of_not_not fun hne => hmin ⟨rfl, hne⟩
  | case7 first b hc hp rest hshort ih =>
    obtain ⟨⟨ms, n⟩, hr, h⟩ := Option.map_eq_some_iff.1 h
    obtain ⟨front, tail, rfl, rfl, hm⟩ := ih hr
    cases h
    refine ⟨b :: front, tail, rfl, rfl, .byte hc hp ?_ hm⟩
    intro c after he
    subst he
    exact absurd rfl (hshort _ _ _)

theorem Spells.read_append {text : Bytes} {set : ByteSet} (h : Spells text set) (rest : Bytes) :
    read (text ++ rest) = some (set, text.length) := by
  cases h with
  | @plain _ ms hc hm =>
    obtain ⟨b, text, rfl⟩ := List.exists_cons_of_ne_nil hm.ne_nil
    have hb : b ≠ Byte.caret := fun he => hc (he ▸ rfl)
    rw [List.cons_append, read, if_neg hb, ← List.cons_append, hm.readMembers_append]
    rfl
  | @negated text ms hm =>
    rw [List.cons_append, read, if_pos rfl, hm.readMembers_append]
    rfl

theorem spells_of_read {text : Bytes} {set : ByteSet} {n : Nat} (h : read text = some (set, n)) :
    ∃ front rest, text = front ++ rest ∧ front.length = n ∧ Spells front set := by
  cases text with
  | nil => cases h
  | cons c rest =>
    rw [read] at h
    split at h
    · rename_i hc
      obtain ⟨⟨ms, n⟩, hr, h⟩ := Option.map_eq_some_iff.1 h
      obtain ⟨front, tail, rfl, rfl, hm⟩ := members_of_readMembers hr
      cases h
      subst hc
      exact ⟨Byte.caret :: front, tail, rfl, rfl, .negated hm⟩
    · rename_i hc
      obtain ⟨⟨ms, n⟩, hr, h⟩ := Option.map_eq_some_iff.1 h
      obtain ⟨front, tail, ht, rfl, hm⟩ := members_of_readMembers hr
      cases h
      obtain ⟨b, front, rfl⟩ := List.exists_cons_of_ne_nil hm.ne_nil
      cases ht
      exact ⟨c :: front, tail, rfl, rfl, .plain (fun he => hc (Option.some.inj he)) hm⟩

theorem read_eq_none_iff {text : Bytes} : read text = none ↔ Unclosed text := by
  constructor
  · intro h front rest set he hs
    subst he
    rw [hs.read_append] at h
    cases h
  · intro h
    cases hr : read text with
    | none => rfl
    | some r =>
      obtain ⟨front, rest, ht, _, hs⟩ := spells_of_read hr
      exact absurd hs (h front rest _ ht)

end Bracket

def Token.leads : Bytes :=
  [Byte.dot, Byte.percent, Byte.bracketOpen, Byte.parenOpen, Byte.parenClose]

inductive Token.Spells : Token → Bytes → Prop
  | any : Spells .any [Byte.dot]
  | byte {b : UInt8} : b ∉ leads → Spells (.byte b) [b]
  | ofClass {e : UInt8} {t : ClassTest} :
      e ≠ Byte.letterB → e ≠ Byte.letterF → Byte.isDigit e = false →
      ClassTest.ofLetter? e = some t → Spells (.ofClass t) [Byte.percent, e]
  | escaped {e : UInt8} :
      e ≠ Byte.letterB → e ≠ Byte.letterF → Byte.isDigit e = false →
      ClassTest.ofLetter? e = none → Spells (.byte e) [Byte.percent, e]
  | set {text : Bytes} {set : ByteSet} :
      Bracket.Spells text set → Spells (.set set) (Byte.bracketOpen :: text)

def Quantifier.suffix : Quantifier → Bytes
  | .one => []
  | .zeroOrMore => [Byte.star]
  | .oneOrMore => [Byte.plus]
  | .lazy => [Byte.minus]
  | .zeroOrOne => [Byte.question]

def Unquantified (rest : Bytes) : Prop := ∀ q : Quantifier, q ≠ .one → ¬ q.suffix <+: rest

theorem Quantifier.ofByte?_eq_some_iff {b : UInt8} {q : Quantifier} :
    ofByte? b = some q ↔ q.suffix = [b] := by
  unfold ofByte?
  constructor
  · intro h
    split_ifs at h with h1 h2 h3 h4 <;> cases h <;> simp [suffix, *]
  · intro h
    cases q <;> simp only [suffix, List.cons.injEq, and_true, reduceCtorEq] at h <;> subst h <;> rfl

theorem head?_bind_ofByte?_eq_some_iff {rest : Bytes} {q : Quantifier} :
    rest.head?.bind Quantifier.ofByte? = some q ↔ q ≠ .one ∧ q.suffix <+: rest := by
  cases rest with
  | nil => cases q <;> simp [Quantifier.suffix]
  | cons b rest =>
    rw [List.head?_cons, Option.bind_some, Quantifier.ofByte?_eq_some_iff]
    cases q <;> simp [Quantifier.suffix]

theorem head?_bind_ofByte?_eq_none_iff {rest : Bytes} :
    rest.head?.bind Quantifier.ofByte? = none ↔ Unquantified rest := by
  rw [Option.eq_none_iff_forall_ne_some]
  constructor
  · intro h q hq hs
    exact h q (head?_bind_ofByte?_eq_some_iff.2 ⟨hq, hs⟩)
  · intro h q hq
    obtain ⟨hne, hs⟩ := head?_bind_ofByte?_eq_some_iff.1 hq
    exact h q hne hs

theorem Token.Spells.read_append {t : Token} {b : UInt8} {front : Bytes}
    (h : t.Spells (b :: front)) (offset : Nat) (rest : Bytes) :
    Token.read offset b (front ++ rest) = .ok (t, front.length) := by
  cases h with
  | any => rfl
  | byte hb =>
    simp only [leads, List.mem_cons, List.not_mem_nil, or_false, not_or] at hb
    rw [Token.read.eq_def, if_neg hb.1, if_neg hb.2.1, if_neg hb.2.2.1]
    rfl
  | ofClass _ _ _ he =>
    simp only [Token.read, List.cons_append, he]
    rfl
  | escaped _ _ _ he =>
    simp only [Token.read, List.cons_append, he]
    rfl
  | set hs =>
    simp only [Token.read, hs.read_append]
    rfl

namespace Element

inductive Spells : Element → Bytes → Bytes → Prop
  | position {rest : Bytes} : Spells .position [Byte.parenOpen, Byte.parenClose] rest
  | opening {rest : Bytes} :
      rest.head? ≠ some Byte.parenClose → Spells .opening [Byte.parenOpen] rest
  | closing {rest : Bytes} : Spells .closing [Byte.parenClose] rest
  | subjectEnd : Spells .subjectEnd [Byte.dollar] []
  | balanced {x y : UInt8} {rest : Bytes} :
      Spells (.balanced x y) [Byte.percent, Byte.letterB, x, y] rest
  | frontier {text rest : Bytes} {set : ByteSet} :
      Bracket.Spells text set →
      Spells (.frontier set) (Byte.percent :: Byte.letterF :: Byte.bracketOpen :: text) rest
  | backReference {d : UInt8} {rest : Bytes} :
      Byte.isDigit d → Spells (.backReference (d - Byte.digitZero).toNat) [Byte.percent, d] rest
  | single {t : Token} {q : Quantifier} {text rest : Bytes} :
      t.Spells text → (q = .one → Unquantified rest) → text ++ q.suffix ++ rest ≠ [Byte.dollar] →
      Spells (.single t q) (text ++ q.suffix) rest

/-- No element begins the bytes, for the cause that stands `n` bytes behind their start. -/
inductive Broken : Bytes → Nat → Malformation → Prop
  | endsWithEscape : Broken [Byte.percent] 0 .endsWithEscape
  | missingDelimiters {rest : Bytes} :
      rest.length < 2 → Broken (Byte.percent :: Byte.letterB :: rest) 0 .missingDelimiters
  | missingFrontierSet {rest : Bytes} :
      rest.head? ≠ some Byte.bracketOpen →
      Broken (Byte.percent :: Byte.letterF :: rest) 0 .missingFrontierSet
  | frontierBracket {rest : Bytes} :
      Bracket.Unclosed rest →
      Broken (Byte.percent :: Byte.letterF :: Byte.bracketOpen :: rest) 2 .missingBracket
  | bracket {rest : Bytes} :
      Bracket.Unclosed rest → Broken (Byte.bracketOpen :: rest) 0 .missingBracket

theorem Spells.digit_le {d : Nat} {text rest : Bytes}
    (h : (Element.backReference d).Spells text rest) : d ≤ 9 := by
  cases h with
  | @backReference c _ hc =>
    simp only [Byte.isDigit, Bool.and_eq_true, decide_eq_true_eq] at hc
    have h9 : c.toNat ≤ 57 := UInt8.le_iff_toNat_le.1 hc.2
    rw [UInt8.toNat_sub_of_le _ _ hc.1, show Byte.digitZero.toNat = 48 from rfl]
    omega

theorem Spells.text_ne_nil {e : Element} {text rest : Bytes} (h : e.Spells text rest) :
    text ≠ [] := by
  cases h with
  | single ht => cases ht <;> simp
  | _ => simp

theorem readSingle_eq_ok_iff {offset : Nat} {b : UInt8} {rest : Bytes} {e : Element} {n : Nat} :
    readSingle offset b rest = .ok (e, n) ↔ ∃ t q k, Token.read offset b rest = .ok (t, k) ∧
      e = .single t q ∧ n = k + q.suffix.length ∧ q.suffix <+: rest.drop k ∧
      (q = .one → Unquantified (rest.drop k)) := by
  rw [readSingle, bind_eq_ok]
  constructor
  · intro h
    obtain ⟨⟨t, k⟩, ht, h⟩ := h
    refine ⟨t, ?_⟩
    simp only at h
    split at h
    · rename_i q hq
      obtain ⟨hne, hs⟩ := head?_bind_ofByte?_eq_some_iff.1 hq
      cases h
      refine ⟨q, k, ht, rfl, ?_, hs, fun he => absurd he hne⟩
      cases q <;> simp_all [Quantifier.suffix]
    · rename_i hq
      cases h
      exact ⟨.one, _, ht, rfl, rfl, List.nil_prefix, fun _ => head?_bind_ofByte?_eq_none_iff.1 hq⟩
  · intro h
    obtain ⟨t, q, k, ht, rfl, rfl, hs, hone⟩ := h
    refine ⟨(t, k), ht, ?_⟩
    by_cases hq : q = .one
    · subst hq
      simp only [head?_bind_ofByte?_eq_none_iff.2 (hone rfl)]
      rfl
    · simp only [head?_bind_ofByte?_eq_some_iff.2 ⟨hq, hs⟩]
      cases q <;> first | exact absurd rfl hq | rfl

theorem read_percent (offset : Nat) (rest : Bytes) :
    read offset Byte.percent rest = readEscape offset rest := by
  simp only [read, show Byte.percent ≠ Byte.parenOpen by decide,
    show Byte.percent ≠ Byte.parenClose by decide, show Byte.percent ≠ Byte.dollar by decide,
    if_false, false_and, if_true]

theorem read_eq_readSingle {b : UInt8} {rest : Bytes} (ho : b ≠ Byte.parenOpen)
    (hc : b ≠ Byte.parenClose) (hp : b ≠ Byte.percent) (hd : b :: rest ≠ [Byte.dollar])
    (offset : Nat) : read offset b rest = readSingle offset b rest := by
  have hdollar : ¬ (b = Byte.dollar ∧ rest = []) := by
    intro h
    obtain ⟨rfl, rfl⟩ := h
    exact hd rfl
  rw [read, if_neg ho, if_neg hc, if_neg hdollar, if_neg hp]

theorem readEscape_eq_readSingle {c : UInt8} (hb : c ≠ Byte.letterB) (hf : c ≠ Byte.letterF)
    (hd : Byte.isDigit c = false) (offset : Nat) (rest : Bytes) :
    readEscape offset (c :: rest) = readSingle offset Byte.percent (c :: rest) := by
  rw [readEscape, if_neg hb, if_neg hf, if_neg (by simp [hd])]

theorem read_single {t : Token} {q : Quantifier} {b : UInt8} {front rest : Bytes}
    (ht : t.Spells (b :: front)) (hq : q = .one → Unquantified rest)
    (hd : b :: (front ++ q.suffix ++ rest) ≠ [Byte.dollar]) (offset : Nat) :
    read offset b (front ++ q.suffix ++ rest) =
      .ok (.single t q, (front ++ q.suffix).length) := by
  have hs : readSingle offset b (front ++ q.suffix ++ rest) =
      .ok (.single t q, (front ++ q.suffix).length) := by
    refine readSingle_eq_ok_iff.2 ⟨t, q, front.length, ?_, rfl, List.length_append, ?_, ?_⟩
    · rw [List.append_assoc]
      exact ht.read_append offset _
    · rw [List.append_assoc, List.drop_left]
      exact List.prefix_append ..
    · intro he
      subst he
      simpa [Quantifier.suffix] using hq rfl
  cases ht with
  | any => rw [← hs, read_eq_readSingle (by decide) (by decide) (by decide) hd]
  | byte hb =>
    simp only [Token.leads, List.mem_cons, List.not_mem_nil, or_false, not_or] at hb
    rw [← hs, read_eq_readSingle hb.2.2.2.1 hb.2.2.2.2 hb.2.1 hd]
  | ofClass hb hf hdig => rw [← hs, read_percent]; exact readEscape_eq_readSingle hb hf hdig ..
  | escaped hb hf hdig => rw [← hs, read_percent]; exact readEscape_eq_readSingle hb hf hdig ..
  | set => rw [← hs, read_eq_readSingle (by decide) (by decide) (by decide) hd]

theorem Spells.read_append {e : Element} {b : UInt8} {front rest : Bytes}
    (h : e.Spells (b :: front) rest) (offset : Nat) :
    read offset b (front ++ rest) = .ok (e, front.length) := by
  generalize ht : b :: front = text at h
  cases h with
  | position => cases ht; rfl
  | opening hr =>
    cases ht
    rw [List.nil_append, read, if_pos rfl, if_neg hr]
    rfl
  | closing => cases ht; rfl
  | subjectEnd => cases ht; rfl
  | balanced => cases ht; rfl
  | frontier hs =>
    cases ht
    rw [read_percent]
    simp only [List.cons_append, readEscape, show Byte.letterF ≠ Byte.letterB by decide, if_false,
      if_true, readFrontier, hs.read_append]
    rfl
  | @backReference d _ hd =>
    cases ht
    rw [read_percent]
    have hb : d ≠ Byte.letterB := fun he => absurd (he ▸ hd) (by decide)
    have hf : d ≠ Byte.letterF := fun he => absurd (he ▸ hd) (by decide)
    simp only [List.cons_append, readEscape, if_neg hb, if_neg hf, if_pos hd]
    rfl
  | @single t q text _ hs hq hd =>
    cases text with
    | nil => cases hs
    | cons c text =>
      cases ht
      exact read_single hs hq hd offset

theorem spells_of_readSingle {offset : Nat} {b : UInt8} {rest : Bytes} {e : Element} {n : Nat}
    (hb : ∀ t k, Token.read offset b rest = .ok (t, k) →
      ∃ front tail, rest = front ++ tail ∧ front.length = k ∧ t.Spells (b :: front))
    (hd : b :: rest ≠ [Byte.dollar]) (h : readSingle offset b rest = .ok (e, n)) :
    ∃ front tail, rest = front ++ tail ∧ front.length = n ∧ e.Spells (b :: front) tail := by
  obtain ⟨t, q, k, ht, rfl, rfl, hq, hone⟩ := readSingle_eq_ok_iff.1 h
  obtain ⟨front, tail, rfl, rfl, hs⟩ := hb t k ht
  rw [List.drop_left] at hq hone
  obtain ⟨tail, rfl⟩ := hq
  refine ⟨front ++ q.suffix, tail, (List.append_assoc ..).symm, List.length_append, ?_⟩
  refine .single hs ?_ ?_
  · intro he
    subst he
    exact hone rfl
  · simpa using hd

theorem token_spells_of_read {offset : Nat} {b : UInt8} {rest : Bytes} {t : Token} {k : Nat}
    (hp : b ≠ Byte.percent) (ho : b ≠ Byte.parenOpen) (hc : b ≠ Byte.parenClose)
    (h : Token.read offset b rest = .ok (t, k)) :
    ∃ front tail, rest = front ++ tail ∧ front.length = k ∧ t.Spells (b :: front) := by
  rw [Token.read.eq_def, if_neg hp] at h
  split at h
  · rename_i hdot
    cases h
    exact ⟨[], rest, rfl, rfl, hdot ▸ .any⟩
  · rename_i hdot
    split at h
    · rename_i hbr
      split at h
      · rename_i set n hr
        cases h
        obtain ⟨front, tail, rfl, rfl, hs⟩ := Bracket.spells_of_read hr
        exact ⟨front, tail, rfl, rfl, hbr ▸ .set hs⟩
      · cases h
    · rename_i hbr
      cases h
      refine ⟨[], rest, rfl, rfl, .byte ?_⟩
      simp [Token.leads, hdot, hp, hbr, ho, hc]

theorem spells_of_readEscape {offset : Nat} {rest : Bytes} {e : Element} {n : Nat}
    (h : readEscape offset rest = .ok (e, n)) :
    ∃ front tail, rest = front ++ tail ∧ front.length = n ∧
      e.Spells (Byte.percent :: front) tail := by
  cases rest with
  | nil => cases h
  | cons c rest =>
    rw [readEscape] at h
    split at h
    · rename_i hc
      subst hc
      cases rest with
      | nil => cases h
      | cons x rest =>
        cases rest with
        | nil => cases h
        | cons y tail =>
          cases h
          exact ⟨[Byte.letterB, x, y], tail, rfl, rfl, .balanced⟩
    · rename_i hb
      split at h
      · rename_i hc
        subst hc
        cases rest with
        | nil => cases h
        | cons d rest =>
          rw [readFrontier] at h
          split at h
          · rename_i hbr
            split at h
            · rename_i set k hr
              cases h
              obtain ⟨front, tail, rfl, rfl, hs⟩ := Bracket.spells_of_read hr
              exact ⟨Byte.letterF :: d :: front, tail, rfl, rfl, hbr ▸ .frontier hs⟩
            · cases h
          · cases h
      · rename_i hf
        split at h
        · rename_i hd
          cases h
          exact ⟨[c], rest, rfl, rfl, .backReference hd⟩
        · rename_i hd
          simp only [Bool.not_eq_true] at hd
          refine spells_of_readSingle ?_ (fun he => by cases he) h
          intro t k ht
          rw [Token.read.eq_def] at ht
          simp only [show Byte.percent ≠ Byte.dot by decide, if_false, if_true] at ht
          split at ht
          · cases ht
            exact ⟨[c], rest, rfl, rfl, .ofClass hb hf hd ‹_›⟩
          · cases ht
            exact ⟨[c], rest, rfl, rfl, .escaped hb hf hd ‹_›⟩

theorem spells_of_read {offset : Nat} {b : UInt8} {rest : Bytes} {e : Element} {n : Nat}
    (h : read offset b rest = .ok (e, n)) :
    ∃ front tail, rest = front ++ tail ∧ front.length = n ∧ e.Spells (b :: front) tail := by
  rw [read] at h
  split at h
  · rename_i hb
    subst hb
    split at h
    · rename_i hr
      obtain ⟨c, tail, rfl⟩ : ∃ c tail, rest = c :: tail := by
        cases rest with
        | nil => cases hr
        | cons c tail => exact ⟨c, tail, rfl⟩
      cases hr
      cases h
      exact ⟨[Byte.parenClose], tail, rfl, rfl, .position⟩
    · cases h
      exact ⟨[], rest, rfl, rfl, .opening ‹_›⟩
  · rename_i ho
    split at h
    · rename_i hb
      cases h
      exact ⟨[], rest, rfl, rfl, hb ▸ .closing⟩
    · rename_i hc
      split at h
      · rename_i hb
        obtain ⟨rfl, rfl⟩ := hb
        cases h
        exact ⟨[], [], rfl, rfl, .subjectEnd⟩
      · rename_i hd
        split at h
        · rename_i hb
          subst hb
          exact spells_of_readEscape h
        · rename_i hp
          refine spells_of_readSingle (fun t k => token_spells_of_read hp ho hc) ?_ h
          intro he
          cases he
          exact hd ⟨rfl, rfl⟩

theorem Broken.read_eq {b : UInt8} {rest : Bytes} {k : Nat} {cause : Malformation}
    (h : Broken (b :: rest) k cause) (offset : Nat) :
    read offset b rest = .error ⟨cause, offset + k⟩ := by
  generalize ht : b :: rest = text at h
  cases h with
  | endsWithEscape => cases ht; rfl
  | @missingDelimiters tail hl =>
    cases ht
    cases tail with
    | nil => rfl
    | cons x tail =>
      cases tail with
      | nil => rfl
      | cons y tail =>
        simp only [List.length_cons] at hl
        omega
  | @missingFrontierSet tail hr =>
    cases ht
    cases tail with
    | nil => rfl
    | cons c tail =>
      have hc : c ≠ Byte.bracketOpen := fun he => hr (he ▸ rfl)
      rw [read_percent, readEscape, if_neg (by decide), if_pos rfl, readFrontier, if_neg hc]
      rfl
  | frontierBracket hu =>
    cases ht
    rw [read_percent, readEscape, if_neg (by decide), if_pos rfl, readFrontier, if_pos rfl,
      Bracket.read_eq_none_iff.2 hu]
  | bracket hu =>
    cases ht
    rw [read_eq_readSingle (by decide) (by decide) (by decide) (fun he => by cases he)]
    refine bind_eq_error.2 (.inl ?_)
    simp only [Token.read, Bracket.read_eq_none_iff.2 hu]
    rfl

theorem readSingle_eq_error_iff {offset : Nat} {b : UInt8} {rest : Bytes} {f : Fault} :
    readSingle offset b rest = .error f ↔ Token.read offset b rest = .error f := by
  rw [readSingle, bind_eq_error, or_iff_left]
  intro h
  obtain ⟨⟨t, k⟩, _, h⟩ := h
  simp only at h
  split at h <;> cases h

theorem broken_of_readEscape {offset : Nat} {rest : Bytes} {f : Fault}
    (h : readEscape offset rest = .error f) :
    ∃ k cause, Broken (Byte.percent :: rest) k cause ∧ f = ⟨cause, offset + k⟩ := by
  cases rest with
  | nil => cases h; exact ⟨_, _, .endsWithEscape, rfl⟩
  | cons c rest =>
    rw [readEscape] at h
    split at h
    · rename_i hc
      subst hc
      cases rest with
      | nil =>
        cases h
        exact ⟨_, _, .missingDelimiters (by simp), rfl⟩
      | cons x rest =>
        cases rest with
        | nil =>
          cases h
          exact ⟨_, _, .missingDelimiters (by simp), rfl⟩
        | cons y tail => cases h
    · split at h
      · rename_i hc
        subst hc
        cases rest with
        | nil =>
          cases h
          exact ⟨_, _, .missingFrontierSet (by simp), rfl⟩
        | cons d rest =>
          rw [readFrontier] at h
          split at h
          · rename_i hbr
            split at h
            · cases h
            · rename_i hr
              cases h
              exact ⟨_, _, hbr ▸ .frontierBracket (Bracket.read_eq_none_iff.1 hr), rfl⟩
          · rename_i hbr
            cases h
            exact ⟨_, _, .missingFrontierSet (fun he => hbr (Option.some.inj he)), rfl⟩
      · split at h
        · cases h
        · rw [readSingle_eq_error_iff, Token.read.eq_def] at h
          simp only [show Byte.percent ≠ Byte.dot by decide, if_false, if_true] at h
          split at h <;> cases h

theorem broken_of_read {offset : Nat} {b : UInt8} {rest : Bytes} {f : Fault}
    (h : read offset b rest = .error f) :
    ∃ k cause, Broken (b :: rest) k cause ∧ f = ⟨cause, offset + k⟩ := by
  rw [read] at h
  split at h
  · split at h <;> cases h
  · split at h
    · cases h
    · split at h
      · cases h
      · split at h
        · rename_i hb
          subst hb
          exact broken_of_readEscape h
        · rename_i hp
          rw [readSingle_eq_error_iff, Token.read.eq_def, if_neg hp] at h
          split at h
          · cases h
          · split at h
            · rename_i hb
              subst hb
              split at h
              · cases h
              · rename_i hr
                cases h
                exact ⟨_, _, .bracket (Bracket.read_eq_none_iff.1 hr), rfl⟩
            · cases h

end Element
end BytePattern
