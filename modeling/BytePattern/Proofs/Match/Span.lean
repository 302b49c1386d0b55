import Mathlib.Order.Bounds.Defs
import BytePattern.Match.Step

/-!
# Spans of the subject

What the scans of the subject find, said of all offsets at once: the run of a token holds just the
repetitions it accepts (`accepts_iff_le_runEnd`), a balanced span ends where opener and closer are first
even (`balancedEnd_eq_some_iff`, `balancedEnd_least`), and a copy of a span has its bytes (`hasAt_extract`).
-/
namespace BytePattern
namespace Subject

def Accepts (s : Subject) (t : Token) (i n : Nat) : Prop :=
  ∀ d < n, ∃ b, s[i + d]? = some b ∧ t.accepts b

theorem accepts_zero (s : Subject) (t : Token) (i : Nat) : s.Accepts t i 0 :=
  fun _ hd => absurd hd (Nat.not_lt_zero _)

theorem accepts_succ {s : Subject} {t : Token} {i n : Nat} :
    s.Accepts t i (n + 1) ↔ (∃ b, s[i]? = some b ∧ t.accepts b) ∧ s.Accepts t (i + 1) n := by
  have hshift (d : Nat) : i + (d + 1) = i + 1 + d := by omega
  constructor
  · intro h
    refine ⟨h 0 (Nat.succ_pos n), fun d hd => ?_⟩
    rw [← hshift]
    exact h (d + 1) (Nat.succ_lt_succ hd)
  · intro h d hd
    cases d with
    | zero => exact h.1
    | succ d =>
      rw [hshift]
      exact h.2 d (Nat.lt_of_succ_lt_succ hd)

theorem accepts_one {s : Subject} {t : Token} {i : Nat} :
    s.Accepts t i 1 ↔ ∃ b, s[i]? = some b ∧ t.accepts b := by
  rw [accepts_succ]
  exact and_iff_left (s.accepts_zero t (i + 1))

theorem accepts_iff_le_runEnd (s : Subject) (t : Token) (i n : Nat) :
    s.Accepts t i n ↔ n ≤ s.runEnd t i - i := by
  fun_induction runEnd s t i generalizing n with
  | case1 i hi ht ih =>
    cases n with
    | zero => exact iff_of_true (s.accepts_zero t i) (Nat.zero_le _)
    | succ n =>
      have hle := s.le_runEnd t (i + 1)
      rw [accepts_succ, ih, and_iff_right ⟨s[i], Array.getElem?_eq_getElem hi, ht⟩]
      omega
  | case2 i hi ht =>
    cases n with
    | zero => exact iff_of_true (s.accepts_zero t i) (Nat.zero_le _)
    | succ n =>
      refine iff_of_false (fun h => ?_) (by omega)
      obtain ⟨b, hb, hacc⟩ := h 0 (Nat.succ_pos n)
      rw [Nat.add_zero, Array.getElem?_eq_getElem hi] at hb
      cases hb
      exact ht hacc
  | case3 i hi =>
    cases n with
    | zero => exact iff_of_true (s.accepts_zero t i) (Nat.zero_le _)
    | succ n =>
      refine iff_of_false (fun h => ?_) (by omega)
      obtain ⟨b, hb, _⟩ := h 0 (Nat.succ_pos n)
      exact hi (Array.getElem?_eq_some_iff.1 hb).1

def count (s : Subject) (b : UInt8) (i j : Nat) : Nat := (s.extract i j).count b

theorem count_succ {s : Subject} {i j : Nat} (hij : i ≤ j) (hj : j < s.size) (b : UInt8) :
    s.count b i (j + 1) = s.count b i j + if s[j] = b then 1 else 0 := by
  rw [count, count, Array.extract_succ_right (by omega) hj, Array.count_push]
  simp

theorem count_self (s : Subject) (b : UInt8) (i : Nat) : s.count b i i = 0 := by
  rw [count, Array.extract_empty_of_stop_le_start (Nat.le_refl i)]
  rfl

/-- The opener at `i` and the closer make the span from `i` to `e` even. Where one byte is both, it
stands at the two ends. -/
def BalancedSpan (s : Subject) (opener closer : UInt8) (i e : Nat) : Prop :=
  s[i]? = some opener ∧ i + 1 < e ∧ e ≤ s.size ∧
    if opener = closer then s[e - 1]? = some closer
    else s.count opener i e = s.count closer i e

def ShortestSpan (s : Subject) (opener closer : UInt8) (i e : Nat) : Prop :=
  s.BalancedSpan opener closer i e ∧ ∀ e' < e, ¬ s.BalancedSpan opener closer i e'

def Evens (s : Subject) (opener closer : UInt8) (i j : Nat) (r : Option Nat) : Prop :=
  match r with
  | some e => j < e ∧ e ≤ s.size ∧ s.count opener i e = s.count closer i e ∧
      ∀ k, j ≤ k → k < e → s.count closer i k < s.count opener i k
  | none => ∀ k, j ≤ k → k ≤ s.size → s.count closer i k < s.count opener i k

theorem Evens.of_succ {s : Subject} {opener closer : UInt8} {i j : Nat} {r : Option Nat}
    (h : s.Evens opener closer i (j + 1) r) (hj : s.count closer i j < s.count opener i j) :
    s.Evens opener closer i j r := by
  cases r with
  | none =>
    intro k hjk hk
    rcases Nat.eq_or_lt_of_le hjk with rfl | hlt
    · exact hj
    · exact h k hlt hk
  | some e =>
    obtain ⟨hlt, hle, heq, hk⟩ := h
    refine ⟨by omega, hle, heq, fun k hjk hke => ?_⟩
    rcases Nat.eq_or_lt_of_le hjk with rfl | hlt
    · exact hj
    · exact hk k hlt hke

theorem closeFrom_evens {s : Subject} {opener closer : UInt8} (hne : opener ≠ closer)
    {i inner j : Nat} (hij : i ≤ j) (hjs : j ≤ s.size)
    (h : s.count opener i j = s.count closer i j + inner + 1) :
    s.Evens opener closer i j (s.closeFrom opener closer inner j) := by
  -- the depth of the scan is the number of openers that have no closer yet
  fun_induction closeFrom s opener closer inner j with
  | case1 j hj hc =>
    have ho := count_succ hij hj opener
    have hcl := count_succ hij hj closer
    rw [if_neg (hc ▸ hne.symm)] at ho
    rw [if_pos hc] at hcl
    refine ⟨Nat.lt_succ_self j, hj, by omega, fun k hjk hk => ?_⟩
    obtain rfl : k = j := by omega
    omega
  | case2 j hj hc inner ih =>
    have ho := count_succ hij hj opener
    have hcl := count_succ hij hj closer
    rw [if_neg (hc ▸ hne.symm)] at ho
    rw [if_pos hc] at hcl
    exact (ih (by omega) hj (by omega)).of_succ (by omega)
  | case3 inner j hj hc ho ih =>
    have hop := count_succ hij hj opener
    have hcl := count_succ hij hj closer
    rw [if_pos ho] at hop
    rw [if_neg hc] at hcl
    exact (ih (by omega) hj (by omega)).of_succ (by omega)
  | case4 inner j hj hc ho ih =>
    have hop := count_succ hij hj opener
    have hcl := count_succ hij hj closer
    rw [if_neg ho] at hop
    rw [if_neg hc] at hcl
    exact (ih (by omega) hj (by omega)).of_succ (by omega)
  | case5 inner j hj =>
    intro k hjk hk
    obtain rfl : k = j := by omega
    omega

def Occurs (s : Subject) (b : UInt8) (j : Nat) (r : Option Nat) : Prop :=
  match r with
  | some e => j < e ∧ s[e - 1]? = some b ∧ ∀ k, j ≤ k → k + 1 < e → s[k]? ≠ some b
  | none => ∀ k, j ≤ k → s[k]? ≠ some b

theorem Occurs.of_succ {s : Subject} {b : UInt8} {j : Nat} {r : Option Nat}
    (h : s.Occurs b (j + 1) r) (hj : s[j]? ≠ some b) : s.Occurs b j r := by
  cases r with
  | none =>
    intro k hjk
    rcases Nat.eq_or_lt_of_le hjk with rfl | hlt
    · exact hj
    · exact h k hlt
  | some e =>
    obtain ⟨hlt, he, hk⟩ := h
    refine ⟨by omega, he, fun k hjk hke => ?_⟩
    rcases Nat.eq_or_lt_of_le hjk with rfl | hlt
    · exact hj
    · exact hk k hlt hke

theorem closeFrom_occurs {s : Subject} {opener closer : UInt8} (heq : opener = closer)
    {inner j : Nat} (hi : inner = 0) : s.Occurs closer j (s.closeFrom opener closer inner j) := by
  fun_induction closeFrom s opener closer inner j with
  | case1 j hj hc =>
    refine ⟨Nat.lt_succ_self j, ?_, fun k hjk hk => by omega⟩
    rw [Nat.add_sub_cancel, Array.getElem?_eq_getElem hj, hc]
  | case2 => cases hi
  | case3 inner j hj hc ho => exact absurd (ho.trans heq) hc
  | case4 inner j hj hc ho ih =>
    refine (ih hi).of_succ ?_
    rw [Array.getElem?_eq_getElem hj]
    exact fun h => hc (Option.some.inj h)
  | case5 inner j hj =>
    intro k hjk hk
    exact hj (Nat.lt_of_le_of_lt hjk (Array.getElem?_eq_some_iff.1 hk).1)

def Ends (s : Subject) (opener closer : UInt8) (i : Nat) (r : Option Nat) : Prop :=
  match r with
  | some e => s.ShortestSpan opener closer i e
  | none => ∀ e, ¬ s.BalancedSpan opener closer i e

theorem Occurs.ends {s : Subject} {opener closer : UInt8} {i : Nat} {r : Option Nat}
    (h : s.Occurs closer (i + 1) r) (ho : s[i]? = some opener) (heq : opener = closer) :
    s.Ends opener closer i r := by
  cases r with
  | none =>
    intro e he
    obtain ⟨_, hlt, _, hb⟩ := he
    rw [if_pos heq] at hb
    exact h (e - 1) (by omega) hb
  | some e =>
    obtain ⟨hlt, he, hk⟩ := h
    have hsize := (Array.getElem?_eq_some_iff.1 he).1
    refine ⟨⟨ho, hlt, by omega, by rwa [if_pos heq]⟩, fun e' hlt' he' => ?_⟩
    obtain ⟨_, hle, _, hb⟩ := he'
    rw [if_pos heq] at hb
    exact hk (e' - 1) (by omega) (by omega) hb

theorem Evens.ends {s : Subject} {opener closer : UInt8} {i : Nat} {r : Option Nat}
    (h : s.Evens opener closer i (i + 1) r) (ho : s[i]? = some opener) (hne : opener ≠ closer) :
    s.Ends opener closer i r := by
  cases r with
  | none =>
    intro e he
    obtain ⟨_, hlt, hle, hb⟩ := he
    rw [if_neg hne] at hb
    have hmore := h e (by omega) hle
    omega
  | some e =>
    obtain ⟨hlt, hle, he, hk⟩ := h
    refine ⟨⟨ho, hlt, hle, by rwa [if_neg hne]⟩, fun e' hlt' he' => ?_⟩
    obtain ⟨_, hle', _, hb⟩ := he'
    rw [if_neg hne] at hb
    have hmore := hk e' (by omega) hlt'
    omega

theorem balancedEnd_evens {s : Subject} {opener closer : UInt8} {i : Nat} (ho : s[i]? = some opener)
    (hne : opener ≠ closer) : s.Evens opener closer i (i + 1) (s.balancedEnd opener closer i) := by
  obtain ⟨hi, hoi⟩ := Array.getElem?_eq_some_iff.1 ho
  have hone := count_succ (Nat.le_refl i) hi opener
  have hzero := count_succ (Nat.le_refl i) hi closer
  rw [count_self, if_pos hoi] at hone
  rw [count_self, if_neg (hoi ▸ hne)] at hzero
  rw [balancedEnd, if_pos ho]
  exact closeFrom_evens hne (Nat.le_succ i) hi (by omega)

theorem balancedEnd_ends (s : Subject) (opener closer : UInt8) (i : Nat) :
    s.Ends opener closer i (s.balancedEnd opener closer i) := by
  by_cases ho : s[i]? = some opener
  · by_cases heq : opener = closer
    · rw [balancedEnd, if_pos ho]
      exact (closeFrom_occurs heq rfl).ends ho heq
    · exact (balancedEnd_evens ho heq).ends ho heq
  · rw [balancedEnd, if_neg ho]
    exact fun e he => ho he.1

theorem balancedEnd_eq_some_iff {s : Subject} {opener closer : UInt8} {i e : Nat} :
    s.balancedEnd opener closer i = some e ↔ s.ShortestSpan opener closer i e := by
  have h := s.balancedEnd_ends opener closer i
  cases hr : s.balancedEnd opener closer i with
  | none =>
    rw [hr] at h
    exact iff_of_false (by simp) fun he => h e he.1
  | some e' =>
    rw [hr] at h
    constructor
    · intro he
      cases he
      exact h
    · intro he
      rcases Nat.lt_trichotomy e e' with hlt | rfl | hlt
      · exact absurd he.1 (h.2 e hlt)
      · rfl
      · exact absurd h.1 (he.2 e' hlt)

def NextAt (s : Subject) (b : UInt8) (i j : Nat) : Prop :=
  s[j]? = some b ∧ ∀ k, i < k → k < j → s[k]? ≠ some b

/-- The text from `i` to `e` has as many closers as openers. Where one byte is both, its next place behind
`i` is the last one before `e`. -/
def EvenEnd (s : Subject) (opener closer : UInt8) (i e : Nat) : Prop :=
  i + 1 < e ∧ e ≤ s.size ∧
    if opener = closer then s.NextAt opener i (e - 1) else s.count closer i e = s.count opener i e

theorem EvenEnd.balancedSpan {s : Subject} {opener closer : UInt8} {i e : Nat}
    (h : s.EvenEnd opener closer i e) (ho : s[i]? = some opener) : s.BalancedSpan opener closer i e := by
  obtain ⟨hlt, hle, he⟩ := h
  refine ⟨ho, hlt, hle, ?_⟩
  by_cases heq : opener = closer
  · rw [if_pos heq] at he ⊢
    rw [← heq]
    exact he.1
  · rw [if_neg heq] at he ⊢
    exact he.symm

theorem ShortestSpan.evenEnd {s : Subject} {opener closer : UInt8} {i e : Nat}
    (h : s.ShortestSpan opener closer i e) : s.EvenEnd opener closer i e := by
  obtain ⟨⟨ho, hlt, hle, he⟩, hleast⟩ := h
  refine ⟨hlt, hle, ?_⟩
  by_cases heq : opener = closer
  · rw [if_pos heq] at he ⊢
    refine ⟨heq ▸ he, fun k hik hke hk => hleast (k + 1) (by omega) ?_⟩
    refine ⟨ho, by omega, by omega, ?_⟩
    rw [if_pos heq, Nat.add_sub_cancel, ← heq]
    exact hk
  · rw [if_neg heq] at he ⊢
    exact he.symm

theorem shortestSpan_iff {s : Subject} {opener closer : UInt8} {i e : Nat} :
    s.ShortestSpan opener closer i e ↔
      s[i]? = some opener ∧ IsLeast {e | s.EvenEnd opener closer i e} e := by
  constructor
  · intro h
    refine ⟨h.1.1, h.evenEnd, fun e' he' => Nat.le_of_not_lt fun hlt => ?_⟩
    exact h.2 e' hlt (EvenEnd.balancedSpan he' h.1.1)
  · rintro ⟨ho, he, hleast⟩
    refine ⟨EvenEnd.balancedSpan he ho, fun e' hlt ⟨_, hlt', hle', he'⟩ => ?_⟩
    by_cases heq : opener = closer
    · obtain ⟨_, _, hnext⟩ := he
      rw [if_pos heq] at he' hnext
      exact hnext.2 (e' - 1) (by omega) (by omega) (heq ▸ he')
    · rw [if_neg heq] at he'
      have hle := hleast ⟨hlt', hle', by rw [if_neg heq]; exact he'.symm⟩
      omega

/-- A balanced span ends at the least offset at which its text is even, so before that the openers are
always more than the closers. -/
theorem balancedEnd_least (s : Subject) (opener closer : UInt8) (i : Nat) :
    (∀ e, s.balancedEnd opener closer i = some e ↔
        s[i]? = some opener ∧ IsLeast {e | s.EvenEnd opener closer i e} e) ∧
      (s.balancedEnd opener closer i = none ↔
        s[i]? ≠ some opener ∨ ∀ e, ¬ s.EvenEnd opener closer i e) ∧
      (opener ≠ closer → ∀ e, s.balancedEnd opener closer i = some e →
        ∀ k, i < k → k < e → s.count closer i k < s.count opener i k) := by
  refine ⟨fun e => balancedEnd_eq_some_iff.trans shortestSpan_iff, ?_, fun hne e he k hik hke => ?_⟩
  · have h := s.balancedEnd_ends opener closer i
    cases hr : s.balancedEnd opener closer i with
    | none =>
      rw [hr] at h
      refine iff_of_true rfl ?_
      by_cases ho : s[i]? = some opener
      · exact .inr fun e he => h e (he.balancedSpan ho)
      · exact .inl ho
    | some e =>
      rw [hr] at h
      have hshortest : s.ShortestSpan opener closer i e := h
      refine iff_of_false (by simp) ?_
      rintro (ho | hall)
      · exact ho hshortest.1.1
      · exact hall e hshortest.evenEnd
  · have ho := (balancedEnd_eq_some_iff.1 he).1.1
    have hevens := balancedEnd_evens ho hne
    rw [he] at hevens
    exact hevens.2.2.2 k hik hke

theorem hasAt_iff {s : Subject} {i : Nat} {text : Bytes} :
    s.hasAt i text = true ↔ ∀ d (hd : d < text.length), s[i + d]? = some text[d] := by
  induction text generalizing i with
  | nil => simp [hasAt]
  | cons b text ih =>
    rw [hasAt, Bool.and_eq_true, ih, beq_iff_eq]
    constructor
    · intro h d hd
      cases d with
      | zero => exact h.1
      | succ d =>
        have := h.2 d (Nat.lt_of_succ_lt_succ hd)
        rwa [Nat.add_assoc, Nat.add_comm 1] at this
    · intro h
      refine ⟨h 0 (Nat.succ_pos _), fun d hd => ?_⟩
      rw [Nat.add_assoc, Nat.add_comm 1]
      exact h (d + 1) (Nat.succ_lt_succ hd)

def CopyAt (s : Subject) (a b i : Nat) : Prop := ∀ d, a + d < b → s[i + d]? = s[a + d]?

theorem slice?_eq_some {s : Subject} {a b : Nat} (hab : a ≤ b) (hb : b ≤ s.size) :
    s.slice? a b = some (s.extract a b).toList := if_pos ⟨hab, hb⟩

theorem hasAt_extract {s : Subject} {a b i : Nat} (hb : b ≤ s.size) :
    s.hasAt i (s.extract a b).toList = true ↔ s.CopyAt a b i := by
  have hlen : (s.extract a b).toList.length = b - a := by simp; omega
  rw [hasAt_iff]
  constructor
  · intro h d hd
    rw [h d (by omega), Array.getElem?_eq_getElem (show a + d < s.size by omega)]
    simp
  · intro h d hd
    rw [h d (by omega), Array.getElem?_eq_getElem (show a + d < s.size by omega)]
    simp

end Subject
end BytePattern
