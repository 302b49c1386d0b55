import Mathlib
import BytePattern.Proofs.Pattern.Ledger

/-!
# Compiled patterns are well formed

The matcher indexes slots and slices without checks of its own and leaves it to the compiler that this is
safe. What an item leaves of a capture is said once (`Step.getElem?_captures`); along a run of the ledger
a capture is then opened once and closed once, and what stands between is closed within
(`Run.split`, `Run.opens_iff_closes`). The order of the elements in the source gives the rest.
-/
namespace BytePattern

def Item.leaves (k : Nat) : Item → Option CaptureState
  | .openCapture j => if j = k then some .opened else none
  | .closeCapture j => if j = k then some .closed else none
  | .positionCapture j => if j = k then some .position else none
  | _ => none

def Item.starts? : Item → Option Nat
  | .openCapture k => some k
  | .positionCapture k => some k
  | _ => none

theorem Item.leaves_eq_opened {item : Item} {k : Nat} :
    item.leaves k = some .opened ↔ item = .openCapture k := by
  cases item <;> simp [Item.leaves]

theorem Item.leaves_eq_closed {item : Item} {k : Nat} :
    item.leaves k = some .closed ↔ item = .closeCapture k := by
  cases item <;> simp [Item.leaves]

theorem Item.leaves_eq_position {item : Item} {k : Nat} :
    item.leaves k = some .position ↔ item = .positionCapture k := by
  cases item <;> simp [Item.leaves]

namespace Ledger

theorem Step.getElem?_captures {l m : Ledger} {item : Item} (h : Step l item m) (k : Nat) :
    m.captures[k]? = (item.leaves k).or l.captures[k]? := by
  cases h with
  | openCapture => exact getElem?_concat k
  | positionCapture => exact getElem?_concat k
  | @closeCapture cs st i hi =>
    have hlt := (List.getElem?_eq_some_iff.1 hi).1
    rw [Item.leaves]
    by_cases hk : i = k
    · subst hk
      rw [if_pos rfl, Option.some_or]
      exact List.getElem?_set_self hlt
    · rw [if_neg hk, Option.none_or]
      exact List.getElem?_set_ne hk
  | _ => rfl

theorem Step.before_of_leaves {l m : Ledger} {item : Item} (h : Step l item m) {k : Nat}
    {c : CaptureState} (hc : item.leaves k = some c) :
    (l.captures.length = k ∧ c ≠ .closed) ∨ (l.captures[k]? = some .opened ∧ c = .closed) := by
  cases h with
  | openCapture =>
    simp only [Item.leaves, Option.ite_none_right_eq_some, Option.some.injEq] at hc
    obtain ⟨rfl, rfl⟩ := hc
    exact .inl ⟨rfl, by simp⟩
  | positionCapture =>
    simp only [Item.leaves, Option.ite_none_right_eq_some, Option.some.injEq] at hc
    obtain ⟨rfl, rfl⟩ := hc
    exact .inl ⟨rfl, by simp⟩
  | closeCapture hi =>
    simp only [Item.leaves, Option.ite_none_right_eq_some, Option.some.injEq] at hc
    obtain ⟨rfl, rfl⟩ := hc
    exact .inr ⟨hi, rfl⟩
  | _ => cases hc

theorem run_append {l n : Ledger} {items items' : List Item} :
    Run l (items ++ items') n ↔ ∃ m, Run l items m ∧ Run m items' n := by
  induction items generalizing l with
  | nil =>
    constructor
    · intro h
      exact ⟨l, .nil, h⟩
    · intro h
      obtain ⟨m, h, h'⟩ := h
      cases h
      exact h'
  | cons item items ih =>
    constructor
    · intro h
      cases h with
      | cons hs hr =>
        obtain ⟨m, hr, hr'⟩ := ih.1 hr
        exact ⟨m, .cons hs hr, hr'⟩
    · intro h
      obtain ⟨m, h, h'⟩ := h
      cases h with
      | cons hs hr => exact .cons hs (ih.2 ⟨m, hr, h'⟩)

theorem Run.at_mem {l n : Ledger} {items : List Item} {item : Item} (h : Run l items n)
    (hm : item ∈ items) :
    ∃ before after m m', items = before ++ item :: after ∧ Run l before m ∧ Step m item m' ∧
      Run m' after n := by
  obtain ⟨before, after, rfl⟩ := List.append_of_mem hm
  obtain ⟨m, hb, ha⟩ := run_append.1 h
  cases ha with
  | cons hs ha => exact ⟨before, after, m, _, rfl, hb, hs, ha⟩

theorem Run.settled {l n : Ledger} {items : List Item} (h : Run l items n) {k : Nat}
    {c : CaptureState} (hk : l.captures[k]? = some c) (hc : c ≠ .opened) :
    n.captures[k]? = some c := by
  induction h with
  | nil => exact hk
  | cons hs _ ih =>
    refine ih ?_
    rw [hs.getElem?_captures]
    cases hl : Item.leaves k _ with
    | none => exact hk
    | some c' =>
      rcases hs.before_of_leaves hl with ⟨rfl, _⟩ | ⟨ho, _⟩
      · simp at hk
      · cases ho.symm.trans hk
        exact absurd rfl hc

theorem Run.opened_or_mem {l n : Ledger} {items : List Item} (h : Run l items n) {k : Nat}
    (hk : l.captures[k]? = some .opened) :
    n.captures[k]? = some .opened ∨ .closeCapture k ∈ items := by
  induction h with
  | nil => exact .inl hk
  | @cons _ _ _ item _ hs _ ih =>
    cases hl : item.leaves k with
    | none => exact (ih (by rw [hs.getElem?_captures, hl, hk]; rfl)).imp_right (.tail _)
    | some c =>
      rcases hs.before_of_leaves hl with ⟨rfl, _⟩ | ⟨_, rfl⟩
      · simp at hk
      · exact .inr (Item.leaves_eq_closed.1 hl ▸ .head _)

theorem Run.state_of {l n : Ledger} {items : List Item} (h : Run l items n) {k : Nat}
    {c : CaptureState} (hk : n.captures[k]? = some c) :
    l.captures[k]? = some c ∨ ∃ item ∈ items, item.leaves k = some c := by
  induction h with
  | nil => exact .inl hk
  | @cons _ _ _ item _ hs _ ih =>
    rcases ih hk with hm | ⟨item', hmem, hl⟩
    · rw [hs.getElem?_captures, Option.or_eq_some_iff] at hm
      rcases hm with hl | ⟨_, hl⟩
      · exact .inr ⟨item, .head _, hl⟩
      · exact .inl hl
    · exact .inr ⟨item', .tail _ hmem, hl⟩

theorem Run.length_le_of_starts {l n : Ledger} {items : List Item} (h : Run l items n) {k : Nat}
    (hm : .openCapture k ∈ items) : l.captures.length ≤ k := by
  obtain ⟨before, after, m, m', rfl, hb, hs, ha⟩ := h.at_mem hm
  cases hs with
  | openCapture => exact hb.length_le

theorem Run.not_mem_close {l n : Ledger} {items : List Item} (h : Run l items n) {k : Nat}
    (hk : l.captures[k]? = some .closed) : .closeCapture k ∉ items := by
  intro hm
  obtain ⟨before, after, m, m', rfl, hb, hs, ha⟩ := h.at_mem hm
  have hclosed := hb.settled hk (by simp)
  cases hs with
  | closeCapture ho => cases ho.symm.trans hclosed

theorem Run.lt_length_of_close {l n : Ledger} {items : List Item} (h : Run l items n) {k : Nat}
    (hm : .closeCapture k ∈ items) : k < n.captures.length := by
  obtain ⟨before, after, m, m', rfl, hb, hs, ha⟩ := h.at_mem hm
  have hlt := Nat.le_trans hs.length_le ha.length_le
  cases hs with
  | closeCapture ho => exact Nat.lt_of_lt_of_le (List.getElem?_eq_some_iff.1 ho).1 hlt

theorem Run.opens_iff_closes {l n : Ledger} {items : List Item} (h : Run l items n) (hl : l.Sound)
    (hst : l.opened = n.opened) (k : Nat) : .openCapture k ∈ items ↔ .closeCapture k ∈ items := by
  have hn := h.sound hl
  have hopen : n.captures[k]? = some .opened ↔ l.captures[k]? = some .opened := by
    rw [hn.opened_iff, hl.opened_iff, hst]
  constructor
  · intro hm
    have hle := h.length_le_of_starts hm
    obtain ⟨before, after, m, m', rfl, hb, hs, ha⟩ := h.at_mem hm
    have hm' : m'.captures[k]? = some .opened := by
      rw [hs.getElem?_captures, Item.leaves_eq_opened.2 rfl]
      rfl
    -- what is open at the end was open before the run, when this capture was not there
    rcases ha.opened_or_mem hm' with ho | hc
    · have := (List.getElem?_eq_some_iff.1 (hopen.1 ho)).1
      omega
    · exact List.mem_append_right _ (.tail _ hc)
  · intro hm
    obtain ⟨before, after, m, m', rfl, hb, hs, ha⟩ := h.at_mem hm
    have hm' : m'.captures[k]? = some .closed := by
      rw [hs.getElem?_captures, Item.leaves_eq_closed.2 rfl]
      rfl
    have hclosed := ha.settled hm' (by simp)
    rcases hs.before_of_leaves (Item.leaves_eq_closed.2 rfl) with ⟨_, hne⟩ | ⟨ho, _⟩
    · exact absurd rfl hne
    · rcases hb.state_of ho with ho | ⟨item, hmem, hi⟩
      · cases (hopen.2 ho).symm.trans hclosed
      · exact List.mem_append_left _ (Item.leaves_eq_opened.1 hi ▸ hmem)

theorem Step.opened_eq {l m : Ledger} {item : Item} (h : Step l item m) {inner st : List Nat}
    {k : Nat} (hst : l.opened = inner ++ k :: st) :
    (inner = [] ∧ item = .closeCapture k) ∨ ∃ inner', m.opened = inner' ++ k :: st := by
  cases h with
  | @openCapture cs st' => exact .inr ⟨cs.length :: inner, congrArg (cs.length :: ·) hst⟩
  | closeCapture =>
    cases inner with
    | nil =>
      cases hst
      exact .inl ⟨rfl, rfl⟩
    | cons j inner =>
      cases hst
      exact .inr ⟨inner, rfl⟩
  | _ => exact .inr ⟨inner, hst⟩

theorem Run.split {l n : Ledger} {items : List Item} (h : Run l items n) {inner st : List Nat}
    {k : Nat} (hst : l.opened = inner ++ k :: st) (hn : k ∉ n.opened) :
    ∃ within after m m', items = within ++ .closeCapture k :: after ∧ Run l within m ∧
      m.opened = k :: st ∧ Step m (.closeCapture k) m' ∧ Run m' after n := by
  induction h generalizing inner with
  | nil =>
    rw [hst] at hn
    simp at hn
  | @cons _ _ _ item items hs hr ih =>
    rcases hs.opened_eq hst with ⟨rfl, rfl⟩ | ⟨inner', hst'⟩
    · exact ⟨[], items, _, _, rfl, .nil, hst, hs, hr⟩
    · obtain ⟨within, after, m, m', rfl, hw, hm, hclose, ha⟩ := ih hst' hn
      exact ⟨item :: within, after, m, m', rfl, .cons hs hw, hm, hclose, ha⟩

theorem Run.position_iff {n : Ledger} {items : List Item} (h : Run start items n) {k : Nat} :
    n.captures[k]? = some .position ↔ .positionCapture k ∈ items := by
  constructor
  · intro hk
    rcases h.state_of hk with hk | ⟨item, hm, hi⟩
    · cases hk
    · exact Item.leaves_eq_position.1 hi ▸ hm
  · intro hm
    obtain ⟨before, after, m, m', _, _, hs, ha⟩ := h.at_mem hm
    refine ha.settled ?_ (by simp)
    rw [hs.getElem?_captures, Item.leaves_eq_position.2 rfl]
    rfl

theorem Run.closeCapture_mem {n : Ledger} {items : List Item} (h : Run start items n) {k : Nat}
    (hk : n.captures[k]? = some .closed) : .closeCapture k ∈ items := by
  rcases h.state_of hk with hk | ⟨item, hm, hi⟩
  · cases hk
  · exact Item.leaves_eq_closed.1 hi ▸ hm

theorem Run.exists_pair {n : Ledger} {items : List Item} (h : Run start items n)
    (hn : n.opened = []) {k : Nat} (hm : .openCapture k ∈ items) :
    ∃ before within after, items = before ++ .openCapture k :: (within ++ .closeCapture k :: after) ∧
      .closeCapture k ∉ before ++ within ++ after ∧
      ∀ l, .openCapture l ∈ within ↔ .closeCapture l ∈ within := by
  obtain ⟨before, tail, m, m', hi, hb, hs, ha⟩ := h.at_mem hm
  have hsound := hs.sound (hb.sound start_sound)
  have hk : k ∉ n.opened := hn ▸ List.not_mem_nil
  cases hs with
  | @openCapture cs st =>
    obtain ⟨within, after, m₁, m₂, rfl, hw, hst, hclose, haf⟩ :=
      ha.split (show _ = [] ++ cs.length :: st from rfl) hk
    have hpairs := hw.opens_iff_closes hsound hst.symm
    refine ⟨before, within, after, hi, ?_, hpairs⟩
    intro hmem
    rw [List.mem_append, List.mem_append] at hmem
    rcases hmem with (hmem | hmem) | hmem
    · exact Nat.lt_irrefl _ (hb.lt_length_of_close hmem)
    · have hle := hw.length_le_of_starts ((hpairs _).2 hmem)
      simp only [List.length_append, List.length_singleton] at hle
      omega
    · refine haf.not_mem_close ?_ hmem
      rw [hclose.getElem?_captures, Item.leaves_eq_closed.2 rfl]
      rfl

theorem Step.range_starts {l m : Ledger} {item : Item} (h : Step l item m) :
    List.range l.captures.length ++ item.starts?.toList = List.range m.captures.length := by
  cases h <;> simp [Item.starts?, List.range_succ]

theorem Run.range_starts {l n : Ledger} {items : List Item} (h : Run l items n) :
    List.range l.captures.length ++ items.filterMap Item.starts? =
      List.range n.captures.length := by
  induction h with
  | nil => rw [List.filterMap_nil, List.append_nil]
  | @cons _ _ _ item items hs _ ih =>
    have hcons : (item :: items).filterMap Item.starts? =
        item.starts?.toList ++ items.filterMap Item.starts? := by
      cases hi : item.starts? <;> simp [hi]
    rw [hcons, ← List.append_assoc, hs.range_starts, ih]

end Ledger

namespace Pattern

structure WellFormed (o : Options) (p : Pattern) : Prop where
  starts_eq : p.items.filterMap Item.starts? = List.range p.captureCount
  captureCount_le : p.captureCount ≤ min o.maxCaptures captureLimit
  position_iff : ∀ k : Nat, p.captures[k]? = some .position ↔ .positionCapture k ∈ p.items
  /-- Between an opening and its closing item stands something, and whole pairs only. -/
  closed : ∀ k, .openCapture k ∈ p.items → ∃ before within after,
    p.items = before ++ .openCapture k :: (within ++ .closeCapture k :: after) ∧ within ≠ [] ∧
    .closeCapture k ∉ before ++ within ++ after ∧
    ∀ l, .openCapture l ∈ within ↔ .closeCapture l ∈ within
  opened : ∀ k, .closeCapture k ∈ p.items → .openCapture k ∈ p.items
  backReference : ∀ k before after, p.items = before ++ .backReference k :: after →
    k < 9 ∧ p.captures[k]? = some .substring ∧ .closeCapture k ∈ before
  subjectEnd : ∀ before after, p.items = before ++ .subjectEnd :: after → after = []
  length_le : p.items.length ≤ p.source.length
  plain : p.plain = true → p.anchored = false ∧ p.captures = [] ∧
    p.items = p.source.map fun b => .single (.byte b) .one

theorem Reads.items_length_le {limit offset : Nat} {sc last : Scope} {source : Bytes}
    {items : List Item} (h : Reads limit offset sc source items last) :
    items.length ≤ source.length := by
  induction h with
  | done => exact Nat.le_refl _
  | next _ _ _ _ ih =>
    simp only [List.length_cons, List.length_append]
    omega

theorem Reads.subjectEnd_last {limit offset : Nat} {sc last : Scope} {source : Bytes}
    {items : List Item} (h : Reads limit offset sc source items last) {before after : List Item}
    (hi : items = before ++ .subjectEnd :: after) : after = [] := by
  induction h generalizing before with
  | done => simp at hi
  | next _ he ha hr ih =>
    cases before with
    | cons _ before =>
      cases hi
      exact ih rfl
    | nil =>
      cases hi
      obtain rfl := Scope.element_of_add ha
      cases he
      cases hr
      rfl

theorem Reads.not_adjacent {limit offset : Nat} {sc last : Scope} {source : Bytes}
    {items : List Item} (h : Reads limit offset sc source items last) {before after : List Item}
    {k l : Nat} : items ≠ before ++ .openCapture k :: .closeCapture l :: after := by
  intro hi
  induction h generalizing before with
  | done => simp at hi
  | next _ he ha hr ih =>
    cases before with
    | cons _ before =>
      cases hi
      exact ih rfl
    | nil =>
      cases hi
      obtain rfl := Scope.element_of_add ha
      cases he with
      | opening hne =>
        cases hr with
        | next _ he' ha' _ =>
          obtain rfl := Scope.element_of_add ha'
          cases he'
          exact hne rfl

theorem Spells.eq_of_plain {e : Element} {b : UInt8} {front rest : Bytes}
    (h : e.Spells (b :: front) rest) (hp : ∀ c ∈ b :: front, c ∉ specials) :
    e = .single (.byte b) .one ∧ front = [] := by
  have hb := hp b (.head _)
  generalize ht : b :: front = text at h hp
  cases h with
  | @single t q text _ hs =>
    cases hs with
    | byte =>
      cases ht
      cases q with
      | one => exact ⟨rfl, rfl⟩
      | _ => exact absurd (hp _ (List.mem_append_right _ (.head _))) (by decide)
    | _ =>
      cases ht
      exact absurd hb (by decide)
  | _ =>
    cases ht
    exact absurd hb (by decide)

theorem Reads.eq_of_plain {limit offset : Nat} {sc last : Scope} {source : Bytes}
    {items : List Item} (h : Reads limit offset sc source items last)
    (hp : ∀ c ∈ source, c ∉ specials) :
    items = source.map (fun b => .single (.byte b) .one) ∧ last.captures = sc.captures := by
  induction h with
  | done => exact ⟨rfl, rfl⟩
  | next _ he ha _ ih =>
    obtain ⟨rfl, rfl⟩ := Spells.eq_of_plain he fun c hc =>
      hp c (List.mem_append_left _ hc)
    cases ha
    obtain ⟨rfl, hl⟩ := ih fun c hc => hp c (.tail _ hc)
    exact ⟨rfl, hl⟩

theorem isAnchored_of_plain {source : Bytes} (hp : ∀ c ∈ source, c ∉ specials) :
    isAnchored source = false := by
  rw [isAnchored, beq_eq_false_iff_ne]
  intro hc
  exact hp _ (List.mem_of_mem_head? hc) (by decide)

theorem eq_of_plain {o : Options} {source : Bytes} {p : Pattern} (h : compile o source = .ok p)
    (hp : p.plain = true) :
    p.anchored = false ∧ p.captures = [] ∧
      p.items = p.source.map fun b => .single (.byte b) .one := by
  obtain ⟨last, hr, heq⟩ := compile_eq_ok h
  obtain rfl : p.source = source := by rw [heq]
  have hspecial : ∀ c ∈ p.source, c ∉ specials := by
    simpa [plain, isPlain] using hp
  have hanchor := isAnchored_of_plain hspecial
  have hbody : body p.source = p.source := by rw [body, hanchor]; rfl
  rw [hbody, hanchor] at hr
  obtain ⟨hitems, hcaptures⟩ := hr.eq_of_plain hspecial
  refine ⟨?_, ?_, hitems⟩
  · rw [heq]
    exact hanchor
  · rw [heq, hcaptures]
    rfl

theorem kind_eq_position {c : CaptureState} : c.kind = .position ↔ c = .position := by
  cases c <;> simp [CaptureState.kind]

/-- Every pattern that compiles is well formed, whatever capture limit was asked for, and keeps the source
that it is compiled from. -/
theorem compile_wellFormed {o : Options} {source : Bytes} {p : Pattern}
    (h : compile o source = .ok p) : p.source = source ∧ WellFormed o p := by
  obtain ⟨last, hreads, heq⟩ := compile_eq_ok h
  obtain ⟨cs, hrun, hkinds, hceil⟩ := run_of_compile h
  refine ⟨by rw [heq], ?_⟩
  have hcount : p.captureCount = cs.length := by rw [captureCount, hkinds, List.length_map]
  have hkind (k : Nat) : p.captures[k]? = cs[k]?.map (·.kind) := by rw [hkinds, List.getElem?_map]
  constructor
  case starts_eq =>
    have hrange := hrun.range_starts
    rw [hcount]
    exact hrange
  case captureCount_le => exact hcount ▸ hceil
  case position_iff =>
    intro k
    rw [← hrun.position_iff]
    simp only [hkind, Option.map_eq_some_iff, kind_eq_position, exists_eq_right]
  case closed =>
    intro k hm
    obtain ⟨before, within, after, hi, hnot, hpairs⟩ := hrun.exists_pair rfl hm
    refine ⟨before, within, after, hi, ?_, hnot, hpairs⟩
    intro hnil
    subst hnil
    exact hreads.not_adjacent hi
  case opened =>
    intro k hm
    exact (hrun.opens_iff_closes Ledger.start_sound rfl k).2 hm
  case backReference =>
    intro k before after hi
    rw [hi] at hrun
    obtain ⟨m, hb, ha⟩ := Ledger.run_append.1 hrun
    cases ha with
    | cons hs ha =>
      cases hs with
      | backReference hk hclosed =>
        have hend : cs[k]? = some .closed := ha.settled hclosed (by simp)
        refine ⟨hk, ?_, hb.closeCapture_mem hclosed⟩
        rw [hkind, hend]
        rfl
  case subjectEnd =>
    intro before after hi
    exact hreads.subjectEnd_last hi
  case length_le =>
    have hle := hreads.items_length_le
    rw [body, List.length_drop] at hle
    rw [heq]
    simp only
    omega
  case plain => exact eq_of_plain h

theorem compile_wellFormed_nested :
    ∃ p, compile {} [40, 40, 41, 97, 41, 37, 49, 36] = .ok p ∧
      p.source = [40, 40, 41, 97, 41, 37, 49, 36] ∧ WellFormed {} p := by
  have h : compile {} [40, 40, 41, 97, 41, 37, 49, 36] =
      .ok ⟨[40, 40, 41, 97, 41, 37, 49, 36], [.openCapture 0, .positionCapture 1,
        .single (.byte 97) .one, .closeCapture 0, .backReference 0, .subjectEnd],
        [.substring, .position], false⟩ := by
    cbv
  exact ⟨_, h, compile_wellFormed h⟩

end Pattern
end BytePattern
