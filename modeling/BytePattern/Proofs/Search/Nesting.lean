import BytePattern.Proofs.Search.Inside

/-!
# How captures lie in a match

On the way through a pattern an item changes only the capture that it is about: it opens the capture or
takes a position where it stands, or closes a capture at the start it already has (`Item.Passes`). So a
start never moves again (`Passed.start_eq`), a capture that is closed stays as it is
(`Passed.eq_of_settled`), and what starts between two offsets lies between them (`Passed.inside`). The
captures of a match then lie in it as their parentheses lie in the pattern (`Match.Nested`).
-/
namespace BytePattern

def Capture.start : Capture → Nat
  | .substring a _ => a
  | .position a => a

def Capture.kind : Capture → CaptureKind
  | .substring .. => .substring
  | .position _ => .position

def Taken.start : Taken → Nat
  | .opened a => a
  | .holds c => c.start

inductive Taken.Becomes (i : Nat) : Option Taken → CaptureState → Taken → Prop
  | opened {o : Option Taken} : Becomes i o .opened (.opened i)
  | closed {a : Nat} : Becomes i (some (.opened a)) .closed (.holds (.substring a i))
  | position {o : Option Taken} : Becomes i o .position (.holds (.position i))

theorem Taken.Becomes.state_eq {i : Nat} {o : Option Taken} {c : CaptureState} {t : Taken}
    (h : Taken.Becomes i o c t) : t.state = c := by
  cases h <;> rfl

theorem Taken.Becomes.start_eq {i : Nat} {o : Option Taken} {c : CaptureState} {t : Taken}
    (h : Taken.Becomes i o c t) (hc : c ≠ .closed) : t.start = i := by
  cases h with
  | opened => rfl
  | closed => exact absurd rfl hc
  | position => rfl

theorem Taken.Becomes.eq_substring {i : Nat} {o : Option Taken} {t : Taken}
    (h : Taken.Becomes i o .closed t) : ∃ a, t = .holds (.substring a i) := by
  cases h with
  | closed => exact ⟨_, rfl⟩

structure Item.Passes (item : Item) (i : Nat) (r : Record) (i' : Nat) (r' : Record) : Prop where
  le : i ≤ i'
  kept : ∀ k, item.leaves k = none → r' k = r k
  changed : ∀ k c, item.leaves k = some c → ∃ t, Taken.Becomes i (r k) c t ∧ r' k = some t

inductive Passed : List Item → Nat → Record → Nat → Record → Prop
  | nil {i : Nat} {r : Record} : Passed [] i r i r
  | cons {item : Item} {items : List Item} {i i' j : Nat} {r r₁ r' : Record} :
      item.Passes i r i' r₁ → Passed items i' r₁ j r' → Passed (item :: items) i r j r'

theorem Item.passes_of_update {item : Item} {k : Nat} {c : CaptureState} {t : Taken} {i : Nat}
    {r : Record} (hleaves : ∀ l, item.leaves l = if k = l then some c else none)
    (ht : Taken.Becomes i (r k) c t) : item.Passes i r i (Function.update r k (some t)) := by
  refine ⟨Nat.le_refl i, fun l hl => ?_, fun l c' hl => ?_⟩
  · rw [hleaves, ite_eq_right_iff] at hl
    apply Function.update_of_ne
    intro he
    cases hl he.symm
  · rw [hleaves, Option.ite_none_right_eq_some] at hl
    obtain ⟨rfl, hc⟩ := hl
    cases hc
    exact ⟨t, ht, Function.update_self ..⟩

theorem Item.passes_forward {item : Item} {i i' : Nat} {r : Record} (hle : i ≤ i')
    (hleaves : ∀ k, item.leaves k = none) : item.Passes i r i' r := by
  refine ⟨hle, fun k _ => rfl, fun k c hk => ?_⟩
  rw [hleaves] at hk
  cases hk

theorem Walk.passed {s : Subject} {items : List Item} {counts : List Nat} {i j : Nat}
    {r r' : Record} (h : Walk s items counts i r j r') : Passed items i r j r' := by
  induction h with
  | nil => exact .nil
  | single _ _ _ ih => exact .cons (Item.passes_forward (Nat.le_add_right ..) fun _ => rfl) ih
  | openCapture _ ih => exact .cons (Item.passes_of_update (fun _ => rfl) .opened) ih
  | closeCapture ha _ ih =>
    refine .cons (Item.passes_of_update (c := .closed) (fun _ => rfl) ?_) ih
    rw [ha]
    exact .closed
  | positionCapture _ ih => exact .cons (Item.passes_of_update (fun _ => rfl) .position) ih
  | balanced hs _ ih =>
    obtain ⟨_, hlt, _⟩ := hs.1
    exact .cons (Item.passes_forward (Nat.le_of_lt (Nat.lt_of_succ_lt hlt)) fun _ => rfl) ih
  | backReference _ _ _ ih =>
    exact .cons (Item.passes_forward (Nat.le_add_right ..) fun _ => rfl) ih
  | frontier _ _ _ ih => exact .cons (Item.passes_forward (Nat.le_refl _) fun _ => rfl) ih
  | subjectEnd _ ih => exact .cons (Item.passes_forward (Nat.le_refl _) fun _ => rfl) ih

def Record.Follows (cs : List CaptureState) (r : Record) : Prop :=
  ∀ k, (r k).map Taken.state = cs[k]?

theorem Record.follows_empty : Record.empty.Follows [] := fun _ => rfl

theorem Record.Follows.eq_none {cs : List CaptureState} {r : Record} (h : r.Follows cs) {k : Nat}
    (hk : cs.length ≤ k) : r k = none := by
  rw [← Option.map_eq_none_iff, h k]
  exact List.getElem?_eq_none hk

theorem Record.Follows.exists_some {cs : List CaptureState} {r : Record} (h : r.Follows cs) {k : Nat}
    {c : CaptureState} (hk : cs[k]? = some c) : ∃ t, r k = some t ∧ t.state = c := by
  rwa [← h k, Option.map_eq_some_iff] at hk

theorem Taken.Inside.start_le {lo hi : Nat} {t : Taken} (h : t.Inside lo hi) :
    lo ≤ t.start ∧ t.start ≤ hi := by
  cases t with
  | opened a => exact h
  | holds c =>
    cases c with
    | substring a b => exact ⟨h.1, Nat.le_trans h.2.1 h.2.2⟩
    | position a => exact h

theorem Item.leaves_of_starts? {item : Item} {k : Nat} (h : item.starts? = some k) :
    ∃ c, item.leaves k = some c ∧ c ≠ .closed := by
  cases item with
  | openCapture l =>
    cases h
    exact ⟨.opened, if_pos rfl, by simp⟩
  | positionCapture l =>
    cases h
    exact ⟨.position, if_pos rfl, by simp⟩
  | _ => cases h

namespace Ledger

variable {l m n : Ledger} {item : Item} {items : List Item} {k : Nat}

theorem Step.length_eq_of_starts (h : Step l item m) (hk : item.starts? = some k) :
    l.captures.length = k := by
  obtain ⟨c, hc, hne⟩ := Item.leaves_of_starts? hk
  rcases h.before_of_leaves hc with ⟨hlength, _⟩ | ⟨_, hclosed⟩
  · exact hlength
  · exact absurd hclosed hne

theorem Step.lt_length_of_starts (h : Step l item m) (hk : item.starts? = some k) :
    k < m.captures.length := by
  obtain ⟨c, hc, _⟩ := Item.leaves_of_starts? hk
  apply (List.getElem?_eq_some_iff (a := c).1 _).1
  rw [h.getElem?_captures, hc, Option.some_or]

theorem Step.opened_of_open (h : Step l (.openCapture k) m) : m.opened = k :: l.opened := by
  cases h with
  | openCapture => rfl

theorem Run.length_of_starts (h : Run l items n) (hm : item ∈ items) (hk : item.starts? = some k) :
    l.captures.length ≤ k ∧ k < n.captures.length := by
  obtain ⟨before, after, m, m', rfl, hb, hs, ha⟩ := h.at_mem hm
  constructor
  · rw [← hs.length_eq_of_starts hk]
    exact hb.length_le
  · exact Nat.lt_of_lt_of_le (hs.lt_length_of_starts hk) ha.length_le

theorem Run.mem_of_lt (h : Run start items n) (hk : k < n.captures.length) :
    ∃ item ∈ items, item.starts? = some k := by
  rw [← List.mem_filterMap]
  have hrange := h.range_starts
  rw [start, List.length_nil, List.range_zero, List.nil_append] at hrange
  rw [hrange]
  exact List.mem_range.2 hk

theorem Run.not_mem_of_opened (h : Run l items n) (hk : n.captures[k]? = some .opened) :
    .closeCapture k ∉ items := by
  intro hm
  obtain ⟨before, after, m, m', _, _, hs, ha⟩ := h.at_mem hm
  have hclosed : m'.captures[k]? = some .closed := by
    rw [hs.getElem?_captures, Item.leaves_eq_closed.2 rfl, Option.some_or]
  cases (ha.settled hclosed (by simp)).symm.trans hk

theorem Run.opened_eq (h : Run l items n) {inner st : List Nat} (hst : l.opened = inner ++ k :: st)
    (hk : .closeCapture k ∉ items) : ∃ inner', n.opened = inner' ++ k :: st := by
  induction h generalizing inner with
  | nil => exact ⟨inner, hst⟩
  | cons hs _ ih =>
    rw [List.mem_cons, not_or] at hk
    obtain ⟨hitem, hitems⟩ := hk
    rcases hs.opened_eq hst with ⟨_, rfl⟩ | ⟨inner', hst'⟩
    · exact absurd rfl hitem
    · exact ih hst' hitems

theorem Run.opened_eq_of_close {m' : Ledger} (h : Run l items m) (hl : l.Sound) {st : List Nat}
    (hst : l.opened = k :: st) (hclose : Step m (.closeCapture k) m') : m.opened = l.opened := by
  have hm := h.sound hl
  cases hclose with
  | @closeCapture cs st' _ hk =>
    have hst : l.opened = [] ++ k :: st := hst
    obtain ⟨inner, hinner⟩ := h.opened_eq hst (h.not_mem_of_opened hk)
    cases inner with
    | nil => exact hinner.trans hst.symm
    | cons j inner =>
      have hnodup := hm.nodup
      rw [hinner] at hnodup
      cases hinner
      simp at hnodup

theorem Run.settled_of_starts (h : Run l items n) (hl : l.Sound) (hst : n.opened = l.opened)
    (hm : item ∈ items) (hk : item.starts? = some k) :
    ∃ c, n.captures[k]? = some c ∧ c ≠ .opened := by
  obtain ⟨hle, hlt⟩ := h.length_of_starts hm hk
  refine ⟨_, List.getElem?_eq_getElem hlt, fun hopened => ?_⟩
  have hmem : k ∈ n.opened := by
    rw [← (h.sound hl).opened_iff, List.getElem?_eq_getElem hlt, hopened]
  rw [hst, ← hl.opened_iff] at hmem
  exact Nat.not_lt_of_le hle (List.getElem?_eq_some_iff.1 hmem).1

end Ledger

namespace Item.Passes

variable {item : Item} {i i' lo k : Nat} {r r' : Record} {t : Taken} {l m : Ledger}

theorem inside (h : item.Passes i r i' r') (hlo : lo ≤ i) (hk : ∀ t, r k = some t → t.Inside lo i)
    (ht : r' k = some t) : t.Inside lo i' := by
  cases hc : item.leaves k with
  | none =>
    rw [h.kept k hc] at ht
    exact (hk t ht).mono h.le
  | some c =>
    obtain ⟨u, hu, hr'⟩ := h.changed k c hc
    cases hr'.symm.trans ht
    refine Taken.Inside.mono ?_ h.le
    generalize hr : r k = old at hu
    cases hu with
    | opened => exact ⟨hlo, Nat.le_refl i⟩
    | closed =>
      obtain ⟨hle, hai⟩ := hk _ hr
      exact ⟨hle, hai, Nat.le_refl i⟩
    | position => exact ⟨hlo, Nat.le_refl i⟩

theorem follows (h : item.Passes i r i' r') (hs : Ledger.Step l item m) (hr : r.Follows l.captures) :
    r'.Follows m.captures := by
  intro k
  rw [hs.getElem?_captures]
  cases hc : item.leaves k with
  | none => rw [h.kept k hc, Option.none_or, hr k]
  | some c =>
    obtain ⟨u, hu, hr'⟩ := h.changed k c hc
    rw [hr', Option.some_or, Option.map_some, hu.state_eq]

theorem start_eq (h : item.Passes i r i' r') (hs : Ledger.Step l item m)
    (hk : k < l.captures.length) (ht : r k = some t) : ∃ t', r' k = some t' ∧ t'.start = t.start := by
  cases hc : item.leaves k with
  | none => exact ⟨t, (h.kept k hc).trans ht, rfl⟩
  | some c =>
    rcases hs.before_of_leaves hc with ⟨hnew, _⟩ | ⟨_, rfl⟩
    · exact absurd hnew (Nat.ne_of_gt hk)
    · obtain ⟨u, hu, hr'⟩ := h.changed k _ hc
      rw [ht] at hu
      cases hu
      exact ⟨_, hr', rfl⟩

theorem eq_of_settled (h : item.Passes i r i' r') (hs : Ledger.Step l item m) {c : CaptureState}
    (hk : l.captures[k]? = some c) (hc : c ≠ .opened) : r' k = r k := by
  apply h.kept
  cases hleaves : item.leaves k with
  | none => rfl
  | some c' =>
    rcases hs.before_of_leaves hleaves with ⟨rfl, _⟩ | ⟨hopened, _⟩
    · rw [List.getElem?_eq_none (Nat.le_refl _)] at hk
      cases hk
    · cases hopened.symm.trans hk
      exact absurd rfl hc

end Item.Passes

namespace Passed

variable {items items' : List Item} {i j lo k : Nat} {r r' : Record} {t : Taken} {l n : Ledger}

theorem split (h : Passed (items ++ items') i r j r') :
    ∃ x r₁, Passed items i r x r₁ ∧ Passed items' x r₁ j r' := by
  induction items generalizing i r with
  | nil => exact ⟨i, r, .nil, h⟩
  | cons item items ih =>
    cases h with
    | cons hp h =>
      obtain ⟨x, r₁, h₁, h₂⟩ := ih h
      exact ⟨x, r₁, .cons hp h₁, h₂⟩

theorem le (h : Passed items i r j r') : i ≤ j := by
  induction h with
  | nil => exact Nat.le_refl _
  | cons hp _ ih => exact Nat.le_trans hp.le ih

theorem inside (h : Passed items i r j r') (hlo : lo ≤ i) (hk : ∀ t, r k = some t → t.Inside lo i)
    (ht : r' k = some t) : t.Inside lo j := by
  induction h with
  | nil => exact hk t ht
  | cons hp _ ih => exact ih (Nat.le_trans hlo hp.le) (fun _ => hp.inside hlo hk) ht

theorem follows (h : Passed items i r j r') (hrun : Ledger.Run l items n)
    (hr : r.Follows l.captures) : r'.Follows n.captures := by
  induction h generalizing l with
  | nil =>
    cases hrun
    exact hr
  | cons hp _ ih =>
    cases hrun with
    | cons hs hrun => exact ih hrun (hp.follows hs hr)

theorem start_eq (h : Passed items i r j r') (hrun : Ledger.Run l items n)
    (hk : k < l.captures.length) (ht : r k = some t) : ∃ t', r' k = some t' ∧ t'.start = t.start := by
  induction h generalizing l t with
  | nil => exact ⟨t, ht, rfl⟩
  | cons hp _ ih =>
    cases hrun with
    | cons hs hrun =>
      obtain ⟨t₁, ht₁, hstart₁⟩ := hp.start_eq hs hk ht
      obtain ⟨t', ht', hstart'⟩ := ih hrun (Nat.lt_of_lt_of_le hk hs.length_le) ht₁
      exact ⟨t', ht', hstart'.trans hstart₁⟩

theorem eq_of_settled (h : Passed items i r j r') (hrun : Ledger.Run l items n) {c : CaptureState}
    (hk : l.captures[k]? = some c) (hc : c ≠ .opened) : r' k = r k := by
  induction h generalizing l with
  | nil => rfl
  | cons hp _ ih =>
    cases hrun with
    | cons hs hrun =>
      have hk' := (Ledger.Run.cons hs .nil).settled hk hc
      rw [ih hrun hk', hp.eq_of_settled hs hk hc]

theorem start_of_starts {item : Item} (h : Passed (item :: items) i r j r')
    (hrun : Ledger.Run l (item :: items) n) (hk : item.starts? = some k) :
    ∃ t, r' k = some t ∧ t.start = i := by
  cases h with
  | cons hp h =>
    cases hrun with
    | cons hs hrun =>
      obtain ⟨c, hc, hne⟩ := Item.leaves_of_starts? hk
      obtain ⟨t, ht, hr⟩ := hp.changed k c hc
      obtain ⟨t', ht', hstart⟩ := h.start_eq hrun (hs.lt_length_of_starts hk) hr
      exact ⟨t', ht', hstart.trans (ht.start_eq hne)⟩

theorem inside_of_starts {item : Item} (h : Passed items i r j r') (hrun : Ledger.Run l items n)
    (hr : r.Follows l.captures) (hlo : lo ≤ i) (hm : item ∈ items) (hk : item.starts? = some k) :
    ∃ t, r' k = some t ∧ t.Inside lo j := by
  obtain ⟨hle, hlt⟩ := hrun.length_of_starts hm hk
  obtain ⟨t, ht, _⟩ := (h.follows hrun hr).exists_some (List.getElem?_eq_getElem hlt)
  refine ⟨t, ht, h.inside hlo (fun u hu => ?_) ht⟩
  cases (hr.eq_none hle).symm.trans hu

theorem holds_of_close (h : Passed (.closeCapture k :: items) i r j r')
    (hrun : Ledger.Run l (.closeCapture k :: items) n) :
    ∃ a, r' k = some (.holds (.substring a i)) := by
  cases h with
  | cons hp h =>
    cases hrun with
    | @cons _ m _ _ _ hs hrun =>
      have hleaves := Item.leaves_eq_closed (k := k).2 rfl
      obtain ⟨t, ht, hr⟩ := hp.changed k _ hleaves
      obtain ⟨a, rfl⟩ := ht.eq_substring
      have hclosed : m.captures[k]? = some .closed := by
        rw [hs.getElem?_captures, hleaves, Option.some_or]
      exact ⟨a, (h.eq_of_settled hrun hclosed (by simp)).trans hr⟩

section Start

variable {before inner after : List Item}

theorem ordered (h : Passed items i .empty j r') (hrun : Ledger.Run .start items n) {k' : Nat}
    {t' : Taken} (hk : k < k') (ht : r' k = some t) (ht' : r' k' = some t') : t.start ≤ t'.start := by
  have hr' := h.follows hrun Record.follows_empty
  have hlt : k' < n.captures.length := by
    by_contra hge
    cases (hr'.eq_none (Nat.le_of_not_lt hge)).symm.trans ht'
  obtain ⟨item, hm, hstarts⟩ := hrun.mem_of_lt hlt
  obtain ⟨before, after, rfl⟩ := List.append_of_mem hm
  obtain ⟨m, hb, ha⟩ := Ledger.run_append.1 hrun
  obtain ⟨x, r₁, h₁, h₂⟩ := h.split
  have hlength : m.captures.length = k' := by
    cases ha with
    | cons hs _ => exact hs.length_eq_of_starts hstarts
  -- the earlier capture is there where the later one starts
  have hearly : ∃ t₁, r₁ k = some t₁ ∧ t₁.state = m.captures[k] :=
    (h₁.follows hb Record.follows_empty).exists_some (List.getElem?_eq_getElem (hlength ▸ hk))
  obtain ⟨t₁, ht₁, _⟩ := hearly
  obtain ⟨u, hu, hstart⟩ := h₂.start_eq ha (hlength ▸ hk) ht₁
  obtain ⟨u', hu', hstart'⟩ := h₂.start_of_starts ha hstarts
  have hle : t₁.start ≤ x := (h₁.inside (Nat.zero_le i) (fun _ h => by cases h) ht₁).start_le.2
  cases hu.symm.trans ht
  cases hu'.symm.trans ht'
  omega

theorem nested (h : Passed (before ++ .openCapture k :: (inner ++ .closeCapture k :: after)) i .empty
      j r')
    (hrun : Ledger.Run .start (before ++ .openCapture k :: (inner ++ .closeCapture k :: after)) n) :
    ∃ a b, r' k = some (.holds (.substring a b)) ∧ ∀ item k', item ∈ inner →
      item.starts? = some k' → ∃ t, r' k' = some t ∧ t.Inside a b := by
  obtain ⟨l₁, hbefore, hopen⟩ := Ledger.run_append.1 hrun
  obtain ⟨x, r₁, h₁, h₂⟩ := h.split
  obtain ⟨u, hu, hstart⟩ := h₂.start_of_starts hopen (k := k) rfl
  have hsound := hbefore.sound Ledger.start_sound
  have hr₁ := h₁.follows hbefore Record.follows_empty
  cases hopen with
  | @cons _ l₁' _ _ _ hs hrest =>
    cases h₂ with
    | cons hp h₂ =>
      obtain ⟨l₂, hinner, hclose⟩ := Ledger.run_append.1 hrest
      obtain ⟨y, r₂, h₂, h₃⟩ := h₂.split
      obtain ⟨a, ha⟩ := h₃.holds_of_close hclose
      obtain rfl : a = x := by
        cases ha.symm.trans hu
        exact hstart
      have hstack : l₂.opened = l₁'.opened := by
        cases hclose with
        | cons hs' _ => exact hinner.opened_eq_of_close (hs.sound hsound) hs.opened_of_open hs'
      refine ⟨a, y, ha, fun item k' hm hk' => ?_⟩
      obtain ⟨t, ht, hin⟩ := h₂.inside_of_starts hinner (hp.follows hs hr₁) hp.le hm hk'
      obtain ⟨c, hc, hne⟩ := hinner.settled_of_starts (hs.sound hsound) hstack hm hk'
      exact ⟨t, (h₃.eq_of_settled hclose hc hne).trans ht, hin⟩

theorem behind (h : Passed (before ++ .closeCapture k :: after) i .empty j r')
    (hrun : Ledger.Run .start (before ++ .closeCapture k :: after) n) :
    ∃ a b, r' k = some (.holds (.substring a b)) ∧ ∀ item k', item ∈ after →
      item.starts? = some k' → ∃ t, r' k' = some t ∧ b ≤ t.start := by
  obtain ⟨m, hbefore, hclose⟩ := Ledger.run_append.1 hrun
  obtain ⟨x, r₁, h₁, h₂⟩ := h.split
  obtain ⟨a, ha⟩ := h₂.holds_of_close hclose
  have hr₁ := h₁.follows hbefore Record.follows_empty
  refine ⟨a, x, ha, fun item k' hm hk' => ?_⟩
  obtain ⟨t, ht, hin⟩ := h₂.inside_of_starts hclose hr₁ (Nat.le_refl x) (.tail _ hm) hk'
  exact ⟨t, ht, hin.start_le.1⟩

end Start

end Passed

structure Match.Nested (p : Pattern) (m : Match) : Prop where
  kinds : m.captures.map Capture.kind = p.captures
  ordered : (m.captures.map Capture.start).Pairwise (· ≤ ·)
  /-- Of whatever kind, a capture that starts between two parentheses lies in the span of theirs. -/
  nested : ∀ before inner after k,
    p.items = before ++ .openCapture k :: (inner ++ .closeCapture k :: after) →
      ∃ a b, m.captures[k]? = some (.substring a b) ∧ ∀ item l, item ∈ inner →
        item.starts? = some l → ∃ c, m.captures[l]? = some c ∧ c.Inside a b
  behind : ∀ before after k, p.items = before ++ .closeCapture k :: after →
    ∃ a b, m.captures[k]? = some (.substring a b) ∧ ∀ item l, item ∈ after →
      item.starts? = some l → ∃ c, m.captures[l]? = some c ∧ b ≤ c.start

theorem Taken.kind_state_holds (c : Capture) : (Taken.holds c).state.kind = c.kind := by
  cases c <;> rfl

theorem Record.ofCaptures_eq_some {captures : List Capture} {k : Nat} {t : Taken} :
    Record.ofCaptures captures k = some t ↔ ∃ c, captures[k]? = some c ∧ .holds c = t :=
  Option.map_eq_some_iff

theorem Record.getElem?_of_holds {captures : List Capture} {k : Nat} {c : Capture}
    (h : Record.ofCaptures captures k = some (.holds c)) : captures[k]? = some c := by
  obtain ⟨c', hc', he⟩ := ofCaptures_eq_some.1 h
  cases he
  exact hc'

namespace Matcher

section Compiled

variable {o : Options} {source : Bytes} {p : Pattern} (hp : Pattern.compile o source = .ok p)
  (s : Subject)

include hp

theorem nested_of_walk {counts : List Nat} {i stop : Nat} {captures : List Capture}
    (hw : Walk s p.items counts i .empty stop (.ofCaptures captures)) :
    Match.Nested p ⟨i, stop, captures⟩ := by
  obtain ⟨cs, hrun, hkinds, _⟩ := Pattern.run_of_compile hp
  have hpassed := hw.passed
  have hfollows : (Record.ofCaptures captures).Follows cs :=
    hpassed.follows hrun Record.follows_empty
  constructor
  case kinds =>
    apply List.ext_getElem?
    intro k
    have hk : (captures[k]?.map Taken.holds).map Taken.state = cs[k]? := hfollows k
    rw [hkinds, List.getElem?_map, List.getElem?_map, ← hk, Option.map_map, Option.map_map]
    congr 1
    funext c
    exact (Taken.kind_state_holds c).symm
  case ordered =>
    rw [List.pairwise_map, List.pairwise_iff_getElem]
    intro k l hk hl hkl
    exact hpassed.ordered hrun hkl (Record.ofCaptures_eq_some.2 ⟨_, List.getElem?_eq_getElem hk, rfl⟩)
      (Record.ofCaptures_eq_some.2 ⟨_, List.getElem?_eq_getElem hl, rfl⟩)
  case nested =>
    intro before inner after k hitems
    rw [hitems] at hrun hpassed
    obtain ⟨a, b, hk, hinner⟩ := hpassed.nested hrun
    refine ⟨a, b, Record.getElem?_of_holds hk, fun item l hm hl => ?_⟩
    obtain ⟨t, ht, hin⟩ := hinner item l hm hl
    obtain ⟨c, hc, rfl⟩ := Record.ofCaptures_eq_some.1 ht
    exact ⟨c, hc, hin⟩
  case behind =>
    intro before after k hitems
    rw [hitems] at hrun hpassed
    obtain ⟨a, b, hk, hafter⟩ := hpassed.behind hrun
    refine ⟨a, b, Record.getElem?_of_holds hk, fun item l hm hl => ?_⟩
    obtain ⟨t, ht, hle⟩ := hafter item l hm hl
    obtain ⟨c, hc, rfl⟩ := Record.ofCaptures_eq_some.1 ht
    exact ⟨c, hc, hle⟩

theorem nested_of_findAt {limit : Option Nat} {m : Memory} (hm : m.slots.length = captureLimit)
    {init : Nat} {found : Match} (h : (findAt ⟨p, s, limit⟩ m init).1 = .ok (some found)) :
    found.Nested p := by
  rcases findAt_finds hp s limit hm init with ⟨result, hr, hnaive⟩ | ⟨l, _, he⟩
  · cases h.symm.trans hr
    obtain ⟨_, hsize, hattempt, _⟩ := naive_some hnaive
    obtain ⟨start, stop, captures⟩ := found
    rcases attempt_cases hp s hsize (m := .fresh) rfl with ⟨hnone, _⟩ | ⟨_, _, _, hf, hpref⟩
    · cases hnone.symm.trans hattempt
    · cases hf.symm.trans hattempt
      exact nested_of_walk hp s hpref.1
  · cases h.symm.trans he

/-- Whatever was searched before, and under whatever step limit, a match that is found starts no earlier
than the search, lies in the subject with its captures inside, and they lie in it as the pattern says. -/
theorem findAt_nested {limit : Option Nat} {m : Memory} (hm : m.slots.length = captureLimit)
    {init : Nat} {found : Match} (h : (findAt ⟨p, s, limit⟩ m init).1 = .ok (some found)) :
    init ≤ found.start ∧ found.Inside s ∧ found.Nested p :=
  ⟨le_start_of_findAt (Prod.ext h rfl), findAt_inside hp s hm h, nested_of_findAt hp s hm h⟩

end Compiled

theorem findAt_nested_abbc :
    ∃ p found, Pattern.compile {} [40, 97, 40, 98, 42, 41, 40, 41, 41, 99, 40, 41] = .ok p ∧
      (memoryAfter ⟨p, #[120, 97, 98, 98, 99], some 50⟩ [2]).slots.length = captureLimit ∧
      (findAt ⟨p, #[120, 97, 98, 98, 99], some 50⟩
        (memoryAfter ⟨p, #[120, 97, 98, 98, 99], some 50⟩ [2]) 0).1 = .ok (some found) ∧
      0 ≤ found.start ∧ found.Inside #[120, 97, 98, 98, 99] ∧ found.Nested p := by
  have hp : Pattern.compile {} [40, 97, 40, 98, 42, 41, 40, 41, 41, 99, 40, 41] =
      .ok ⟨[40, 97, 40, 98, 42, 41, 40, 41, 41, 99, 40, 41], [.openCapture 0,
        .single (.byte 97) .one, .openCapture 1, .single (.byte 98) .zeroOrMore, .closeCapture 1,
        .positionCapture 2, .closeCapture 0, .single (.byte 99) .one, .positionCapture 3],
        [.substring, .substring, .position, .position], false⟩ := by
    cbv
  have hm := length_slots_memoryAfter
  refine ⟨_, ⟨1, 5, [.substring 1 4, .substring 2 4, .position 4, .position 5]⟩, hp, hm _ _, ?_⟩
  apply (and_iff_left_of_imp (findAt_nested hp _ (hm _ _))).2
  apply eq_ok_of_toOption
  decide +kernel

end Matcher
end BytePattern
