import BytePattern.Proofs.Match.Bounds
import BytePattern.Proofs.Pattern.WellFormed

/-!
# What an attempt holds in memory

A pattern is a line of items, and an attempt that stands at one of them has pending choices only for items
before it, at most one for each, and on the trail one entry for each capture item before it
(`Memory.Footprint`). An item that is passed adds to this what it is about; a choice that is taken back
cuts the memory to what it was before its item. One step keeps this (`Matcher.footprint_step`), so every
state of a run has it (`Matcher.footprint_of_reaches`), and the memory is bounded by the pattern alone,
whatever the subject (`Matcher.withinPattern_of_reaches`).
-/
namespace BytePattern

def slotsBefore (items : List Item) (k : Nat) : List Nat := (items.take k).filterMap Item.slot?

theorem slotsBefore_succ {items : List Item} {k : Nat} {item : Item} (h : items[k]? = some item) :
    slotsBefore items (k + 1) = slotsBefore items k ++ item.slot?.toList := by
  rw [slotsBefore, List.take_add_one, h, List.filterMap_append]
  cases hs : item.slot? <;> simp [slotsBefore, hs]

theorem slotsBefore_prefix (items : List Item) {k k' : Nat} (h : k ≤ k') :
    slotsBefore items k <+: slotsBefore items k' :=
  ((List.take_prefix_take_left h).filterMap _)

structure Choice.At (items : List Item) (c : Choice) (k : Nat) : Prop where
  single : ∃ t q, items[k]? = some (.single t q) ∧ c.alternative.Of t q
  next_eq : c.next = items.drop (k + 1)
  mark_eq : c.mark = (slotsBefore items k).length

inductive Stacked (items : List Item) : Nat → List Choice → Prop
  | nil {pc : Nat} : Stacked items pc []
  | cons {pc k : Nat} {c : Choice} {older : List Choice} :
      k < pc → c.At items k → Stacked items k older → Stacked items pc (c :: older)

namespace Stacked

variable {items : List Item} {pc pc' : Nat} {choices : List Choice}

theorem mono (h : Stacked items pc choices) (hle : pc ≤ pc') : Stacked items pc' choices := by
  cases h with
  | nil => exact .nil
  | cons hk hc ho => exact .cons (Nat.lt_of_lt_of_le hk hle) hc ho

theorem length_le (h : Stacked items pc choices) : choices.length ≤ pc := by
  induction h with
  | nil => exact Nat.zero_le _
  | cons hk _ _ ih => exact Nat.lt_of_le_of_lt ih hk

theorem exists_indices (h : Stacked items pc choices) :
    ∃ ks, List.Forall₂ (Choice.At items) choices ks ∧ (pc :: ks).Pairwise (· > ·) := by
  induction h with
  | nil => exact ⟨[], .nil, List.pairwise_singleton ..⟩
  | @cons pc k c older hk hc _ ih =>
    obtain ⟨ks, hat, hsorted⟩ := ih
    refine ⟨k :: ks, .cons hc hat, List.pairwise_cons.2 ⟨fun l hl => ?_, hsorted⟩⟩
    rcases List.mem_cons.1 hl with rfl | hl
    · exact hk
    · exact Nat.lt_trans (List.rel_of_pairwise_cons hsorted hl) hk

end Stacked

theorem fst_undo (mark : Nat) (trail : List (Nat × Slot)) (slots : List Slot) :
    (undo mark trail slots).1 = trail.drop (trail.length - mark) := by
  induction trail generalizing slots with
  | nil => exact List.drop_nil.symm
  | cons e trail ih =>
    rw [undo, List.length_cons]
    split
    · rename_i hle
      rw [ih, Nat.succ_sub hle, List.drop_succ_cons]
    · rw [show trail.length + 1 - mark = 0 by omega]
      rfl

/-- The memory is what the items before the `pc`-th leave of it. -/
structure Memory.Footprint (items : List Item) (pc : Nat) (m : Memory) : Prop where
  trail_eq : m.trail.map Prod.fst = (slotsBefore items pc).reverse
  stacked : Stacked items pc m.choices

namespace Memory.Footprint

variable {items : List Item} {item : Item} {pc k : Nat} {m m' : Memory} {t : Token} {q : Quantifier}

theorem clear (items : List Item) (m : Memory) : m.clear.Footprint items 0 := ⟨rfl, .nil⟩

theorem length_trail (h : m.Footprint items pc) : m.trail.length = (slotsBefore items pc).length := by
  rw [← List.length_map (f := Prod.fst), h.trail_eq, List.length_reverse]

theorem tick (h : m.Footprint items pc) : m.tick.Footprint items pc := ⟨h.trail_eq, h.stacked⟩

theorem pass (h : m.Footprint items pc) (hitem : items[pc]? = some item) (hslot : item.slot? = none) :
    m.Footprint items (pc + 1) := by
  refine ⟨?_, h.stacked.mono (Nat.le_succ pc)⟩
  rw [slotsBefore_succ hitem, hslot, Option.toList_none, List.append_nil, h.trail_eq]

theorem write (h : m.Footprint items pc) (hitem : items[pc]? = some item) (hslot : item.slot? = some k)
    {slot : Slot} (hw : m.write k slot = some m') : m'.Footprint items (pc + 1) := by
  unfold Memory.write at hw
  split at hw
  · cases hw
    refine ⟨?_, h.stacked.mono (Nat.le_succ pc)⟩
    rw [slotsBefore_succ hitem, hslot, Option.toList_some, List.reverse_append, List.map_cons,
      h.trail_eq]
    rfl
  · cases hw

theorem push (h : m.Footprint items pc) (hitem : items[pc]? = some (.single t q)) {a : Alternative}
    (ha : a.Of t q) : (m.push a (items.drop (pc + 1))).Footprint items (pc + 1) := by
  have hat : Choice.At items ⟨a, items.drop (pc + 1), m.trail.length⟩ pc :=
    ⟨⟨t, q, hitem, ha⟩, rfl, h.length_trail⟩
  exact ⟨(h.pass hitem rfl).trail_eq, .cons (Nat.lt_succ_self pc) hat h.stacked⟩

theorem unwind (h : m.Footprint items pc) {older : List Choice} (hk : k ≤ pc)
    (hstacked : Stacked items k older) :
    ({ m with choices := older }.unwind (slotsBefore items k).length).Footprint items k := by
  refine ⟨?_, hstacked⟩
  obtain ⟨after, hafter⟩ := slotsBefore_prefix items hk
  have hlen : after.length = after.reverse.length := after.length_reverse.symm
  show (undo (slotsBefore items k).length m.trail m.slots).1.map Prod.fst = _
  rw [fst_undo, List.map_drop, h.length_trail, h.trail_eq, ← hafter, List.reverse_append,
    List.length_append, Nat.add_sub_cancel_left, hlen, List.drop_left]

end Memory.Footprint

def Focus.At (items : List Item) (pc : Nat) : Focus → Prop
  | .items rest _ => pc ≤ items.length ∧ rest = items.drop pc
  | .retry => True

namespace Matcher

variable {x : Matcher} {items next : List Item} {item : Item} {pc i j : Nat} {m m' : Memory}

theorem footprint_of_execute (hm : m.Footprint items pc) (hitem : items[pc]? = some item)
    (h : x.execute m (items.drop (pc + 1)) i item = .ok (some (m', j))) :
    m'.Footprint items (pc + 1) := by
  rcases memory_of_execute h with ⟨hslot, rfl⟩ | ⟨t, q, a, rfl, ha, rfl⟩ | ⟨k, slot, hslot, hw⟩
  · exact hm.pass hitem hslot
  · exact hm.push hitem ha
  · exact hm.write hitem hslot hw

theorem footprint_resume {c : Choice} {k : Nat} (hm : m.Footprint items k) (hc : c.At items k) :
    ∃ pc, (x.resume m c).1.Footprint items pc ∧ (x.resume m c).2.At items pc := by
  obtain ⟨t, q, hitem, ha⟩ := hc.single
  have hlt := (List.getElem?_eq_some_iff.1 hitem).1
  have hmark : c.mark = m.trail.length := hc.mark_eq.trans hm.length_trail.symm
  rcases x.resume_cases m c with ⟨f, h, rfl | ⟨j, rfl⟩⟩ | ⟨b, j, h, hb⟩
  · rw [h]
    exact ⟨k, hm, trivial⟩
  · rw [h]
    exact ⟨k + 1, hm.pass hitem rfl, hlt, hc.next_eq⟩
  · rw [h, hmark, hc.next_eq]
    exact ⟨k + 1, hm.push hitem (hb t q ha), hlt, rfl⟩

theorem footprint_step {f f' : Focus} (hm : m.Footprint items pc) (hf : f.At items pc)
    (h : x.step m f = .next m' f') : ∃ pc', m'.Footprint items pc' ∧ f'.At items pc' := by
  cases transition_of_step h with
  | fails _ => exact ⟨pc, hm.tick, trivial⟩
  | passes he =>
    obtain ⟨hpc, hrest⟩ := hf
    have hlt : pc < items.length := by
      by_contra hle
      rw [List.drop_eq_nil_of_le (Nat.le_of_not_lt hle)] at hrest
      cases hrest
    rw [List.drop_eq_getElem_cons hlt] at hrest
    cases hrest
    exact ⟨pc + 1, footprint_of_execute hm.tick (List.getElem?_eq_getElem hlt) he, hlt, rfl⟩
  | resumes hchoices =>
    have hstacked := hm.stacked
    rw [hchoices] at hstacked
    cases hstacked with
    | cons hk hc holder =>
      rw [hc.mark_eq]
      exact footprint_resume (hm.tick.unwind (Nat.le_of_lt hk) holder) hc

theorem footprint_of_reaches {a b : Memory × Focus} (hm : a.1.Footprint items pc)
    (hf : a.2.At items pc) (h : x.Reaches a b) :
    ∃ pc', b.1.Footprint items pc' ∧ b.2.At items pc' := by
  induction h with
  | refl => exact ⟨pc, hm, hf⟩
  | tail _ hstep ih =>
    obtain ⟨_, hm', hf'⟩ := ih
    exact footprint_step hm' hf' hstep

end Matcher

namespace Ledger

theorem Step.length_slot_le {l n : Ledger} {item : Item} (h : Step l item n) :
    item.slot?.toList.length + n.opened.length + 2 * l.captures.length ≤
      2 * n.captures.length + l.opened.length := by
  cases h <;> simp [Item.slot?] <;> omega

theorem Run.length_slots_le {l n : Ledger} {items : List Item} (h : Run l items n) :
    (items.filterMap Item.slot?).length + n.opened.length + 2 * l.captures.length ≤
      2 * n.captures.length + l.opened.length := by
  -- a capture is written twice at most, and an open one has one of its writes to come
  induction h with
  | nil =>
    rw [List.filterMap_nil, List.length_nil]
    omega
  | @cons _ _ _ item items hs _ ih =>
    have hstep := hs.length_slot_le
    have hcons : ((item :: items).filterMap Item.slot?).length =
        item.slot?.toList.length + (items.filterMap Item.slot?).length := by
      cases hi : item.slot? <;> simp [hi, Nat.add_comm]
    omega

end Ledger

namespace Pattern

variable {o : Options} {source : Bytes} {p : Pattern}

theorem length_items_le (hp : compile o source = .ok p) : p.items.length ≤ p.source.length := by
  obtain ⟨last, hreads, heq⟩ := compile_eq_ok hp
  have hsource : p.source = source := by rw [heq]
  have hle := hreads.items_length_le
  rw [body, List.length_drop] at hle
  rw [hsource]
  omega

theorem length_slotsBefore_le (hp : compile o source = .ok p) (pc : Nat) :
    (slotsBefore p.items pc).length ≤ 2 * p.captureCount := by
  obtain ⟨cs, hrun, hkinds, _⟩ := run_of_compile hp
  rw [← List.take_append_drop pc p.items] at hrun
  obtain ⟨mid, hbefore, hafter⟩ := Ledger.run_append.1 hrun
  have hslots := hbefore.length_slots_le
  have hle := hafter.length_le
  rw [captureCount, hkinds, List.length_map, slotsBefore]
  simp only [Ledger.start, List.length_nil] at hslots hle
  omega

end Pattern

/-- What an attempt that stands at the `pc`-th item holds in memory: the pattern bounds it. -/
structure Memory.WithinPattern (p : Pattern) (s : Subject) (pc : Nat) (m : Memory) : Prop where
  choices : ∃ ks, List.Forall₂ (Choice.At p.items) m.choices ks ∧ (pc :: ks).Pairwise (· > ·)
  bounded : ∀ c ∈ m.choices, c.alternative.Bounded s.size
  trail_eq : m.trail.map Prod.fst = (slotsBefore p.items pc).reverse
  length_choices_le : m.choices.length ≤ pc
  le_length_items : pc ≤ p.items.length
  length_items_le : p.items.length ≤ p.source.length
  length_trail_le : m.trail.length ≤ 2 * p.captureCount

/-- Wherever an attempt stands in the pattern, its memory is bounded by the pattern. -/
theorem Matcher.withinPattern_of_reaches {o : Options} {source : Bytes} {p : Pattern}
    (hp : Pattern.compile o source = .ok p) (s : Subject) (limit : Option Nat) (m : Memory)
    {start : Nat} (hs : start ≤ s.size) {m' : Memory} {rest : List Item} {i : Nat}
    (h : Reaches ⟨p, s, limit⟩ (m.clear, .items p.items start) (m', .items rest i)) :
    ∃ pc, rest = p.items.drop pc ∧ m'.WithinPattern p s pc := by
  obtain ⟨pc, hfoot, hpc, hrest⟩ := footprint_of_reaches (.clear p.items m)
    (show (Focus.items p.items start).At p.items 0 from ⟨Nat.zero_le _, rfl⟩) h
  have hbounded := (bounded_of_reaches (x := ⟨p, s, limit⟩) (.clear s.size m)
    (show (Focus.items p.items start).Bounded s.size from hs) h).1
  refine ⟨pc, hrest, hfoot.stacked.exists_indices, hbounded.choices, hfoot.trail_eq,
    hfoot.stacked.length_le, hpc, ?_, ?_⟩
  · exact Pattern.length_items_le hp
  · rw [hfoot.length_trail]
    exact Pattern.length_slotsBefore_le hp pc

theorem Matcher.withinPattern_of_reaches_aab :
    ∃ p, Pattern.compile {} [40, 41, 97, 42, 98] = .ok p ∧ 0 ≤ (#[97, 97, 98] : Subject).size ∧
      ∃ m rest, Reaches ⟨p, #[97, 97, 98], none⟩ (Memory.fresh.clear, .items p.items 0)
        (m, .items rest 2) ∧ m.choices = [⟨.fewer 0 0 1, rest, 1⟩] ∧
        ∃ pc, rest = p.items.drop pc ∧ m.WithinPattern p #[97, 97, 98] pc := by
  have hp : Pattern.compile {} [40, 41, 97, 42, 98] = .ok ⟨[40, 41, 97, 42, 98],
      [.positionCapture 0, .single (.byte 97) .zeroOrMore, .single (.byte 98) .one], [.position],
      false⟩ := by
    cbv
  refine ⟨_, hp, by decide, ⟨Memory.fresh.slots.set 0 ⟨0, .position⟩, [(0, .empty)],
    [⟨.fewer 0 0 1, [.single (.byte 98) .one], 1⟩], 2⟩, [.single (.byte 98) .one], ?_⟩
  suffices hreaches : Reaches _ _ _ from
    ⟨hreaches, rfl, withinPattern_of_reaches hp _ _ _ (by decide) hreaches⟩
  refine .head (show Leads _ _ (⟨Memory.fresh.slots.set 0 ⟨0, .position⟩, [(0, .empty)], [], 1⟩,
    .items [.single (.byte 97) .zeroOrMore, .single (.byte 98) .one] 0) from rfl) (.single ?_)
  unfold Leads
  cbv

end BytePattern
