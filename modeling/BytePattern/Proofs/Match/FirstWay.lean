import BytePattern.Match.Attempt

/-!
# What the matcher searches

The stack machine said without its stack. `first` goes through the ways to pass the items of a pattern,
in the order in which they are tried, and stops at the first that gets to the end. A choice that is
pending stands for the ways it has left, over the slots that it brings back, and the stack for those of
its choices one after the other (`pending`). No step changes what focus and stack together stand for
(`outcome_step`), so a run answers with the first of it (`run_answers`).
-/
namespace BytePattern

abbrev Outcome := Except Error (Nat × List Slot)

def shorter (base : Nat) : Nat → List Nat
  | 0 => [base]
  | n + 1 => (base + n + 1) :: shorter base n

namespace Matcher

theorem lt_size_of_acceptsAt {x : Matcher} {t : Token} {i : Nat} (h : x.acceptsAt t i = true) :
    i < x.subject.size := by
  simp only [acceptsAt, Option.any_eq_true] at h
  obtain ⟨_, h, _⟩ := h
  exact (Array.getElem?_eq_some_iff.1 h).1

def longer (x : Matcher) (t : Token) (i : Nat) : List Nat :=
  if h : x.acceptsAt t i then (i + 1) :: x.longer t (i + 1) else []
termination_by x.subject.size - i
decreasing_by
  have := lt_size_of_acceptsAt h
  omega

def stops (x : Matcher) (t : Token) (i : Nat) : Quantifier → List Nat
  | .one => if x.acceptsAt t i then [i + 1] else []
  | .zeroOrMore => shorter i (x.subject.runEnd t i - i)
  | .oneOrMore =>
    match x.subject.runEnd t i - i with
    | 0 => []
    | n + 1 => shorter (i + 1) n
  | .lazy => i :: x.longer t i
  | .zeroOrOne => if x.acceptsAt t i then [i + 1, i] else [i]

/-- The ways to pass an item at `i`: the slots and the offset after each. -/
def ways (x : Matcher) (slots : List Slot) (i : Nat) : Item → Except Error (List (List Slot × Nat))
  | .single t q => .ok ((x.stops t i q).map (slots, ·))
  | .openCapture k =>
    if k < slots.length then .ok [(slots.set k ⟨i, .unfinished⟩, i)] else .error .outOfRange
  | .closeCapture k =>
    match slots[k]? with
    | none => .error .outOfRange
    | some old =>
      if i < old.start then .error .outOfRange
      else .ok [(slots.set k ⟨old.start, .length (i - old.start)⟩, i)]
  | .positionCapture k =>
    if k < slots.length then .ok [(slots.set k ⟨i, .position⟩, i)] else .error .outOfRange
  | .balanced opener closer =>
    .ok ((x.subject.balancedEnd opener closer i).toList.map (slots, ·))
  | .backReference k =>
    match x.captured ⟨slots, [], [], 0⟩ k with
    | .error e => .error e
    | .ok text =>
      if x.subject.size < i then .error .outOfRange
      else .ok (if x.subject.hasAt i text then [(slots, i + text.length)] else [])
  | .frontier set =>
    match x.subject.before? i with
    | none => .error .outOfRange
    | some before =>
      .ok (if set.contains before = false ∧ set.contains (x.subject[i]?.getD 0) then [(slots, i)]
        else [])
  | .subjectEnd => .ok (if i = x.subject.size then [(slots, i)] else [])

def first (x : Matcher) : List Item → List Slot → Nat → Option Outcome
  | [], slots, i => some (.ok (i, slots))
  | item :: rest, slots, i =>
    match x.ways slots i item with
    | .error e => some (.error e)
    | .ok ws => ws.findSome? fun w => x.first rest w.1 w.2

def left (x : Matcher) : Alternative → List Nat
  | .fewer start least spare => shorter (start + least) spare
  | .another t i => x.longer t i
  | .without i => [i]

def firstLeft (x : Matcher) (a : Alternative) (next : List Item) (slots : List Slot) :
    Option Outcome :=
  (x.left a).findSome? fun j => x.first next slots j

def pending (x : Matcher) : List Choice → List (Nat × Slot) → List Slot → Option Outcome
  | [], _, _ => none
  | c :: older, trail, slots =>
    let back := undo c.mark trail slots
    (x.firstLeft c.alternative c.next back.2).or (x.pending older back.1 back.2)

def remaining (x : Matcher) (m : Memory) : Option Outcome := x.pending m.choices m.trail m.slots

def outcome (x : Matcher) (m : Memory) : Focus → Option Outcome
  | .items rest i => (x.first rest m.slots i).or (x.remaining m)
  | .retry => x.remaining m

end Matcher

theorem undo_of_length_le {mark : Nat} {trail : List (Nat × Slot)} (h : trail.length ≤ mark)
    (slots : List Slot) : undo mark trail slots = (trail, slots) := by
  cases trail with
  | nil => rfl
  | cons w trail =>
    rw [List.length_cons] at h
    rw [undo, if_neg (by omega)]

theorem length_undo (mark : Nat) (trail : List (Nat × Slot)) (slots : List Slot) :
    (undo mark trail slots).1.length = min mark trail.length := by
  induction trail generalizing slots with
  | nil => simp [undo]
  | cons w trail ih =>
    rw [undo, List.length_cons]
    split
    · rw [ih]
      omega
    · rw [List.length_cons]
      omega

theorem length_undo_slots (mark : Nat) (trail : List (Nat × Slot)) (slots : List Slot) :
    (undo mark trail slots).2.length = slots.length := by
  induction trail generalizing slots with
  | nil => rfl
  | cons w trail ih =>
    rw [undo]
    split
    · rw [ih, List.length_set]
    · rfl

theorem undo_write {mark i : Nat} {old slot : Slot} {trail : List (Nat × Slot)} {slots : List Slot}
    (hi : slots[i]? = some old) (hm : mark ≤ trail.length) :
    undo mark ((i, old) :: trail) (slots.set i slot) = undo mark trail slots := by
  obtain ⟨hlt, rfl⟩ := List.getElem?_eq_some_iff.1 hi
  rw [undo, if_pos hm, List.set_set, List.set_getElem_self]

def Marked : Nat → List Choice → Prop
  | _, [] => True
  | n, c :: older => c.mark ≤ n ∧ Marked c.mark older

theorem Marked.mono {n n' : Nat} {cs : List Choice} (h : Marked n cs) (hn : n ≤ n') :
    Marked n' cs := by
  cases cs with
  | nil => trivial
  | cons c older => exact ⟨Nat.le_trans h.1 hn, h.2⟩

def Memory.Marked (m : Memory) : Prop := BytePattern.Marked m.trail.length m.choices

theorem Memory.marked_clear (m : Memory) : m.clear.Marked := trivial

end BytePattern
