import BytePattern.Proofs.Match.Footprint
import BytePattern.Proofs.Match.Preferred

/-!
# What an attempt sees of the subject

An attempt that starts at an offset looks at the bytes from there on, and only a frontier at the start
looks at the byte before. So over two subjects that go on alike from `i` and from `j`, it takes the same
steps, only that every offset it writes down is counted from `i` or from `j`: both memories are one
memory moved there, before a step (`Matcher.step_moved`) and after a run of them (`Matcher.run_moved`).
-/
namespace BytePattern

/-- From `i` on the subject `s` goes on as `t` does from `j` on. -/
structure Subject.SameFrom (s t : Subject) (i j : Nat) : Prop where
  size_eq : ∃ n, s.size = i + n ∧ t.size = j + n
  getElem?_eq : ∀ d, s[i + d]? = t[j + d]?

namespace Subject.SameFrom

variable {s t : Subject} {i j : Nat}

theorem of_drop (hi : i ≤ s.size) (hj : j ≤ t.size) (h : s.toList.drop i = t.toList.drop j) :
    s.SameFrom t i j := by
  have hlen := congrArg List.length h
  simp only [List.length_drop, Array.length_toList] at hlen
  refine ⟨⟨s.size - i, by omega, by omega⟩, fun d => ?_⟩
  have hd := congrArg (·[d]?) h
  simpa only [List.getElem?_drop, Array.getElem?_toList] using hd

variable (h : s.SameFrom t i j)
include h

theorem lt_size_iff (d : Nat) : i + d < s.size ↔ j + d < t.size := by
  obtain ⟨n, hs, ht⟩ := h.size_eq
  omega

theorem eq_size_iff (d : Nat) : i + d = s.size ↔ j + d = t.size := by
  obtain ⟨n, hs, ht⟩ := h.size_eq
  omega

theorem size_lt_iff (d : Nat) : s.size < i + d ↔ t.size < j + d := by
  obtain ⟨n, hs, ht⟩ := h.size_eq
  omega

theorem runEnd_sub_eq (token : Token) (d : Nat) :
    s.runEnd token (i + d) - (i + d) = t.runEnd token (j + d) - (j + d) := by
  refine eq_of_forall_le_iff fun n => ?_
  rw [← accepts_iff_le_runEnd, ← accepts_iff_le_runEnd]
  simp only [Accepts, Nat.add_assoc, h.getElem?_eq]

theorem getElem_eq {d : Nat} (hs : i + d < s.size) (ht : j + d < t.size) : t[j + d] = s[i + d] := by
  have hd := h.getElem?_eq d
  rw [Array.getElem?_eq_getElem hs, Array.getElem?_eq_getElem ht] at hd
  exact (Option.some.inj hd).symm

theorem closeFrom_eq (opener closer : UInt8) (inner d : Nat) : ∃ e : Option Nat,
    s.closeFrom opener closer inner (i + d) = e.map (i + ·) ∧
      t.closeFrom opener closer inner (j + d) = e.map (j + ·) := by
  generalize hk : i + d = k
  fun_induction closeFrom s opener closer inner k generalizing d with
  | case1 k hs hc =>
    subst hk
    have ht := (h.lt_size_iff d).1 hs
    refine ⟨some (d + 1), rfl, ?_⟩
    rw [closeFrom, dif_pos ht, if_pos ((h.getElem_eq hs ht).trans hc)]
    rfl
  | case2 k hs hc inner ih =>
    subst hk
    have ht := (h.lt_size_iff d).1 hs
    obtain ⟨e, hse, hte⟩ := ih (d + 1) rfl
    refine ⟨e, hse, ?_⟩
    rw [closeFrom.eq_def, dif_pos ht, if_pos ((h.getElem_eq hs ht).trans hc)]
    exact hte
  | case3 inner k hs hc ho ih =>
    subst hk
    have ht := (h.lt_size_iff d).1 hs
    obtain ⟨e, hse, hte⟩ := ih (d + 1) rfl
    refine ⟨e, hse, ?_⟩
    rw [closeFrom.eq_def, dif_pos ht, h.getElem_eq hs ht, if_neg hc, if_pos ho]
    exact hte
  | case4 inner k hs hc ho ih =>
    subst hk
    have ht := (h.lt_size_iff d).1 hs
    obtain ⟨e, hse, hte⟩ := ih (d + 1) rfl
    refine ⟨e, hse, ?_⟩
    rw [closeFrom.eq_def, dif_pos ht, h.getElem_eq hs ht, if_neg hc, if_neg ho]
    exact hte
  | case5 inner k hs =>
    subst hk
    refine ⟨none, rfl, ?_⟩
    rw [closeFrom.eq_def, dif_neg (mt (h.lt_size_iff d).2 hs)]
    rfl

theorem balancedEnd_eq (opener closer : UInt8) (d : Nat) : ∃ e : Option Nat,
    s.balancedEnd opener closer (i + d) = e.map (i + ·) ∧
      t.balancedEnd opener closer (j + d) = e.map (j + ·) := by
  rw [balancedEnd, balancedEnd, h.getElem?_eq]
  split
  · exact h.closeFrom_eq opener closer 0 (d + 1)
  · exact ⟨none, rfl, rfl⟩

theorem slice?_eq (a b : Nat) : s.slice? (i + a) (i + b) = t.slice? (j + a) (j + b) := by
  have hle : i + a ≤ i + b ∧ i + b ≤ s.size ↔ j + a ≤ j + b ∧ j + b ≤ t.size := by
    obtain ⟨n, hs, ht⟩ := h.size_eq
    omega
  have htext : (s.extract (i + a) (i + b)).toList = (t.extract (j + a) (j + b)).toList := by
    refine List.ext_getElem? fun d => ?_
    have hd := h.getElem?_eq (a + d)
    simp only [← Nat.add_assoc] at hd
    simp only [Array.getElem?_toList, Array.getElem?_extract, hd]
    refine if_congr ?_ rfl rfl
    obtain ⟨n, hs, ht⟩ := h.size_eq
    omega
  rw [slice?, slice?, htext]
  exact if_congr hle rfl rfl

theorem hasAt_eq (d : Nat) (text : Bytes) : s.hasAt (i + d) text = t.hasAt (j + d) text := by
  induction text generalizing d with
  | nil => rfl
  | cons b text ih =>
    rw [hasAt, hasAt, h.getElem?_eq]
    exact congrArg _ (ih (d + 1))

theorem before?_eq (hbefore : s.byteBefore i = t.byteBefore j) (d : Nat) :
    s.before? (i + d) = t.before? (j + d) := by
  cases d with
  | zero =>
    obtain ⟨n, hs, ht⟩ := h.size_eq
    rw [Nat.add_zero, Nat.add_zero, Subject.before?_eq (by omega), Subject.before?_eq (by omega),
      hbefore]
  | succ d => exact h.getElem?_eq d

end Subject.SameFrom

def Slot.moved (k : Nat) (slot : Slot) : Slot := ⟨k + slot.start, slot.extent⟩

def Alternative.moved (k : Nat) : Alternative → Alternative
  | .fewer start least spare => .fewer (k + start) least spare
  | .another t i => .another t (k + i)
  | .without i => .without (k + i)

def Choice.moved (k : Nat) (c : Choice) : Choice := { c with alternative := c.alternative.moved k }

def Focus.moved (k : Nat) : Focus → Focus
  | .items rest i => .items rest (k + i)
  | .retry => .retry

def Capture.moved (k : Nat) : Capture → Capture
  | .substring i j => .substring (k + i) (k + j)
  | .position i => .position (k + i)

def Match.moved (k : Nat) (m : Match) : Match :=
  ⟨k + m.start, k + m.stop, m.captures.map (·.moved k)⟩

theorem Slot.capture?_moved (k : Nat) (slot : Slot) :
    (slot.moved k).capture? = slot.capture?.map (·.moved k) := by
  obtain ⟨start, extent⟩ := slot
  cases extent with
  | unfinished => rfl
  | position => rfl
  | length n => simp only [capture?, moved, Option.map_some, Capture.moved, Nat.add_assoc]

namespace Memory

def moved (k : Nat) (m : Memory) : Memory where
  slots := m.slots.map (·.moved k)
  trail := m.trail.map fun e => (e.1, e.2.moved k)
  choices := m.choices.map (·.moved k)
  steps := m.steps

variable (k : Nat) (m : Memory)

theorem tick_moved : (m.moved k).tick = m.tick.moved k := rfl

theorem push_moved (a : Alternative) (next : List Item) :
    (m.moved k).push (a.moved k) next = (m.push a next).moved k := by
  simp only [push, moved, List.map_cons, List.length_map, Choice.moved]

theorem write_moved (n : Nat) (slot : Slot) :
    (m.moved k).write n (slot.moved k) = (m.write n slot).map (·.moved k) := by
  simp only [write, moved, List.getElem?_map]
  cases m.slots[n]? with
  | none => rfl
  | some old => simp only [Option.map_some, List.map_set, List.map_cons]

theorem undo_moved (mark : Nat) (trail : List (Nat × Slot)) (slots : List Slot) :
    undo mark (trail.map fun e => (e.1, e.2.moved k)) (slots.map (·.moved k)) =
      ((undo mark trail slots).1.map fun e => (e.1, e.2.moved k),
        (undo mark trail slots).2.map (·.moved k)) := by
  induction trail generalizing slots with
  | nil => rfl
  | cons e trail ih =>
    simp only [List.map_cons, undo, List.length_map, ← List.map_set, ih]
    split <;> rfl

theorem unwind_moved (mark : Nat) : (m.moved k).unwind mark = (m.unwind mark).moved k := by
  simp only [unwind, moved, undo_moved]

theorem captures_moved (count : Nat) :
    (m.moved k).captures count = (m.captures count).map (List.map (·.moved k)) := by
  have hmap (slots : List Slot) : (slots.map (·.moved k)).mapM (fun s => inRange s.capture?) =
      (slots.mapM fun s => inRange s.capture?).map (List.map (·.moved k)) := by
    induction slots with
    | nil => rfl
    | cons slot slots ih =>
      rw [List.map_cons, List.mapM_cons, List.mapM_cons, Slot.capture?_moved, ih]
      cases slot.capture? with
      | none => rfl
      | some c =>
        cases slots.mapM (fun s => inRange s.capture?) with
        | error e => rfl
        | ok cs => rfl
  simp only [captures, moved, List.length_map]
  split
  · rw [← List.map_take, hmap]
  · rfl

end Memory

def Step.moved (k : Nat) : Step → Step
  | .halt result m => .halt (result.map (Option.map (k + ·))) (m.moved k)
  | .next m f => .next (m.moved k) (f.moved k)

namespace Matcher

def movedPass (k : Nat) (r : Memory × Nat) : Memory × Nat := (r.1.moved k, k + r.2)

theorem movedPass_push (k : Nat) (m : Memory) (a : Alternative) (next : List Item) (d : Nat) :
    movedPass k (m.push a next, d) = ((m.moved k).push (a.moved k) next, k + d) := by
  rw [movedPass, Memory.push_moved]

def movedAnswer {α : Type} (move : α → α) (k : Nat) (a : Except Error (Option α) × Memory) :
    Except Error (Option α) × Memory := (a.1.map (Option.map move), a.2.moved k)

theorem write_moved_bind (k n : Nat) (slot : Slot) (m : Memory) (d : Nat) :
    (do return some (← inRange ((m.moved k).write n (slot.moved k)), k + d)) =
      (do return some (← inRange (m.write n slot), d) : Except Error _).map
        (Option.map (movedPass k)) := by
  rw [Memory.write_moved]
  cases m.write n slot with
  | none => rfl
  | some m' => rfl

theorem close_moved (k n : Nat) (m : Memory) (d : Nat) :
    close (m.moved k) n (k + d) = (close m n d).map (·.moved k) := by
  have hslot : (m.moved k).slots[n]? = m.slots[n]?.map (·.moved k) := List.getElem?_map
  rw [close, close, hslot]
  cases m.slots[n]? with
  | none => rfl
  | some old =>
    simp only [Option.map_some, inRange_some, ok_bind]
    have hlt : k + d < (old.moved k).start ↔ d < old.start := Nat.add_lt_add_iff_left
    have hclosed : (⟨(old.moved k).start, .length (k + d - (old.moved k).start)⟩ : Slot) =
        Slot.moved k ⟨old.start, .length (d - old.start)⟩ := by
      simp only [Slot.moved, Nat.add_sub_add_left]
    by_cases hd : d < old.start
    · rw [if_pos hd, if_pos (hlt.2 hd)]
      rfl
    · rw [if_neg hd, if_neg (mt hlt.1 hd), hclosed, Memory.write_moved]
      cases m.write n ⟨old.start, .length (d - old.start)⟩ with
      | none => rfl
      | some m' => rfl

section Window

variable (p : Pattern) (limit : Option Nat) {s t : Subject} {i j : Nat} (h : s.SameFrom t i j)

theorem exceeded?_moved (k : Nat) (m : Memory) :
    exceeded? ⟨p, s, limit⟩ (m.moved k) = limit.filter fun l => l < m.steps := rfl

theorem step_retry_moved (k : Nat) (slots : List Slot) (trail : List (Nat × Slot)) (c : Choice)
    (older : List Choice) (steps : Nat) :
    step ⟨p, s, limit⟩ (Memory.moved k ⟨slots, trail, c :: older, steps⟩) .retry =
      match limit.filter fun l => l < steps + 1 with
      | some l =>
        .halt (.error (.budgetExceeded l)) ((Memory.tick ⟨slots, trail, older, steps⟩).moved k)
      | none =>
        let (m, f) := resume ⟨p, s, limit⟩
          (((Memory.tick ⟨slots, trail, older, steps⟩).unwind c.mark).moved k) (c.moved k)
        .next m f := by
  rw [← Memory.unwind_moved]
  rfl

include h

theorem acceptsAt_eq (token : Token) (d : Nat) :
    acceptsAt ⟨p, s, limit⟩ token (i + d) = acceptsAt ⟨p, t, limit⟩ token (j + d) := by
  simp only [acceptsAt, h.getElem?_eq]

theorem greedy_moved (m : Memory) (token : Token) (least : Nat) (next : List Item) (d : Nat) :
    ∃ r : Option (Memory × Nat),
      greedy ⟨p, s, limit⟩ (m.moved i) token least next (i + d) = r.map (movedPass i) ∧
        greedy ⟨p, t, limit⟩ (m.moved j) token least next (j + d) = r.map (movedPass j) := by
  simp only [greedy, h.runEnd_sub_eq, Nat.add_assoc]
  generalize t.runEnd token (j + d) - (j + d) = count
  split
  · exact ⟨none, rfl, rfl⟩
  · split
    · exact ⟨some (m, d + count), rfl, rfl⟩
    · refine ⟨some (m.push (.fewer d least (count - least - 1)) next, d + count), ?_, ?_⟩ <;>
        rw [Option.map_some, movedPass_push, Alternative.moved]

theorem repeatToken_moved (m : Memory) (token : Token) (q : Quantifier) (next : List Item) (d : Nat) :
    ∃ r : Option (Memory × Nat),
      repeatToken ⟨p, s, limit⟩ (m.moved i) token q next (i + d) = r.map (movedPass i) ∧
        repeatToken ⟨p, t, limit⟩ (m.moved j) token q next (j + d) = r.map (movedPass j) := by
  cases q with
  | one =>
    simp only [repeatToken, acceptsAt_eq p limit h]
    split
    · exact ⟨some (m, d + 1), rfl, rfl⟩
    · exact ⟨none, rfl, rfl⟩
  | zeroOrMore => exact greedy_moved p limit h m token 0 next d
  | oneOrMore => exact greedy_moved p limit h m token 1 next d
  | lazy =>
    refine ⟨some (m.push (.another token d) next, d), ?_, ?_⟩ <;>
      rw [Option.map_some, movedPass_push, Alternative.moved, repeatToken]
  | zeroOrOne =>
    simp only [repeatToken, acceptsAt_eq p limit h]
    split
    · refine ⟨some (m.push (.without d) next, d + 1), ?_, ?_⟩ <;>
        rw [Option.map_some, movedPass_push, Alternative.moved, Nat.add_assoc]
    · exact ⟨some (m, d), rfl, rfl⟩

theorem captured_eq_moved (m : Memory) (n : Nat) :
    captured ⟨p, s, limit⟩ (m.moved i) n = captured ⟨p, t, limit⟩ (m.moved j) n := by
  simp only [captured, Memory.moved, List.getElem?_map]
  cases m.slots[n]? with
  | none => rfl
  | some old =>
    obtain ⟨start, extent⟩ := old
    cases extent with
    | unfinished => rfl
    | position => rfl
    | length l =>
      simp only [Option.map_some, inRange_some, ok_bind, Slot.moved, Nat.add_assoc, h.slice?_eq]

theorem execute_moved (m : Memory) (next : List Item) (d : Nat) {item : Item}
    (hbefore : (∃ set, item = .frontier set) → s.byteBefore i = t.byteBefore j) :
    ∃ r : Except Error (Option (Memory × Nat)),
      execute ⟨p, s, limit⟩ (m.moved i) next (i + d) item = r.map (Option.map (movedPass i)) ∧
        execute ⟨p, t, limit⟩ (m.moved j) next (j + d) item = r.map (Option.map (movedPass j)) := by
  cases item with
  | single token q =>
    obtain ⟨r, hs, ht⟩ := repeatToken_moved p limit h m token q next d
    exact ⟨.ok r, congrArg Except.ok hs, congrArg Except.ok ht⟩
  | openCapture n =>
    exact ⟨_, write_moved_bind i n ⟨d, .unfinished⟩ m d, write_moved_bind j n ⟨d, .unfinished⟩ m d⟩
  | closeCapture n =>
    simp only [execute, close_moved]
    cases close m n d with
    | error e => exact ⟨.error e, rfl, rfl⟩
    | ok m' => exact ⟨.ok (some (m', d)), rfl, rfl⟩
  | positionCapture n =>
    exact ⟨_, write_moved_bind i n ⟨d, .position⟩ m d, write_moved_bind j n ⟨d, .position⟩ m d⟩
  | balanced opener closer =>
    obtain ⟨e, hs, ht⟩ := h.balancedEnd_eq opener closer d
    refine ⟨.ok (e.map (m, ·)), ?_, ?_⟩
    · rw [execute, hs]
      cases e <;> rfl
    · rw [execute, ht]
      cases e <;> rfl
  | backReference n =>
    simp only [execute, captured_eq_moved p limit h, h.hasAt_eq]
    cases captured ⟨p, t, limit⟩ (m.moved j) n with
    | error e => exact ⟨.error e, rfl, rfl⟩
    | ok text =>
      simp only [ok_bind, h.size_lt_iff]
      split
      · exact ⟨.error .outOfRange, rfl, rfl⟩
      · split
        · refine ⟨.ok (some (m, d + text.length)), ?_, ?_⟩ <;> rw [Nat.add_assoc] <;> rfl
        · exact ⟨.ok none, rfl, rfl⟩
  | frontier set =>
    simp only [execute, h.before?_eq (hbefore ⟨set, rfl⟩), h.getElem?_eq]
    cases t.before? (j + d) with
    | none => exact ⟨.error .outOfRange, rfl, rfl⟩
    | some before =>
      simp only [inRange_some, ok_bind]
      split
      · exact ⟨.ok (some (m, d)), rfl, rfl⟩
      · exact ⟨.ok none, rfl, rfl⟩
  | subjectEnd =>
    simp only [execute, h.eq_size_iff]
    split
    · exact ⟨.ok (some (m, d)), rfl, rfl⟩
    · exact ⟨.ok none, rfl, rfl⟩

theorem resume_moved (m : Memory) (c : Choice) : ∃ (m' : Memory) (f : Focus),
    resume ⟨p, s, limit⟩ (m.moved i) (c.moved i) = (m'.moved i, f.moved i) ∧
      resume ⟨p, t, limit⟩ (m.moved j) (c.moved j) = (m'.moved j, f.moved j) := by
  obtain ⟨a, next, mark⟩ := c
  cases a with
  | fewer start least spare =>
    cases spare with
    | zero =>
      refine ⟨m, .items next (start + least), ?_, ?_⟩ <;>
        simp only [resume, Choice.moved, Alternative.moved, Focus.moved, Nat.add_assoc]
    | succ spare =>
      refine ⟨{ m with choices := ⟨.fewer start least spare, next, mark⟩ :: m.choices },
        .items next (start + least + spare + 1), ?_, ?_⟩ <;>
        simp only [resume, Choice.moved, Alternative.moved, Focus.moved, Nat.add_assoc, Memory.moved,
          List.map_cons]
  | another token d =>
    simp only [resume, Choice.moved, Alternative.moved, acceptsAt_eq p limit h]
    split
    · exact ⟨{ m with choices := ⟨.another token (d + 1), next, mark⟩ :: m.choices },
        .items next (d + 1), rfl, rfl⟩
    · exact ⟨m, .retry, rfl, rfl⟩
  | without d => exact ⟨m, .items next d, rfl, rfl⟩

variable (hbefore : (∃ set, .frontier set ∈ p.items) → s.byteBefore i = t.byteBefore j)
include hbefore

theorem step_moved (m : Memory) {pc : Nat} {f : Focus} (hf : (f.moved i).At p.items pc) :
    ∃ st : Step, step ⟨p, s, limit⟩ (m.moved i) (f.moved i) = st.moved i ∧
      step ⟨p, t, limit⟩ (m.moved j) (f.moved j) = st.moved j := by
  cases f with
  | items rest d =>
    cases rest with
    | nil => exact ⟨.halt (.ok (some d)) m, rfl, rfl⟩
    | cons item next =>
      have hmem : item ∈ p.items := List.mem_of_mem_drop (hf.2 ▸ List.mem_cons_self)
      obtain ⟨r, hs, ht⟩ := execute_moved p limit h m.tick next d
        fun ⟨set, hset⟩ => hbefore ⟨set, hset ▸ hmem⟩
      simp only [step, Focus.moved, Memory.tick_moved, exceeded?_moved, hs, ht]
      cases limit.filter fun l => l < m.tick.steps with
      | some l => exact ⟨.halt (.error (.budgetExceeded l)) m.tick, rfl, rfl⟩
      | none =>
        rcases r with e | _ | ⟨m', d'⟩
        · exact ⟨.halt (.error e) m.tick, rfl, rfl⟩
        · exact ⟨.next m.tick .retry, rfl, rfl⟩
        · exact ⟨.next m' (.items next d'), rfl, rfl⟩
  | retry =>
    obtain ⟨slots, trail, choices, steps⟩ := m
    cases choices with
    | nil => exact ⟨.halt (.ok none) ⟨slots, trail, [], steps⟩, rfl, rfl⟩
    | cons c older =>
      obtain ⟨m', f, hs, ht⟩ := resume_moved p limit h
        ((Memory.tick ⟨slots, trail, older, steps⟩).unwind c.mark) c
      simp only [Focus.moved, step_retry_moved, hs, ht]
      cases limit.filter fun l => l < steps + 1 with
      | some l => exact ⟨.halt (.error (.budgetExceeded l)) _, rfl, rfl⟩
      | none => exact ⟨.next m' f, rfl, rfl⟩

theorem run_moved {m : Memory} {pc : Nat} {f : Focus} (hm : (m.moved i).Footprint p.items pc)
    (hf : (f.moved i).At p.items pc) :
    ∃ a, run ⟨p, s, limit⟩ (m.moved i) (f.moved i) = movedAnswer (i + ·) i a ∧
      run ⟨p, t, limit⟩ (m.moved j) (f.moved j) = movedAnswer (j + ·) j a := by
  generalize hm₁ : m.moved i = m₁ at hm
  generalize hf₁ : f.moved i = f₁ at hf
  fun_induction run ⟨p, s, limit⟩ m₁ f₁ generalizing m f pc with
  | case1 m₁ f₁ result m' hstep =>
    subst hm₁ hf₁
    obtain ⟨st, hs, ht⟩ := step_moved p limit h hbefore m hf
    cases st with
    | halt result m' =>
      cases hs.symm.trans hstep
      exact ⟨(result, m'), rfl, run_of_halt ht⟩
    | next m' f' => cases hs.symm.trans hstep
  | case2 m₁ f₁ m' f' hstep ih =>
    subst hm₁ hf₁
    obtain ⟨st, hs, ht⟩ := step_moved p limit h hbefore m hf
    obtain ⟨pc', hm', hf'⟩ := footprint_step hm hf hstep
    cases st with
    | halt result m' => cases hs.symm.trans hstep
    | next m' f' =>
      cases hs.symm.trans hstep
      obtain ⟨a, has, hat⟩ := ih rfl hm' rfl hf'
      exact ⟨a, has, (run_of_next ht).trans hat⟩

theorem tryMatch_moved (m : Memory) (d : Nat) :
    ∃ a, tryMatch ⟨p, s, limit⟩ (m.moved i) (i + d) = movedAnswer (i + ·) i a ∧
      tryMatch ⟨p, t, limit⟩ (m.moved j) (j + d) = movedAnswer (j + ·) j a := by
  have hfoot : (m.clear.moved i).Footprint p.items 0 := .clear p.items (m.moved i)
  have hat : (Focus.moved i (.items p.items d)).At p.items 0 := ⟨Nat.zero_le _, rfl⟩
  exact run_moved p limit h hbefore hfoot hat

end Window

end Matcher
end BytePattern
