import BytePattern.Proofs.Pattern.Ledger

/-!
# The grammar of patterns

Which sources are patterns, said of the elements alone: a source falls into pieces, and whether a piece
fits is a question about the pieces before it. Parentheses are matched, captures are counted and looked
up in the list of pieces (`Matched`, `Innermost`, `ClosedCapture`), with no scope kept along the way.
That the scope of the compiler answers these questions is its invariant (`Tracks`). From it a split into
fitting pieces compiles to its items and the first piece that does not fit is what is reported.
-/
namespace BytePattern
namespace Grammar

structure Piece where
  text : Bytes
  element : Element

inductive Matched : List Piece → Prop
  | nil : Matched []
  | cons {p : Piece} {ps : List Piece} :
      p.element ≠ .opening → p.element ≠ .closing → Matched ps → Matched (p :: ps)
  | pair {p q : Piece} {inner ps : List Piece} :
      p.element = .opening → q.element = .closing → Matched inner → Matched ps →
      Matched (p :: (inner ++ q :: ps))

def Innermost (ps outer : List Piece) : Prop :=
  ∃ p inner, ps = outer ++ p :: inner ∧ p.element = .opening ∧ Matched inner

def captureKind? : Element → Option CaptureKind
  | .opening => some .substring
  | .position => some .position
  | _ => none

def captureKinds (ps : List Piece) : List CaptureKind := ps.filterMap (captureKind? ·.element)

def ClosedCapture (ps : List Piece) (k : Nat) : Prop :=
  ∃ outer p inner q after, ps = outer ++ p :: (inner ++ q :: after) ∧ p.element = .opening ∧
    q.element = .closing ∧ Matched inner ∧ (captureKinds outer).length = k

/-- What the pieces do not let the next byte quantify: a leading anchor or a quantified piece right before
it. -/
def barrierAfter (anchored : Bool) (ps : List Piece) : Option Barrier :=
  match ps.getLast? with
  | none => if anchored then some .anchor else none
  | some ⟨_, .single _ q⟩ => if q = .one then none else some .quantifier
  | some _ => none

def StrayQuantifier (anchored : Bool) (ps : List Piece) (text : Bytes) (b : UInt8) (k : Barrier) :
    Prop :=
  text.head? = some b ∧ (b = Byte.star ∨ b = Byte.plus ∨ b = Byte.question) ∧
    barrierAfter anchored ps = some k

inductive Denotes (limit : Nat) (ps : List Piece) : Element → Item → Prop
  | position : (captureKinds ps).length < limit →
      Denotes limit ps .position (.positionCapture (captureKinds ps).length)
  | opening : (captureKinds ps).length < limit →
      Denotes limit ps .opening (.openCapture (captureKinds ps).length)
  | closing {outer : List Piece} : Innermost ps outer →
      Denotes limit ps .closing (.closeCapture (captureKinds outer).length)
  | subjectEnd : Denotes limit ps .subjectEnd .subjectEnd
  | balanced {x y : UInt8} : Denotes limit ps (.balanced x y) (.balanced x y)
  | frontier {set : ByteSet} : Denotes limit ps (.frontier set) (.frontier set)
  | backReference {d : Nat} : 0 < d → ClosedCapture ps (d - 1) →
      Denotes limit ps (.backReference d) (.backReference (d - 1))
  | single {t : Token} {q : Quantifier} : Denotes limit ps (.single t q) (.single t q)

inductive Misplaced (limit : Nat) (anchored : Bool) (ps : List Piece) (p : Piece) :
    Malformation → Prop
  | strayQuantifier {b : UInt8} {k : Barrier} : StrayQuantifier anchored ps p.text b k →
      Misplaced limit anchored ps p (.strayQuantifier b k)
  | tooManyCaptures {kind : CaptureKind} : captureKind? p.element = some kind →
      limit ≤ (captureKinds ps).length → Misplaced limit anchored ps p .tooManyCaptures
  | strayClose : p.element = .closing → (∀ outer, ¬ Innermost ps outer) →
      Misplaced limit anchored ps p .strayClose
  | badBackReference {d : Nat} : p.element = .backReference d →
      ¬ (0 < d ∧ ClosedCapture ps (d - 1)) → Misplaced limit anchored ps p (.badBackReference d)

/-- The source up to `rest` falls into the pieces, each of which fits after those before it, and these are
their items. -/
inductive Parsed (limit : Nat) (anchored : Bool) (source : Bytes) :
    List Piece → List Item → Bytes → Prop
  | nil : Parsed limit anchored source [] [] source
  | snoc {ps : List Piece} {items : List Item} {text rest : Bytes} {e : Element} {item : Item} :
      Parsed limit anchored source ps items (text ++ rest) → e.Spells text rest →
      (∀ b k, ¬ StrayQuantifier anchored ps text b k) → Denotes limit ps e item →
      Parsed limit anchored source (ps ++ [⟨text, e⟩]) (items ++ [item]) rest

def offsetAfter (anchored : Bool) (ps : List Piece) : Nat :=
  (if anchored then 1 else 0) + (ps.flatMap (·.text)).length

/-- The first fault of a source: bytes that no element begins with or a piece that may not stand where it
stands; with no such fault, the innermost parenthesis that is open at the end. -/
inductive Faulty (limit : Nat) (anchored : Bool) (source : Bytes) : Fault → Prop
  | broken {ps : List Piece} {items : List Item} {rest : Bytes} {n : Nat} {cause : Malformation} :
      Parsed limit anchored source ps items rest → Element.Broken rest n cause →
      Faulty limit anchored source ⟨cause, offsetAfter anchored ps + n⟩
  | misplaced {ps : List Piece} {items : List Item} {text rest : Bytes} {e : Element}
      {cause : Malformation} :
      Parsed limit anchored source ps items (text ++ rest) → e.Spells text rest →
      Misplaced limit anchored ps ⟨text, e⟩ cause →
      Faulty limit anchored source ⟨cause, offsetAfter anchored ps⟩
  | unfinished {ps outer : List Piece} {items : List Item} :
      Parsed limit anchored source ps items [] → Innermost ps outer →
      Faulty limit anchored source ⟨.unfinishedCapture, offsetAfter anchored outer⟩

theorem Matched.append {ps qs : List Piece} (hp : Matched ps) (hq : Matched qs) :
    Matched (ps ++ qs) := by
  induction hp with
  | nil => exact hq
  | cons ho hc _ ih => exact .cons ho hc ih
  | pair ho hc hi _ _ ih =>
    rw [List.cons_append, List.append_assoc, List.cons_append]
    exact .pair ho hc hi ih

def depthAfter (d : Nat) (p : Piece) : Option Nat :=
  match p.element with
  | .opening => some (d + 1)
  | .closing => if d = 0 then none else some (d - 1)
  | _ => some d

theorem Matched.foldlM_depth {ps : List Piece} (h : Matched ps) (d : Nat) :
    ps.foldlM depthAfter d = some d := by
  induction h generalizing d with
  | nil => rfl
  | @cons p ps ho hc _ ih =>
    have hp : depthAfter d p = some d := by
      unfold depthAfter
      split <;> simp_all
    rw [List.foldlM_cons, hp]
    exact ih d
  | @pair p q inner ps ho hc _ _ ihi ihp =>
    have hp : depthAfter d p = some (d + 1) := by rw [depthAfter, ho]
    have hq : depthAfter (d + 1) q = some d := by
      rw [depthAfter, hc]
      rfl
    rw [List.foldlM_cons, hp, Option.bind_eq_bind, Option.bind_some, List.foldlM_append, ihi,
      Option.bind_eq_bind, Option.bind_some, List.foldlM_cons, hq]
    exact ihp d

theorem Matched.not_innermost {ps outer : List Piece} (h : Matched ps) : ¬ Innermost ps outer := by
  intro hin
  obtain ⟨p, inner, rfl, ho, hi⟩ := hin
  -- the depth behind the parenthesis is one more than before it and stays so to the end
  have hd := h.foldlM_depth 0
  rw [List.foldlM_append] at hd
  cases hout : outer.foldlM depthAfter 0 with
  | none => simp [hout] at hd
  | some d =>
    have hp : depthAfter d p = some (d + 1) := by rw [depthAfter, ho]
    simp [hout, hp, hi.foldlM_depth] at hd

theorem Matched.eq_nil_of_cons {p q : Piece} {inner inner' front : List Piece} (h : Matched inner)
    (h' : Matched inner') (hq : q.element = .opening) (heq : p :: inner = front ++ q :: inner') :
    front = [] := by
  cases front with
  | nil => rfl
  | cons _ front =>
    cases heq
    exact absurd ⟨q, inner', rfl, hq, h'⟩ h.not_innermost

theorem Innermost.unique {ps outer outer' : List Piece} (h : Innermost ps outer)
    (h' : Innermost ps outer') : outer = outer' := by
  obtain ⟨p, inner, rfl, ho, hi⟩ := h
  obtain ⟨p', inner', heq, ho', hi'⟩ := h'
  rcases List.append_eq_append_iff.1 heq with ⟨front, rfl, hfront⟩ | ⟨front, rfl, hfront⟩
  · rw [hi.eq_nil_of_cons hi' ho' hfront, List.append_nil]
  · rw [hi'.eq_nil_of_cons hi ho hfront, List.append_nil]

theorem closedCapture_concat {ps : List Piece} {x : Piece} {k : Nat} :
    ClosedCapture (ps ++ [x]) k ↔ ClosedCapture ps k ∨
      x.element = .closing ∧ ∃ outer, Innermost ps outer ∧ (captureKinds outer).length = k := by
  constructor
  · intro hx
    obtain ⟨outer, p, inner, q, after, heq, hp, hq, hi, hk⟩ := hx
    rcases List.eq_nil_or_concat after with rfl | ⟨after, y, rfl⟩
    · have hcat : ps ++ [x] = (outer ++ p :: inner) ++ [q] := by simpa using heq
      obtain ⟨rfl, hx⟩ := List.append_inj' hcat rfl
      cases hx
      exact .inr ⟨hq, outer, ⟨p, inner, rfl, hp, hi⟩, hk⟩
    · have hcat : ps ++ [x] = (outer ++ p :: (inner ++ q :: after)) ++ [y] := by simpa using heq
      obtain ⟨rfl, _⟩ := List.append_inj' hcat rfl
      exact .inl ⟨outer, p, inner, q, after, rfl, hp, hq, hi, hk⟩
  · intro h
    rcases h with h | ⟨hx, outer, hin, hk⟩
    · obtain ⟨outer, p, inner, q, after, rfl, hp, hq, hi, hk⟩ := h
      exact ⟨outer, p, inner, q, after ++ [x], by simp, hp, hq, hi, hk⟩
    · obtain ⟨p, inner, rfl, hp, hi⟩ := hin
      exact ⟨outer, p, inner, x, [], by simp, hp, hx, hi, hk⟩

inductive Opens (anchored : Bool) : List Piece → List (Nat × Nat) → Prop
  | none {ps : List Piece} : Matched ps → Opens anchored ps []
  | some {outer inner : List Piece} {p : Piece} {st : List (Nat × Nat)} :
      Opens anchored outer st → p.element = .opening → Matched inner →
      Opens anchored (outer ++ p :: inner)
        (((captureKinds outer).length, offsetAfter anchored outer) :: st)

theorem Opens.append {anchored : Bool} {ps qs : List Piece} {st : List (Nat × Nat)}
    (h : Opens anchored ps st) (hq : Matched qs) : Opens anchored (ps ++ qs) st := by
  cases h with
  | none hp => exact .none (hp.append hq)
  | some ho hp hi =>
    rw [List.append_assoc, List.cons_append]
    exact .some ho hp (hi.append hq)

theorem Opens.eq_cons {anchored : Bool} {ps outer : List Piece} {st : List (Nat × Nat)}
    (h : Opens anchored ps st) (hin : Innermost ps outer) :
    ∃ st', st = ((captureKinds outer).length, offsetAfter anchored outer) :: st' := by
  cases h with
  | none hm => exact absurd hin hm.not_innermost
  | @some _ inner p st' _ hp hi =>
    obtain rfl := hin.unique ⟨p, inner, rfl, hp, hi⟩
    exact ⟨st', rfl⟩

theorem Opens.matched_or_innermost {anchored : Bool} {ps : List Piece} {st : List (Nat × Nat)}
    (h : Opens anchored ps st) : (st = [] ∧ Matched ps) ∨ ∃ outer, Innermost ps outer := by
  cases h with
  | none hm => exact .inl ⟨rfl, hm⟩
  | @some outer inner p _ _ hp hi => exact .inr ⟨outer, p, inner, rfl, hp, hi⟩

structure Tracks (anchored : Bool) (sc : Scope) (ps : List Piece) : Prop where
  kinds_eq : sc.captures.map (·.kind) = captureKinds ps
  opens : Opens anchored ps sc.opened
  closed_iff : ∀ k : Nat, sc.captures[k]? = some .closed ↔ ClosedCapture ps k
  barrier_eq : sc.barrier = barrierAfter anchored ps

theorem captureKinds_concat (ps : List Piece) (p : Piece) :
    captureKinds (ps ++ [p]) = captureKinds ps ++ (captureKind? p.element).toList := by
  rw [captureKinds, List.filterMap_append]
  cases h : captureKind? p.element <;> simp [captureKinds, h]

theorem offsetAfter_concat (anchored : Bool) (ps : List Piece) (p : Piece) :
    offsetAfter anchored (ps ++ [p]) = offsetAfter anchored ps + p.text.length := by
  simp [offsetAfter, Nat.add_assoc]

theorem barrierAfter_concat (anchored : Bool) (ps : List Piece) (text : Bytes) (e : Element) :
    barrierAfter anchored (ps ++ [⟨text, e⟩]) =
      match e with
      | .single _ q => if q = .one then none else some .quantifier
      | _ => none := by
  rw [barrierAfter, List.getLast?_concat]
  cases e <;> rfl

theorem Tracks.start (anchored : Bool) : Tracks anchored (Scope.start anchored) [] := by
  refine ⟨rfl, .none .nil, fun k => iff_of_false (by simp [Scope.start]) ?_, rfl⟩
  intro hclosed
  obtain ⟨outer, p, inner, q, after, heq, _⟩ := hclosed
  simp at heq

section Scope

variable {limit : Nat} {anchored : Bool} {sc : Scope} {ps : List Piece} {e : Element} {item : Item}

theorem Tracks.length_captures (h : Tracks anchored sc ps) :
    sc.captures.length = (captureKinds ps).length := by
  rw [← h.kinds_eq, List.length_map]

theorem Tracks.concat_of_neutral (h : Tracks anchored sc ps) (text : Bytes) (ho : e ≠ .opening)
    (hc : e ≠ .closing) (hk : captureKind? e = none) {b : Option Barrier}
    (hb : barrierAfter anchored (ps ++ [⟨text, e⟩]) = b) :
    Tracks anchored { sc with barrier := b } (ps ++ [⟨text, e⟩]) := by
  refine ⟨?_, h.opens.append (.cons ho hc .nil), fun k => ?_, hb.symm⟩
  · rw [captureKinds_concat, hk]
    simpa using h.kinds_eq
  · rw [closedCapture_concat, or_iff_left (fun hx => hc hx.1)]
    exact h.closed_iff k

theorem Tracks.concat_of_capture (h : Tracks anchored sc ps) (text : Bytes) (state : CaptureState)
    (hc : e ≠ .closing) (hk : captureKind? e = some state.kind) (hstate : state ≠ .closed)
    {st : List (Nat × Nat)} (ho : Opens anchored (ps ++ [⟨text, e⟩]) st)
    (hb : barrierAfter anchored (ps ++ [⟨text, e⟩]) = none) :
    Tracks anchored ⟨sc.captures ++ [state], st, none⟩ (ps ++ [⟨text, e⟩]) := by
  refine ⟨?_, ho, fun k => ?_, hb.symm⟩
  · rw [captureKinds_concat, hk, ← h.kinds_eq]
    simp
  · rw [closedCapture_concat, or_iff_left (fun hx => hc hx.1), ← h.closed_iff k, getElem?_concat]
    by_cases hlen : sc.captures.length = k
    · subst hlen
      simp [hstate]
    · rw [if_neg hlen, Option.none_or]

theorem Tracks.concat_of_closing (h : Tracks anchored sc ps) {i offset : Nat}
    {st : List (Nat × Nat)} (hst : sc.opened = (i, offset) :: st) (text : Bytes) :
    Tracks anchored ⟨sc.captures.set i .closed, st, none⟩ (ps ++ [⟨text, .closing⟩]) := by
  have hopens := h.opens
  rw [hst] at hopens
  cases hopens with
  | @some outer inner p _ hout hp hi =>
    have hkinds : captureKinds (outer ++ p :: inner) =
        captureKinds outer ++ .substring :: captureKinds inner := by
      simp [captureKinds, captureKind?, hp]
    have hlt : (captureKinds outer).length < sc.captures.length := by
      rw [h.length_captures, hkinds]
      simp
    refine ⟨?_, ?_, fun k => ?_, ?_⟩
    · rw [List.map_set, h.kinds_eq, captureKinds_concat, hkinds]
      simp [captureKind?, CaptureState.kind]
    · rw [List.append_assoc, List.cons_append]
      exact hout.append (.pair hp rfl hi .nil)
    · rw [closedCapture_concat]
      by_cases hk : (captureKinds outer).length = k
      · subst hk
        rw [List.getElem?_set_self hlt]
        exact iff_of_true rfl (.inr ⟨rfl, outer, ⟨p, inner, rfl, hp, hi⟩, rfl⟩)
      · rw [List.getElem?_set_ne hk, h.closed_iff, or_iff_left]
        intro hx
        obtain ⟨_, outer', ho', hk'⟩ := hx
        exact hk (ho'.unique ⟨p, inner, rfl, hp, hi⟩ ▸ hk')
    · rw [barrierAfter_concat]

theorem Tracks.add_eq_ok (h : Tracks anchored sc ps) (hd : Denotes limit ps e item) (text : Bytes) :
    ∃ mid, sc.add limit (offsetAfter anchored ps) e = .ok (item, mid) ∧
      Tracks anchored mid (ps ++ [⟨text, e⟩]) := by
  have hlen := h.length_captures
  cases hd with
  | position hlt =>
    refine ⟨_, ?_, h.concat_of_capture text .position (by simp) rfl (by simp)
      (h.opens.append (.cons (by simp) (by simp) .nil)) (barrierAfter_concat ..)⟩
    rw [← hlen] at hlt ⊢
    simp only [Scope.add, Scope.capture, if_pos hlt]
    rfl
  | opening hlt =>
    refine ⟨_, ?_, h.concat_of_capture text .opened (by simp) rfl (by simp)
      (.some h.opens rfl .nil) (barrierAfter_concat ..)⟩
    rw [← hlen] at hlt ⊢
    simp only [Scope.add, Scope.capture, if_pos hlt]
    rfl
  | @closing outer hin =>
    obtain ⟨st, hst⟩ := h.opens.eq_cons hin
    refine ⟨_, ?_, h.concat_of_closing hst text⟩
    simp only [Scope.add, hst]
  | subjectEnd =>
    exact ⟨_, rfl, h.concat_of_neutral text (by simp) (by simp) rfl (barrierAfter_concat ..)⟩
  | balanced =>
    exact ⟨_, rfl, h.concat_of_neutral text (by simp) (by simp) rfl (barrierAfter_concat ..)⟩
  | frontier =>
    exact ⟨_, rfl, h.concat_of_neutral text (by simp) (by simp) rfl (barrierAfter_concat ..)⟩
  | backReference hd hc =>
    refine ⟨_, ?_, h.concat_of_neutral text (by simp) (by simp) rfl (barrierAfter_concat ..)⟩
    exact if_pos ⟨hd, (h.closed_iff _).2 hc⟩
  | single =>
    exact ⟨_, rfl, h.concat_of_neutral text (by simp) (by simp) rfl (barrierAfter_concat ..)⟩

theorem Tracks.checkLead_eq_ok (h : Tracks anchored sc ps) {b : UInt8} {front : Bytes}
    (hno : ∀ c k, ¬ StrayQuantifier anchored ps (b :: front) c k) (offset : Nat) :
    sc.checkLead offset b = .ok () := by
  rw [Scope.checkLead, h.barrier_eq]
  cases hb : barrierAfter anchored ps with
  | none => rfl
  | some k => exact if_neg fun hq => hno b k ⟨rfl, hq, hb⟩

theorem Tracks.checkLead_eq_error (h : Tracks anchored sc ps) {b c : UInt8} {front : Bytes}
    {k : Barrier} (hs : StrayQuantifier anchored ps (b :: front) c k) (offset : Nat) :
    sc.checkLead offset b = .error ⟨.strayQuantifier c k, offset⟩ := by
  obtain ⟨hc, hq, hb⟩ := hs
  cases hc
  rw [Scope.checkLead, h.barrier_eq, hb]
  exact if_pos hq

theorem not_strayQuantifier {text rest : Bytes} (hs : e.Spells text rest)
    (he : ∀ t q, e ≠ .single t q) : ∀ b k, ¬ StrayQuantifier anchored ps text b k := by
  intro b k hstray
  obtain ⟨hb, hq, _⟩ := hstray
  cases hs with
  | single => exact he _ _ rfl
  | _ =>
    cases hb
    exact absurd hq (by decide)

theorem Tracks.add_eq_error (h : Tracks anchored sc ps) {text : Bytes} {cause : Malformation}
    (hm : Misplaced limit anchored ps ⟨text, e⟩ cause)
    (hno : ∀ b k, ¬ StrayQuantifier anchored ps text b k) (offset : Nat) :
    sc.add limit offset e = .error ⟨cause, offset⟩ := by
  cases hm with
  | strayQuantifier hs => exact absurd hs (hno _ _)
  | tooManyCaptures hk hle =>
    have hlt : ¬ sc.captures.length < limit := by
      rw [h.length_captures]
      exact Nat.not_lt_of_le hle
    cases e with
    | position =>
      simp only [Scope.add, Scope.capture, if_neg hlt]
      rfl
    | opening =>
      simp only [Scope.add, Scope.capture, if_neg hlt]
      rfl
    | _ => cases hk
  | strayClose he hin =>
    cases he
    rcases h.opens.matched_or_innermost with ⟨hst, _⟩ | ⟨outer, ho⟩
    · simp only [Scope.add, hst]
    · exact absurd ho (hin outer)
  | @badBackReference d he hc =>
    cases he
    refine if_neg fun hd => hc ⟨hd.1, (h.closed_iff _).1 hd.2⟩

theorem denotes_or_misplaced (limit : Nat) (anchored : Bool) (ps : List Piece) (text : Bytes)
    (e : Element) :
    (∃ item, Denotes limit ps e item) ∨ ∃ cause, Misplaced limit anchored ps ⟨text, e⟩ cause := by
  cases e with
  | position =>
    by_cases hlt : (captureKinds ps).length < limit
    · exact .inl ⟨_, .position hlt⟩
    · exact .inr ⟨_, .tooManyCaptures rfl (Nat.le_of_not_lt hlt)⟩
  | opening =>
    by_cases hlt : (captureKinds ps).length < limit
    · exact .inl ⟨_, .opening hlt⟩
    · exact .inr ⟨_, .tooManyCaptures rfl (Nat.le_of_not_lt hlt)⟩
  | closing =>
    by_cases hin : ∃ outer, Innermost ps outer
    · obtain ⟨outer, ho⟩ := hin
      exact .inl ⟨_, .closing ho⟩
    · exact .inr ⟨_, .strayClose rfl (not_exists.1 hin)⟩
  | subjectEnd => exact .inl ⟨_, .subjectEnd⟩
  | balanced x y => exact .inl ⟨_, .balanced⟩
  | frontier set => exact .inl ⟨_, .frontier⟩
  | backReference d =>
    by_cases hd : 0 < d ∧ ClosedCapture ps (d - 1)
    · exact .inl ⟨_, .backReference hd.1 hd.2⟩
    · exact .inr ⟨_, .badBackReference rfl hd⟩
  | single t q => exact .inl ⟨_, .single⟩

end Scope

theorem Misplaced.stray_or_ne_single {limit : Nat} {anchored : Bool} {ps : List Piece}
    {text : Bytes} {e : Element} {cause : Malformation}
    (h : Misplaced limit anchored ps ⟨text, e⟩ cause) :
    (∃ b k, cause = .strayQuantifier b k ∧ StrayQuantifier anchored ps text b k) ∨
      ∀ t q, e ≠ .single t q := by
  cases h with
  | strayQuantifier hs => exact .inl ⟨_, _, rfl, hs⟩
  | tooManyCaptures hk =>
    refine .inr fun t q he => ?_
    subst he
    cases hk
  | strayClose he =>
    refine .inr fun t q he' => ?_
    cases he.symm.trans he'
  | badBackReference he =>
    refine .inr fun t q he' => ?_
    cases he.symm.trans he'

section Compile

variable {limit : Nat} {anchored : Bool} {source : Bytes} {ps : List Piece} {items : List Item}

theorem Tracks.compileFrom_append {sc : Scope} (h : Tracks anchored sc ps) {text rest : Bytes}
    {e : Element} {item : Item} (hs : e.Spells text rest)
    (hno : ∀ b k, ¬ StrayQuantifier anchored ps text b k) (hd : Denotes limit ps e item) :
    ∃ mid, Tracks anchored mid (ps ++ [⟨text, e⟩]) ∧
      Pattern.compileFrom limit (offsetAfter anchored ps) sc (text ++ rest) =
        (Pattern.compileFrom limit (offsetAfter anchored (ps ++ [⟨text, e⟩])) mid rest).map
          fun (tail, last) => (item :: tail, last) := by
  obtain ⟨b, front, rfl⟩ := List.exists_cons_of_ne_nil hs.text_ne_nil
  obtain ⟨mid, hadd, hmid⟩ := h.add_eq_ok hd (b :: front)
  refine ⟨mid, hmid, ?_⟩
  have hoffset : offsetAfter anchored (ps ++ [⟨b :: front, e⟩]) =
      offsetAfter anchored ps + 1 + front.length := by
    rw [offsetAfter_concat, List.length_cons]
    omega
  rw [hoffset, List.cons_append, Pattern.compileFrom, h.checkLead_eq_ok hno, hs.read_append]
  simp only [hadd, List.drop_left, bind, Except.bind]
  cases Pattern.compileFrom limit (offsetAfter anchored ps + 1 + front.length) mid rest <;> rfl

theorem Tracks.compileFrom_misplaced {sc : Scope} (h : Tracks anchored sc ps) {text rest : Bytes}
    {e : Element} {cause : Malformation} (hs : e.Spells text rest)
    (hm : Misplaced limit anchored ps ⟨text, e⟩ cause) :
    Pattern.compileFrom limit (offsetAfter anchored ps) sc (text ++ rest) =
      .error ⟨cause, offsetAfter anchored ps⟩ := by
  obtain ⟨b, front, rfl⟩ := List.exists_cons_of_ne_nil hs.text_ne_nil
  rw [List.cons_append, Pattern.compileFrom]
  rcases hm.stray_or_ne_single with ⟨c, k, rfl, hst⟩ | hne
  · rw [h.checkLead_eq_error hst]
    rfl
  · have hno : ∀ b k, ¬ StrayQuantifier anchored ps _ b k := not_strayQuantifier hs hne
    rw [h.checkLead_eq_ok hno, hs.read_append]
    simp only [h.add_eq_error hm hno, bind, Except.bind]

theorem Tracks.compileFrom_broken {sc : Scope} (h : Tracks anchored sc ps) {rest : Bytes} {n : Nat}
    {cause : Malformation} (hb : Element.Broken rest n cause) :
    Pattern.compileFrom limit (offsetAfter anchored ps) sc rest =
      .error ⟨cause, offsetAfter anchored ps + n⟩ := by
  obtain ⟨b, front, rfl⟩ : ∃ b front, rest = b :: front := by
    cases hb <;> exact ⟨_, _, rfl⟩
  have hno : ∀ c k, ¬ StrayQuantifier anchored ps (b :: front) c k := by
    intro c k hstray
    obtain ⟨hc, hq, _⟩ := hstray
    cases hb <;> cases hc <;> exact absurd hq (by decide)
  rw [Pattern.compileFrom, h.checkLead_eq_ok hno, hb.read_eq]
  rfl

theorem Parsed.compileFrom_eq {rest : Bytes} (h : Parsed limit anchored source ps items rest) :
    ∃ sc, Tracks anchored sc ps ∧
      Pattern.compileFrom limit (if anchored then 1 else 0) (Scope.start anchored) source =
        (Pattern.compileFrom limit (offsetAfter anchored ps) sc rest).map
          fun (tail, last) => (items ++ tail, last) := by
  induction h with
  | nil =>
    refine ⟨_, .start anchored, ?_⟩
    rw [show offsetAfter anchored [] = if anchored then 1 else 0 from rfl]
    cases Pattern.compileFrom limit (if anchored then 1 else 0) (Scope.start anchored) source <;> rfl
  | @snoc ps items text rest e item _ hs hno hd ih =>
    obtain ⟨sc, hsc, heq⟩ := ih
    obtain ⟨mid, hmid, hnext⟩ := hsc.compileFrom_append hs hno hd
    refine ⟨mid, hmid, ?_⟩
    rw [heq, hnext]
    cases Pattern.compileFrom limit (offsetAfter anchored (ps ++ [⟨text, e⟩])) mid rest with
    | error f => rfl
    | ok r =>
      simp only [Except.map, List.append_assoc, List.singleton_append]

theorem Parsed.total {rest : Bytes} (h : Parsed limit anchored source ps items rest) :
    (∃ ps' items', Parsed limit anchored source ps' items' [] ∧ Matched ps') ∨
      ∃ f, Faulty limit anchored source f := by
  induction hn : rest.length using Nat.strongRecOn generalizing ps items rest with
  | ind n ih =>
    subst hn
    cases rest with
    | nil =>
      obtain ⟨sc, hsc, _⟩ := h.compileFrom_eq
      rcases hsc.opens.matched_or_innermost with ⟨_, hm⟩ | ⟨outer, ho⟩
      · exact .inl ⟨ps, items, h, hm⟩
      · exact .inr ⟨_, .unfinished h ho⟩
    | cons b rest =>
      cases hr : Element.read 0 b rest with
      | error f =>
        obtain ⟨k, cause, hb, _⟩ := Element.broken_of_read hr
        exact .inr ⟨_, .broken h hb⟩
      | ok r =>
        obtain ⟨e, n⟩ := r
        obtain ⟨front, tail, rfl, _, hs⟩ := Element.spells_of_read hr
        rw [← List.cons_append] at h
        rcases denotes_or_misplaced limit anchored ps (b :: front) e with ⟨item, hd⟩ | ⟨cause, hm⟩
        · by_cases hstray : ∃ c k, StrayQuantifier anchored ps (b :: front) c k
          · obtain ⟨c, k, hst⟩ := hstray
            exact .inr ⟨_, .misplaced h hs (.strayQuantifier hst)⟩
          · have hno : ∀ c k, ¬ StrayQuantifier anchored ps (b :: front) c k := by
              simpa using hstray
            refine ih tail.length ?_ (h.snoc hs hno hd) rfl
            rw [List.length_cons, List.length_append]
            omega
        · exact .inr ⟨_, .misplaced h hs hm⟩

theorem Parsed.source_eq {rest : Bytes} (h : Parsed limit anchored source ps items rest) :
    source = ps.flatMap (·.text) ++ rest := by
  induction h with
  | nil => rfl
  | snoc _ _ _ _ ih => rw [ih, List.flatMap_append, List.flatMap_singleton, List.append_assoc]

theorem Parsed.offsetAfter_add {rest : Bytes} (h : Parsed limit anchored source ps items rest) :
    offsetAfter anchored ps + rest.length = (if anchored then 1 else 0) + source.length := by
  rw [h.source_eq, List.length_append, offsetAfter, Nat.add_assoc]

theorem Parsed.text_ne_nil {rest : Bytes} (h : Parsed limit anchored source ps items rest) :
    ∀ p ∈ ps, p.text ≠ [] := by
  induction h with
  | nil => simp
  | snoc _ hs _ _ ih =>
    intro p hp
    rcases List.mem_append.1 hp with hp | hp
    · exact ih p hp
    · cases List.mem_singleton.1 hp
      exact hs.text_ne_nil

theorem Parsed.compileFrom_eq_ok (h : Parsed limit anchored source ps items []) (hm : Matched ps) :
    ∃ last, Pattern.compileFrom limit (if anchored then 1 else 0) (Scope.start anchored) source =
      .ok (items, last) ∧ last.captures.map (·.kind) = captureKinds ps := by
  obtain ⟨sc, hsc, heq⟩ := h.compileFrom_eq
  have hfinish : sc.finish = .ok sc := by
    rcases hsc.opens.matched_or_innermost with ⟨hst, _⟩ | ⟨outer, ho⟩
    · exact Pattern.finish_eq_ok.2 ⟨hst, rfl⟩
    · exact absurd ho hm.not_innermost
  refine ⟨sc, ?_, hsc.kinds_eq⟩
  rw [heq, Pattern.compileFrom, hfinish]
  simp [bind, Except.bind, pure, Except.pure, Except.map]

theorem Faulty.compileFrom_eq_error {f : Fault} (h : Faulty limit anchored source f) :
    Pattern.compileFrom limit (if anchored then 1 else 0) (Scope.start anchored) source =
      .error f := by
  cases h with
  | broken hp hb =>
    obtain ⟨sc, hsc, heq⟩ := hp.compileFrom_eq
    rw [heq, hsc.compileFrom_broken hb]
    rfl
  | misplaced hp hs hm =>
    obtain ⟨sc, hsc, heq⟩ := hp.compileFrom_eq
    rw [heq, hsc.compileFrom_misplaced hs hm]
    rfl
  | unfinished hp ho =>
    obtain ⟨sc, hsc, heq⟩ := hp.compileFrom_eq
    obtain ⟨st, hst⟩ := hsc.opens.eq_cons ho
    rw [heq, Pattern.compileFrom, Scope.finish, hst]
    rfl

theorem Faulty.offset_lt {f : Fault} (h : Faulty limit anchored source f) :
    f.offset < (if anchored then 1 else 0) + source.length := by
  cases h with
  | @broken ps _ rest n _ hp hb =>
    have hlen := hp.offsetAfter_add
    have hn : n < rest.length := by cases hb <;> simp
    simp only
    omega
  | @misplaced ps _ text rest e _ hp hs hm =>
    have hlen := hp.offsetAfter_add
    have htext := List.length_pos_iff.2 hs.text_ne_nil
    rw [List.length_append] at hlen
    simp only
    omega
  | @unfinished _ outer _ hp ho =>
    obtain ⟨p, inner, rfl, _, _⟩ := ho
    have hlen := hp.offsetAfter_add
    have htext := List.length_pos_iff.2 (hp.text_ne_nil p (by simp))
    simp only [offsetAfter, List.flatMap_append, List.flatMap_cons, List.length_append] at hlen ⊢
    omega

end Compile

section

variable {o : Options} {source : Bytes}

theorem compile_of_parsed {ps : List Piece} {items : List Item}
    (h : Parsed o.ceiling (Pattern.isAnchored source) (Pattern.body source) ps items [])
    (hm : Matched ps) : Pattern.compile o source =
      .ok ⟨source, items, captureKinds ps, Pattern.isAnchored source⟩ := by
  obtain ⟨last, heq, hkinds⟩ := h.compileFrom_eq_ok hm
  rw [Pattern.compile_eq, heq, ← hkinds]

theorem compile_of_faulty {f : Fault}
    (h : Faulty o.ceiling (Pattern.isAnchored source) (Pattern.body source) f) :
    Pattern.compile o source = .error (.malformed f) := by
  rw [Pattern.compile_eq, h.compileFrom_eq_error]

theorem compile_cases (o : Options) (source : Bytes) :
    (∃ ps items, Parsed o.ceiling (Pattern.isAnchored source) (Pattern.body source) ps items [] ∧
      Matched ps ∧
      Pattern.compile o source = .ok ⟨source, items, captureKinds ps, Pattern.isAnchored source⟩) ∨
    ∃ f, Faulty o.ceiling (Pattern.isAnchored source) (Pattern.body source) f ∧
      Pattern.compile o source = .error (.malformed f) := by
  have hnil : Parsed o.ceiling (Pattern.isAnchored source) (Pattern.body source) [] []
    (Pattern.body source) := .nil
  rcases hnil.total with ⟨ps, items, hp, hm⟩ | ⟨f, hf⟩
  · exact .inl ⟨ps, items, hp, hm, compile_of_parsed hp hm⟩
  · exact .inr ⟨f, hf, compile_of_faulty hf⟩

end

theorem length_body (source : Bytes) :
    (if Pattern.isAnchored source then 1 else 0) + (Pattern.body source).length =
      source.length := by
  rw [Pattern.body, List.length_drop]
  cases source with
  | nil => rfl
  | cons b source =>
    rw [List.length_cons]
    split <;> omega

/-- The patterns are the sources that parse with matched parentheses; a pattern has the items that its
source denotes, and any other source is rejected with its first fault. -/
theorem compile_iff_grammar (o : Options) (source : Bytes) :
    (∀ p, Pattern.compile o source = .ok p ↔ ∃ ps,
      Parsed o.ceiling (Pattern.isAnchored source) (Pattern.body source) ps p.items [] ∧
      Matched ps ∧ p = ⟨source, p.items, captureKinds ps, Pattern.isAnchored source⟩) ∧
    ∀ e, Pattern.compile o source = .error e ↔ ∃ f, e = .malformed f ∧ f.offset < source.length ∧
      Faulty o.ceiling (Pattern.isAnchored source) (Pattern.body source) f := by
  have htotal := Parsed.total
    (.nil : Parsed o.ceiling (Pattern.isAnchored source) (Pattern.body source) [] [] _)
  constructor
  · intro p
    constructor
    · intro h
      rcases htotal with ⟨ps, items, hp, hm⟩ | ⟨f, hf⟩
      · rw [compile_of_parsed hp hm] at h
        cases h
        exact ⟨ps, hp, hm, rfl⟩
      · rw [compile_of_faulty hf] at h
        cases h
    · intro h
      obtain ⟨ps, hp, hm, heq⟩ := h
      rw [compile_of_parsed hp hm, ← heq]
  · intro e
    constructor
    · intro h
      rcases htotal with ⟨ps, items, hp, hm⟩ | ⟨f, hf⟩
      · rw [compile_of_parsed hp hm] at h
        cases h
      · rw [compile_of_faulty hf] at h
        cases h
        exact ⟨f, rfl, length_body source ▸ hf.offset_lt, hf⟩
    · intro h
      obtain ⟨f, rfl, _, hf⟩ := h
      exact compile_of_faulty hf

end Grammar
end BytePattern
