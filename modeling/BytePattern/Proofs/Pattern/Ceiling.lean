import Mathlib.Data.List.Basic
import Mathlib.Data.List.Induction
import BytePattern.Proofs.Pattern.Grammar

/-!
# The capture limit only cuts off

Under a lower capture limit a source is read as under the higher one, piece by piece, until a capture is
one too many (`Parsed.within`, `Parsed.exceeds`). If the pieces that are read under the higher limit do not
come to that, the source compiles to the same pattern or has the same fault, whatever the fault is
(`Stops.within`); otherwise the parenthesis of the first capture beyond the lower limit is reported, since
it stands before all that is left.
-/
namespace BytePattern
namespace Grammar

def OpensAt (anchored : Bool) (ps : List Piece) (n i : Nat) : Prop :=
  ∃ before p after, ps = before ++ p :: after ∧ (captureKind? p.element).isSome ∧
    (captureKinds before).length = n ∧ i = offsetAfter anchored before

inductive Stops (limit : Nat) (anchored : Bool) (ps : List Piece) (rest : Bytes) : Fault → Prop
  | broken {n : Nat} {cause : Malformation} : Element.Broken rest n cause →
      Stops limit anchored ps rest ⟨cause, offsetAfter anchored ps + n⟩
  | misplaced {text after : Bytes} {e : Element} {cause : Malformation} : rest = text ++ after →
      e.Spells text after → Misplaced limit anchored ps ⟨text, e⟩ cause →
      Stops limit anchored ps rest ⟨cause, offsetAfter anchored ps⟩
  | unfinished {outer : List Piece} : rest = [] → Innermost ps outer →
      Stops limit anchored ps rest ⟨.unfinishedCapture, offsetAfter anchored outer⟩

theorem exists_opensAt (anchored : Bool) {ps : List Piece} {n : Nat}
    (h : n < (captureKinds ps).length) : ∃ i, OpensAt anchored ps n i := by
  induction ps using List.reverseRecOn with
  | nil => exact absurd h (Nat.not_lt_zero n)
  | append_singleton ps p ih =>
    by_cases hn : n < (captureKinds ps).length
    · obtain ⟨i, before, q, after, rfl, hq, hlength, hi⟩ := ih hn
      exact ⟨i, before, q, after ++ [p], by simp, hq, hlength, hi⟩
    · rw [captureKinds_concat, List.length_append] at h
      cases hkind : captureKind? p.element with
      | none =>
        rw [hkind] at h
        exact absurd h hn
      | some kind =>
        rw [hkind, Option.toList_some, List.length_singleton] at h
        have hlength : (captureKinds ps).length = n := by omega
        exact ⟨_, ps, p, [], rfl, by rw [hkind]; rfl, hlength, rfl⟩

section

variable {limit limit' : Nat} {anchored : Bool} {source : Bytes} {ps : List Piece}
  {items : List Item} {rest : Bytes}

theorem Parsed.split {before after : List Piece} {p : Piece}
    (h : Parsed limit anchored source (before ++ p :: after) items rest) :
    ∃ items' rest', Parsed limit anchored source before items' (p.text ++ rest') ∧
      p.element.Spells p.text rest' := by
  generalize hps : before ++ p :: after = ps at h
  induction h generalizing after with
  | nil => simp at hps
  | @snoc ps _ text rest e _ hp hspells _ _ ih =>
    rcases List.eq_nil_or_concat after with rfl | ⟨front, q, rfl⟩
    · obtain ⟨rfl, hlast⟩ := List.append_inj' hps rfl
      cases hlast
      exact ⟨_, rest, hp, hspells⟩
    · have hcat : (before ++ p :: front) ++ [q] = ps ++ [⟨text, e⟩] := by simpa using hps
      obtain ⟨hfront, _⟩ := List.append_inj' hcat rfl
      exact ih hfront

theorem Denotes.within {text : Bytes} {e : Element} {item : Item} (h : Denotes limit' ps e item)
    (hlimit : (captureKinds (ps ++ [⟨text, e⟩])).length ≤ limit) : Denotes limit ps e item := by
  rw [captureKinds_concat, List.length_append] at hlimit
  cases h with
  | position => exact .position hlimit
  | opening => exact .opening hlimit
  | closing hopen => exact .closing hopen
  | subjectEnd => exact .subjectEnd
  | balanced => exact .balanced
  | frontier => exact .frontier
  | backReference hd hclosed => exact .backReference hd hclosed
  | single => exact .single

theorem Parsed.within (h : Parsed limit' anchored source ps items rest)
    (hlimit : (captureKinds ps).length ≤ limit) : Parsed limit anchored source ps items rest := by
  induction h with
  | nil => exact .nil
  | snoc _ hspells hno hdenotes ih =>
    have hdenotes' := hdenotes.within hlimit
    rw [captureKinds_concat, List.length_append] at hlimit
    exact .snoc (ih (Nat.le_of_add_right_le hlimit)) hspells hno hdenotes'

theorem Parsed.exceeds (h : Parsed limit' anchored source ps items rest) {i : Nat}
    (hi : OpensAt anchored ps limit i) : Faulty limit anchored source ⟨.tooManyCaptures, i⟩ := by
  obtain ⟨before, ⟨text, e⟩, after, rfl, hkind, hlength, rfl⟩ := hi
  obtain ⟨items', rest', hp, hspells⟩ := h.split
  obtain ⟨kind, hkind⟩ := Option.isSome_iff_exists.1 hkind
  exact .misplaced (hp.within (Nat.le_of_eq hlength)) hspells
    (.tooManyCaptures hkind (Nat.le_of_eq hlength.symm))

theorem Parsed.getElem?_of_opensAt (h : Parsed limit anchored source ps items rest) {n i : Nat}
    (hi : OpensAt anchored ps n i) :
    ∃ k, i = (if anchored then 1 else 0) + k ∧ source[k]? = some Byte.parenOpen := by
  obtain ⟨before, ⟨text, e⟩, after, rfl, hkind, _, rfl⟩ := hi
  obtain ⟨items', rest', hp, hspells⟩ := h.split
  refine ⟨(before.flatMap (·.text)).length, rfl, ?_⟩
  rw [hp.source_eq, List.getElem?_append_right (Nat.le_refl _), Nat.sub_self]
  cases hspells with
  | position => rfl
  | opening => rfl
  | _ => cases hkind

theorem Faulty.exists_stops {f : Fault} (h : Faulty limit anchored source f) :
    ∃ ps items rest, Parsed limit anchored source ps items rest ∧ Stops limit anchored ps rest f := by
  cases h with
  | broken hp hbroken => exact ⟨_, _, _, hp, .broken hbroken⟩
  | misplaced hp hspells hmisplaced => exact ⟨_, _, _, hp, .misplaced rfl hspells hmisplaced⟩
  | unfinished hp hopen => exact ⟨_, _, _, hp, .unfinished rfl hopen⟩

theorem Stops.faulty {f : Fault} (h : Stops limit anchored ps rest f)
    (hp : Parsed limit anchored source ps items rest) : Faulty limit anchored source f := by
  cases h with
  | broken hbroken => exact .broken hp hbroken
  | misplaced hrest hspells hmisplaced => exact .misplaced (hrest ▸ hp) hspells hmisplaced
  | unfinished hrest hopen => exact .unfinished (hrest ▸ hp) hopen

theorem Stops.within {f : Fault} (h : Stops limit' anchored ps rest f) (hle : limit ≤ limit') :
    Stops limit anchored ps rest f := by
  cases h with
  | broken hbroken => exact .broken hbroken
  | misplaced hrest hspells hmisplaced =>
    refine .misplaced hrest hspells ?_
    cases hmisplaced with
    | strayQuantifier hstray => exact .strayQuantifier hstray
    | tooManyCaptures hkind hcount => exact .tooManyCaptures hkind (Nat.le_trans hle hcount)
    | strayClose he hopen => exact .strayClose he hopen
    | badBackReference he hclosed => exact .badBackReference he hclosed
  | unfinished hrest hopen => exact .unfinished hrest hopen

end

/-- Of a source with the pieces `ps`, what compiling makes under a limit that is lower than the one under
which they are read: `full` as there, or the first capture too many. -/
structure CutOff (o : Options) (source : Bytes) (ps : List Piece) (full : Except Error Pattern) :
    Prop where
  same : (captureKinds ps).length ≤ o.ceiling → Pattern.compile o source = full
  tooMany : o.ceiling < (captureKinds ps).length →
    ∃ i, OpensAt (Pattern.isAnchored source) ps o.ceiling i ∧ source[i]? = some Byte.parenOpen ∧
      Pattern.compile o source = .error (.malformed ⟨.tooManyCaptures, i⟩)

theorem Parsed.cutOff {limit : Nat} {source : Bytes} {ps : List Piece} {items : List Item}
    {rest : Bytes} (h : Parsed limit (Pattern.isAnchored source) (Pattern.body source) ps items rest)
    {o : Options} {full : Except Error Pattern}
    (hsame : (captureKinds ps).length ≤ o.ceiling → Pattern.compile o source = full) :
    CutOff o source ps full := by
  refine ⟨hsame, fun hcount => ?_⟩
  obtain ⟨i, hi⟩ := exists_opensAt (Pattern.isAnchored source) hcount
  refine ⟨i, hi, ?_, compile_of_faulty (h.exceeds hi)⟩
  obtain ⟨k, rfl, hk⟩ := h.getElem?_of_opensAt hi
  rwa [Pattern.body, List.getElem?_drop] at hk

/-- A lower capture limit gives the same pattern or the same fault, unless more captures are opened on the
way there than it allows: then the first of them that is too many is reported. -/
theorem compile_ceiling {o o' : Options} (hle : o.ceiling ≤ o'.ceiling) (source : Bytes) :
    (∀ p, Pattern.compile o' source = .ok p → ∃ ps,
      Parsed o'.ceiling (Pattern.isAnchored source) (Pattern.body source) ps p.items [] ∧
      p.captures = captureKinds ps ∧ CutOff o source ps (.ok p)) ∧
    (∀ e, Pattern.compile o' source = .error e → ∃ ps items rest f, e = .malformed f ∧
      Parsed o'.ceiling (Pattern.isAnchored source) (Pattern.body source) ps items rest ∧
      Stops o'.ceiling (Pattern.isAnchored source) ps rest f ∧ CutOff o source ps (.error e)) ∧
    Malformation.tooManyCaptures.message = "too many captures" := by
  rcases compile_cases o' source with ⟨ps, items, hparsed, hmatched, heq⟩ | ⟨f, hfaulty, heq⟩
  · refine ⟨fun p hp => ?_, fun e he => ?_, rfl⟩
    · cases heq.symm.trans hp
      refine ⟨ps, hparsed, rfl, hparsed.cutOff fun hcount => ?_⟩
      exact compile_of_parsed (hparsed.within hcount) hmatched
    · cases heq.symm.trans he
  · refine ⟨fun p hp => ?_, fun e he => ?_, rfl⟩
    · cases heq.symm.trans hp
    · cases heq.symm.trans he
      obtain ⟨ps, items, rest, hparsed, hstops⟩ := hfaulty.exists_stops
      refine ⟨ps, items, rest, f, rfl, hparsed, hstops, hparsed.cutOff fun hcount => ?_⟩
      exact compile_of_faulty ((hstops.within hle).faulty (hparsed.within hcount))

theorem compile_ceiling_strayClose :
    ({ maxCaptures := 1 } : Options).ceiling ≤ ({} : Options).ceiling ∧
    Pattern.compile {} [40, 97, 41, 40, 41, 41] = .error (.malformed ⟨.strayClose, 5⟩) ∧
    Pattern.compile { maxCaptures := 1 } [40, 97, 41, 40, 41, 41] =
      .error (.malformed ⟨.tooManyCaptures, 3⟩) ∧
    ∃ ps items rest, Parsed 32 false [40, 97, 41, 40, 41, 41] ps items rest ∧
      Stops 32 false ps rest ⟨.strayClose, 5⟩ ∧
      CutOff { maxCaptures := 1 } [40, 97, 41, 40, 41, 41] ps
        (.error (.malformed ⟨.strayClose, 5⟩)) := by
  have hle : ({ maxCaptures := 1 } : Options).ceiling ≤ ({} : Options).ceiling := by decide
  have herror : Pattern.compile {} [40, 97, 41, 40, 41, 41] = .error (.malformed ⟨.strayClose, 5⟩) := by
    cbv
  have hcut : Pattern.compile { maxCaptures := 1 } [40, 97, 41, 40, 41, 41] =
      .error (.malformed ⟨.tooManyCaptures, 3⟩) := by
    cbv
  obtain ⟨_, hfails, _⟩ := compile_ceiling hle [40, 97, 41, 40, 41, 41]
  obtain ⟨ps, items, rest, f, hf, hparsed, hstops, hcutOff⟩ := hfails _ herror
  cases hf
  exact ⟨hle, herror, hcut, ps, items, rest, hparsed, hstops, hcutOff⟩

end Grammar
end BytePattern
