import Mathlib.Logic.Function.Basic
import BytePattern.Match.Attempt
import BytePattern.Proofs.Match.Span

/-!
# Walks through a pattern

What a pattern means, with no search in it. An assignment gives every repeated token a count. Walking the
items with these counts fixes the offset before each of them and what each capture holds; a walk exists
where every item holds at its offset. Among the assignments that have a walk the preferred one comes
first, item by item from the left: more repetitions before fewer, of a lazy token fewer before more.
-/
namespace BytePattern

inductive Taken
  | opened (start : Nat)
  | holds (capture : Capture)
  deriving DecidableEq

abbrev Record := Nat → Option Taken

def Record.empty : Record := fun _ => none

def Quantifier.Allows : Quantifier → Nat → Prop
  | .one, n => n = 1
  | .zeroOrOne, n => n ≤ 1
  | .zeroOrMore, _ => True
  | .lazy, _ => True
  | .oneOrMore, n => 1 ≤ n

def Quantifier.Prefers : Quantifier → Nat → Nat → Prop
  | .lazy, n, n' => n < n'
  | _, n, n' => n' < n

/-- The byte at `i`: zero stands behind the subject. -/
def Subject.byteAt (s : Subject) (i : Nat) : UInt8 := s[i]?.getD 0

def Subject.byteBefore (s : Subject) (i : Nat) : UInt8 := if i = 0 then 0 else s.byteAt (i - 1)

/-- `Walk s items counts i r j r'`: with these counts the items lead from offset `i` to offset `j` and
what they capture turns `r` into `r'`. -/
inductive Walk (s : Subject) : List Item → List Nat → Nat → Record → Nat → Record → Prop
  | nil {i : Nat} {r : Record} : Walk s [] [] i r i r
  | single {t : Token} {q : Quantifier} {n : Nat} {rest : List Item} {counts : List Nat} {i j : Nat}
      {r r' : Record} :
      q.Allows n → s.Accepts t i n → Walk s rest counts (i + n) r j r' →
      Walk s (.single t q :: rest) (n :: counts) i r j r'
  | openCapture {k : Nat} {rest : List Item} {counts : List Nat} {i j : Nat} {r r' : Record} :
      Walk s rest counts i (Function.update r k (some (.opened i))) j r' →
      Walk s (.openCapture k :: rest) counts i r j r'
  | closeCapture {k a : Nat} {rest : List Item} {counts : List Nat} {i j : Nat} {r r' : Record} :
      r k = some (.opened a) →
      Walk s rest counts i (Function.update r k (some (.holds (.substring a i)))) j r' →
      Walk s (.closeCapture k :: rest) counts i r j r'
  | positionCapture {k : Nat} {rest : List Item} {counts : List Nat} {i j : Nat} {r r' : Record} :
      Walk s rest counts i (Function.update r k (some (.holds (.position i)))) j r' →
      Walk s (.positionCapture k :: rest) counts i r j r'
  | balanced {opener closer : UInt8} {e : Nat} {rest : List Item} {counts : List Nat} {i j : Nat}
      {r r' : Record} :
      s.ShortestSpan opener closer i e → Walk s rest counts e r j r' →
      Walk s (.balanced opener closer :: rest) counts i r j r'
  | backReference {k a b : Nat} {rest : List Item} {counts : List Nat} {i j : Nat} {r r' : Record} :
      r k = some (.holds (.substring a b)) → s.CopyAt a b i →
      Walk s rest counts (i + (b - a)) r j r' →
      Walk s (.backReference k :: rest) counts i r j r'
  | frontier {set : ByteSet} {rest : List Item} {counts : List Nat} {i j : Nat} {r r' : Record} :
      set.contains (s.byteBefore i) = false → set.contains (s.byteAt i) = true →
      Walk s rest counts i r j r' → Walk s (.frontier set :: rest) counts i r j r'
  | subjectEnd {rest : List Item} {counts : List Nat} {j : Nat} {r r' : Record} :
      Walk s rest counts s.size r j r' → Walk s (.subjectEnd :: rest) counts s.size r j r'

def quantifiers (items : List Item) : List Quantifier :=
  items.filterMap fun
    | .single _ q => some q
    | _ => none

/-- The first count in which two assignments differ is preferred in the former. -/
inductive Precedes : List Quantifier → List Nat → List Nat → Prop
  | here {q : Quantifier} {qs : List Quantifier} {n n' : Nat} {counts counts' : List Nat} :
      q.Prefers n n' → Precedes (q :: qs) (n :: counts) (n' :: counts')
  | later {q : Quantifier} {qs : List Quantifier} {n : Nat} {counts counts' : List Nat} :
      Precedes qs counts counts' → Precedes (q :: qs) (n :: counts) (n :: counts')

def Preferred (s : Subject) (items : List Item) (counts : List Nat) (i : Nat) (r : Record) (j : Nat)
    (r' : Record) : Prop :=
  Walk s items counts i r j r' ∧ ∀ counts' j' r'', Walk s items counts' i r j' r'' →
    counts' = counts ∨ Precedes (quantifiers items) counts counts'

theorem Subject.ShortestSpan.unique {s : Subject} {opener closer : UInt8} {i e e' : Nat}
    (h : s.ShortestSpan opener closer i e) (h' : s.ShortestSpan opener closer i e') : e = e' :=
  Option.some.inj ((balancedEnd_eq_some_iff.2 h).symm.trans (balancedEnd_eq_some_iff.2 h'))

theorem Walk.unique {s : Subject} {items : List Item} {counts : List Nat} {i j j' : Nat}
    {r r₁ r₂ : Record} (h : Walk s items counts i r j r₁) (h' : Walk s items counts i r j' r₂) :
    j = j' ∧ r₁ = r₂ := by
  induction h with
  | nil =>
    cases h'
    exact ⟨rfl, rfl⟩
  | single _ _ _ ih =>
    cases h' with
    | single _ _ hw => exact ih hw
  | openCapture _ ih =>
    cases h' with
    | openCapture hw => exact ih hw
  | closeCapture ha _ ih =>
    cases h' with
    | closeCapture ha' hw =>
      cases ha.symm.trans ha'
      exact ih hw
  | positionCapture _ ih =>
    cases h' with
    | positionCapture hw => exact ih hw
  | balanced hs _ ih =>
    cases h' with
    | balanced hs' hw =>
      cases hs.unique hs'
      exact ih hw
  | backReference hr _ _ ih =>
    cases h' with
    | backReference hr' _ hw =>
      cases hr.symm.trans hr'
      exact ih hw
  | frontier _ _ _ ih =>
    cases h' with
    | frontier _ _ hw => exact ih hw
  | subjectEnd _ ih =>
    cases h' with
    | subjectEnd hw => exact ih hw

theorem Quantifier.Prefers.asymm {q : Quantifier} {n n' : Nat} (h : q.Prefers n n') :
    ¬ q.Prefers n' n := by
  cases q <;> exact Nat.lt_asymm h

theorem Quantifier.Prefers.ne {q : Quantifier} {n n' : Nat} (h : q.Prefers n n') : n ≠ n' := by
  intro he
  subst he
  exact h.asymm h

theorem Precedes.asymm {qs : List Quantifier} {counts counts' : List Nat}
    (h : Precedes qs counts counts') : ¬ Precedes qs counts' counts := by
  induction h with
  | here hp =>
    intro h'
    cases h' with
    | here hp' => exact hp.asymm hp'
    | later => exact hp.ne rfl
  | later _ ih =>
    intro h'
    cases h' with
    | here hp' => exact hp'.ne rfl
    | later h' => exact ih h'

theorem Preferred.unique {s : Subject} {items : List Item} {counts counts' : List Nat} {i j j' : Nat}
    {r r₁ r₂ : Record} (h : Preferred s items counts i r j r₁)
    (h' : Preferred s items counts' i r j' r₂) : counts = counts' ∧ j = j' ∧ r₁ = r₂ := by
  rcases h.2 _ _ _ h'.1 with rfl | hp
  · exact ⟨rfl, h.1.unique h'.1⟩
  · rcases h'.2 _ _ _ h.1 with rfl | hp'
    · exact ⟨rfl, h.1.unique h'.1⟩
    · exact absurd hp' hp.asymm

end BytePattern
