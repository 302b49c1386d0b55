import BytePattern.Proofs.Pattern.Grammar
import BytePattern.Proofs.Search.Equivalent

/-!
# A caret in front

A caret in front of a source bars its first byte from being a quantifier and moves every offset by one,
and that is all: where the source begins with none, it falls into the same pieces behind the caret as
without it (`Parsed.behind_caret`), and what is wrong with it is wrong one byte later
(`Faulty.behind_caret`).

An anchored search is the search without the anchor, kept to the offset where it starts: an attempt does
not know of the anchor, and the leftmost match that starts at the offset is the one an attempt there gives
(`LeftmostFrom.attempt_start`). So a pattern behind a caret finds a match just where the pattern finds it
at once (`findAt_behind_caret`), though the one is tried once and the other is scanned for or searched as
a literal.
-/
namespace BytePattern

/-- The source is empty or begins with a byte that means behind a caret what it means in front. -/
def Pattern.FitsCaret (source : Bytes) : Prop :=
  source.head? ∉ [some Byte.caret, some Byte.star, some Byte.plus, some Byte.question]

namespace Grammar

theorem barrierAfter_of_ne_nil {ps : List Piece} (hne : ps ≠ []) (anchored anchored' : Bool) :
    barrierAfter anchored ps = barrierAfter anchored' ps := by
  obtain ⟨front, ⟨text, e⟩, rfl⟩ := (List.eq_nil_or_concat ps).resolve_left hne
  rw [List.concat_eq_append, barrierAfter_concat, barrierAfter_concat]

theorem offsetAfter_behind_caret (ps : List Piece) : offsetAfter true ps = offsetAfter false ps + 1 := by
  simp only [offsetAfter, if_true, Bool.false_eq_true, if_false]
  omega

section

variable {limit : Nat} {source : Bytes} {ps : List Piece} {items : List Item}

theorem Parsed.strayQuantifier_iff (hfits : Pattern.FitsCaret source) {text rest : Bytes}
    (h : Parsed limit false source ps items (text ++ rest)) (hne : text ≠ []) {b : UInt8}
    {k : Barrier} : StrayQuantifier true ps text b k ↔ StrayQuantifier false ps text b k := by
  by_cases hps : ps = []
  · subst hps
    -- the first piece begins as the source does
    obtain ⟨c, front, rfl⟩ := List.exists_cons_of_ne_nil hne
    have hc : source.head? = some c := by rw [h.source_eq]; rfl
    refine iff_of_false (fun hstray => ?_) fun hstray => by cases hstray.2.2
    obtain ⟨hb, hq, _⟩ := hstray
    cases hb
    rw [Pattern.FitsCaret, hc] at hfits
    rcases hq with rfl | rfl | rfl <;> exact hfits (by decide)
  · rw [StrayQuantifier, StrayQuantifier, barrierAfter_of_ne_nil hps true false]

theorem Parsed.behind_caret (hfits : Pattern.FitsCaret source) {rest : Bytes}
    (h : Parsed limit false source ps items rest) : Parsed limit true source ps items rest := by
  induction h with
  | nil => exact .nil
  | snoc hp hspells hno hdenotes ih =>
    refine .snoc ih hspells (fun b k hstray => ?_) hdenotes
    exact hno b k ((hp.strayQuantifier_iff hfits hspells.text_ne_nil).1 hstray)

theorem Faulty.behind_caret (hfits : Pattern.FitsCaret source) {f : Fault}
    (h : Faulty limit false source f) : Faulty limit true source ⟨f.cause, f.offset + 1⟩ := by
  cases h with
  | @broken ps _ _ n _ hp hbroken =>
    have hfault := Faulty.broken (hp.behind_caret hfits) hbroken
    rwa [offsetAfter_behind_caret, Nat.add_right_comm] at hfault
  | @misplaced ps _ text rest e cause hp hspells hmisplaced =>
    have hsame : Misplaced limit true ps ⟨text, e⟩ cause := by
      cases hmisplaced with
      | strayQuantifier hstray =>
        exact .strayQuantifier ((hp.strayQuantifier_iff hfits hspells.text_ne_nil).2 hstray)
      | tooManyCaptures hkind hlimit => exact .tooManyCaptures hkind hlimit
      | strayClose he hopen => exact .strayClose he hopen
      | badBackReference he hclosed => exact .badBackReference he hclosed
    have hfault := Faulty.misplaced (hp.behind_caret hfits) hspells hsame
    rwa [offsetAfter_behind_caret] at hfault
  | unfinished hp hopen =>
    have hfault := Faulty.unfinished (hp.behind_caret hfits) hopen
    rwa [offsetAfter_behind_caret] at hfault

end

end Grammar

namespace Pattern

theorem compile_behind_caret (o : Options) {source : Bytes}
    (hfits : FitsCaret source) :
    (∃ items kinds, compile o source = .ok ⟨source, items, kinds, false⟩ ∧
      compile o (Byte.caret :: source) = .ok ⟨Byte.caret :: source, items, kinds, true⟩) ∨
    ∃ f, compile o source = .error (.malformed f) ∧
      compile o (Byte.caret :: source) = .error (.malformed ⟨f.cause, f.offset + 1⟩) := by
  have hfree : isAnchored source = false := by
    rw [isAnchored, beq_eq_false_iff_ne]
    exact fun hcaret => hfits (hcaret ▸ List.mem_cons_self)
  have hbody : body source = source := by
    rw [body, hfree]
    rfl
  have hcases := Grammar.compile_cases o source
  rw [hbody, hfree] at hcases
  rcases hcases with ⟨ps, items, hp, hm, heq⟩ | ⟨f, hf, heq⟩
  · refine .inl ⟨items, _, heq, ?_⟩
    exact Grammar.compile_of_parsed (hp.behind_caret hfits) hm
  · refine .inr ⟨f, heq, ?_⟩
    exact Grammar.compile_of_faulty (hf.behind_caret hfits)

end Pattern

namespace Matcher

theorem LeftmostFrom.attempt_start {x : Matcher} {init : Nat} {result : Option Match}
    (h : x.LeftmostFrom init result) (hinit : init ≤ x.subject.size) :
    ∃ here, (x.attempt .fresh init).1 = .ok here ∧
      ∀ found, here = some found ↔ result = some found ∧ found.start = init := by
  cases result with
  | none => exact ⟨none, h init (Nat.le_refl init) hinit, by simp⟩
  | some found =>
    obtain ⟨i, hi, _, hfound, hbefore⟩ := h
    have hstart : found.start = i := start_eq_of_attempt (Prod.ext hfound rfl)
    rcases Nat.eq_or_lt_of_le hi with rfl | hlt
    · refine ⟨some found, hfound, fun other => ?_⟩
      constructor
      · rintro ⟨⟩
        exact ⟨rfl, hstart⟩
      · exact fun hother => hother.1
    · refine ⟨none, hbefore init (Nat.le_refl init) hlt, fun other => iff_of_false (by simp) ?_⟩
      rintro ⟨⟨⟩, hother⟩
      omega

theorem findAt_anchored {o o' : Options} {source source' : Bytes} {p q : Pattern}
    (hp : Pattern.compile o source = .ok p) (hq : Pattern.compile o' source' = .ok q)
    (hfree : p.anchored = false) (hanchored : q.anchored = true) (hitems : q.items = p.items)
    (s : Subject) {m m' : Memory} (hm : m.slots.length = captureLimit)
    (hm' : m'.slots.length = captureLimit) (init : Nat) :
    ∃ result here, (findAt ⟨p, s, none⟩ m init).1 = .ok result ∧
      (findAt ⟨q, s, none⟩ m' init).1 = .ok here ∧
      ∀ found, here = some found ↔ result = some found ∧ found.start = init := by
  obtain ⟨result, hr, hnaive⟩ := exists_naive hp s hm init
  obtain ⟨here, hr', hnaive'⟩ := exists_naive hq s hm' init
  refine ⟨result, here, hr, hr', ?_⟩
  unfold Naive at hnaive hnaive'
  by_cases hsize : s.size < init
  · rw [if_pos hsize] at hnaive hnaive'
    simp [hnaive, hnaive']
  · have hinit : init ≤ s.size := Nat.le_of_not_lt hsize
    rw [if_neg hsize, if_neg (by simp [hfree])] at hnaive
    rw [if_neg hsize, if_pos hanchored] at hnaive'
    have hsame := attempt_of_equivalent hp hq s (hitems ▸ equivalent_refl p.items) hinit
    obtain ⟨there, hthere, hiff⟩ := hnaive.attempt_start hinit
    rw [hsame, hthere] at hnaive'
    cases hnaive'
    exact hiff

/-- A caret in front of a source leaves its items and captures as they are and moves what is wrong with it
by one byte. The search with it finds the match without it if that starts at once, and else none. -/
theorem findAt_behind_caret (o : Options) {source : Bytes} (hfits : Pattern.FitsCaret source) :
    ((∃ q, Pattern.compile o (Byte.caret :: source) = .ok q) ↔
      ∃ p, Pattern.compile o source = .ok p) ∧
    (∀ e, Pattern.compile o source = .error e → ∃ f, e = .malformed f ∧
      Pattern.compile o (Byte.caret :: source) = .error (.malformed ⟨f.cause, f.offset + 1⟩)) ∧
    ∀ p, Pattern.compile o source = .ok p →
      ∃ q, Pattern.compile o (Byte.caret :: source) = .ok q ∧ q.items = p.items ∧
        q.captures = p.captures ∧ q.anchored = true ∧
        ∀ (s : Subject) (m m' : Memory) (init : Nat), m.slots.length = captureLimit →
          m'.slots.length = captureLimit → ∃ result here,
            (findAt ⟨p, s, none⟩ m init).1 = .ok result ∧
            (findAt ⟨q, s, none⟩ m' init).1 = .ok here ∧
            ∀ found, here = some found ↔ result = some found ∧ found.start = init := by
  rcases Pattern.compile_behind_caret o hfits with ⟨items, kinds, hp, hq⟩ | ⟨f, hp, hq⟩
  · refine ⟨iff_of_true ⟨_, hq⟩ ⟨_, hp⟩, ?_, ?_⟩
    · intro e he
      cases hp.symm.trans he
    · intro p hp'
      cases hp.symm.trans hp'
      refine ⟨_, hq, rfl, rfl, rfl, fun s m m' init hm hm' => ?_⟩
      exact findAt_anchored hp hq rfl rfl rfl s hm hm' init
  · refine ⟨iff_of_false ?_ ?_, ?_, ?_⟩
    · rintro ⟨q, hq'⟩
      cases hq.symm.trans hq'
    · rintro ⟨p, hp'⟩
      cases hp.symm.trans hp'
    · intro e he
      cases hp.symm.trans he
      exact ⟨f, rfl, hq⟩
    · intro p hp'
      cases hp.symm.trans hp'

theorem findAt_behind_caret_ab : Pattern.FitsCaret [97, 98] ∧ ∃ p q,
    Pattern.compile {} [97, 98] = .ok p ∧ Pattern.compile {} [94, 97, 98] = .ok q ∧
    p.plain = true ∧ q.items = p.items ∧ q.captures = p.captures ∧ q.anchored = true ∧
    (findAt ⟨p, #[120, 97, 98], none⟩ .fresh 0).1 = .ok (some ⟨1, 3, []⟩) ∧
    ∀ init, ∃ result here, (findAt ⟨p, #[120, 97, 98], none⟩ .fresh init).1 = .ok result ∧
      (findAt ⟨q, #[120, 97, 98], none⟩ .fresh init).1 = .ok here ∧
      ∀ found, here = some found ↔ result = some found ∧ found.start = init := by
  have hfits : Pattern.FitsCaret [97, 98] := by
    unfold Pattern.FitsCaret
    decide
  have hp : Pattern.compile {} [97, 98] =
      .ok ⟨[97, 98], [.single (.byte 97) .one, .single (.byte 98) .one], [], false⟩ := by
    cbv
  obtain ⟨_, _, hok⟩ := findAt_behind_caret {} hfits
  obtain ⟨q, hq, hitems, hcaptures, hanchored, hfind⟩ := hok _ hp
  refine ⟨hfits, _, q, hp, hq, by decide, hitems, hcaptures, hanchored, ?_, fun init => ?_⟩
  · apply eq_ok_of_toOption
    decide +kernel
  · exact hfind #[120, 97, 98] .fresh .fresh init rfl rfl

end Matcher
end BytePattern
