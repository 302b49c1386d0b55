import BytePattern.Proofs.Pattern.Enclosed
import BytePattern.Proofs.Search.Literal

/-!
# Searching with a pattern in parentheses

A walk through the items in one more capture is a walk through the items, with the same counts
(`walk_enclosed_iff`). So the preferred walks are the same, an attempt matches where it did, and a search
finds the same match with its whole span as the first capture (`Matcher.findAt_enclosed`), also where the
one search is for a literal or a leading byte and the other is not.
-/
namespace BytePattern

def Record.under (r : Record) (t : Taken) : Record
  | 0 => some t
  | k + 1 => r k

namespace Record

theorem update_under_zero (r : Record) (t t' : Taken) :
    Function.update (r.under t) 0 (some t') = r.under t' := by
  funext k
  cases k <;> rfl

theorem update_under_succ (r : Record) (t : Taken) (k : Nat) (o : Option Taken) :
    Function.update (r.under t) (k + 1) o = under (Function.update r k o) t := by
  funext l
  cases l with
  | zero => rfl
  | succ l =>
    by_cases hl : l = k
    · subst hl
      rw [Function.update_self]
      exact (Function.update_self l o r).symm
    · rw [Function.update_of_ne (by omega)]
      exact (Function.update_of_ne hl o r).symm

theorem update_empty_zero (t : Taken) : Function.update empty 0 (some t) = empty.under t := by
  funext k
  cases k <;> rfl

theorem ofCaptures_cons (c : Capture) (captures : List Capture) :
    ofCaptures (c :: captures) = (ofCaptures captures).under (.holds c) := by
  funext k
  cases k <;> rfl

end Record

section Walk

variable {s : Subject} {items : List Item} {counts : List Nat} {i j a : Nat} {r r' r'' : Record}

theorem Walk.enclosed (h : Walk s items counts i r j r') (a : Nat) :
    Walk s (items.map Item.shift ++ [.closeCapture 0]) counts i (r.under (.opened a)) j
      (r'.under (.holds (.substring a j))) := by
  induction h with
  | @nil i r =>
    have hnil : Walk s [] [] i (Function.update (r.under (.opened a)) 0
        (some (.holds (.substring a i)))) i (r.under (.holds (.substring a i))) := by
      rw [Record.update_under_zero]
      exact .nil
    exact .closeCapture rfl hnil
  | single hal hac _ ih => exact .single hal hac ih
  | openCapture _ ih =>
    rw [← Record.update_under_succ] at ih
    exact .openCapture ih
  | closeCapture ha _ ih =>
    rw [← Record.update_under_succ] at ih
    exact .closeCapture ha ih
  | positionCapture _ ih =>
    rw [← Record.update_under_succ] at ih
    exact .positionCapture ih
  | balanced hspan _ ih => exact .balanced hspan ih
  | backReference hk hcopy _ ih => exact .backReference hk hcopy ih
  | frontier hbefore hafter _ ih => exact .frontier hbefore hafter ih
  | subjectEnd _ ih => exact .subjectEnd ih

theorem walk_of_enclosed (h : Walk s (items.map Item.shift ++ [.closeCapture 0]) counts i
    (r.under (.opened a)) j r'') :
    ∃ r', Walk s items counts i r j r' ∧ r'' = r'.under (.holds (.substring a j)) := by
  induction items generalizing counts i r with
  | nil =>
    cases h with
    | closeCapture ha hw =>
      cases ha
      cases hw
      exact ⟨r, .nil, Record.update_under_zero ..⟩
  | cons item items ih =>
    cases item with
    | single t q =>
      cases h with
      | single hal hac hw =>
        obtain ⟨r', hw, hr⟩ := ih hw
        exact ⟨r', .single hal hac hw, hr⟩
    | openCapture k =>
      cases h with
      | openCapture hw =>
        rw [Record.update_under_succ] at hw
        obtain ⟨r', hw, hr⟩ := ih hw
        exact ⟨r', .openCapture hw, hr⟩
    | closeCapture k =>
      cases h with
      | closeCapture ha hw =>
        rw [Record.update_under_succ] at hw
        obtain ⟨r', hw, hr⟩ := ih hw
        exact ⟨r', .closeCapture ha hw, hr⟩
    | positionCapture k =>
      cases h with
      | positionCapture hw =>
        rw [Record.update_under_succ] at hw
        obtain ⟨r', hw, hr⟩ := ih hw
        exact ⟨r', .positionCapture hw, hr⟩
    | balanced opener closer =>
      cases h with
      | balanced hspan hw =>
        obtain ⟨r', hw, hr⟩ := ih hw
        exact ⟨r', .balanced hspan hw, hr⟩
    | backReference k =>
      cases h with
      | backReference hk hcopy hw =>
        obtain ⟨r', hw, hr⟩ := ih hw
        exact ⟨r', .backReference hk hcopy hw, hr⟩
    | frontier set =>
      cases h with
      | frontier hbefore hafter hw =>
        obtain ⟨r', hw, hr⟩ := ih hw
        exact ⟨r', .frontier hbefore hafter hw, hr⟩
    | subjectEnd =>
      cases h with
      | subjectEnd hw =>
        obtain ⟨r', hw, hr⟩ := ih hw
        exact ⟨r', .subjectEnd hw, hr⟩

theorem walk_enclosed_iff : Walk s (enclosed items) counts i .empty j r'' ↔
    ∃ r', Walk s items counts i .empty j r' ∧ r'' = r'.under (.holds (.substring i j)) := by
  constructor
  · intro h
    cases h with
    | openCapture hw =>
      rw [Record.update_empty_zero] at hw
      exact walk_of_enclosed hw
  · rintro ⟨r', h, rfl⟩
    have hw := h.enclosed i
    rw [← Record.update_empty_zero] at hw
    exact .openCapture hw

theorem quantifiers_enclosed (items : List Item) : quantifiers (enclosed items) = quantifiers items := by
  have hshift (items : List Item) :
      quantifiers (items.map Item.shift ++ [.closeCapture 0]) = quantifiers items := by
    induction items with
    | nil => rfl
    | cons item items ih =>
      cases item with
      | single t q => exact congrArg (q :: ·) ih
      | _ => exact ih
  exact hshift items

theorem Preferred.enclosed (h : Preferred s items counts i .empty j r') :
    Preferred s (enclosed items) counts i .empty j (r'.under (.holds (.substring i j))) := by
  refine ⟨walk_enclosed_iff.2 ⟨r', h.1, rfl⟩, fun counts' j' r'' hw => ?_⟩
  obtain ⟨r₁, hw₁, _⟩ := walk_enclosed_iff.1 hw
  rw [quantifiers_enclosed]
  exact h.2 counts' j' r₁ hw₁

end Walk

def Match.enclosed (m : Match) : Match :=
  { m with captures := .substring m.start m.stop :: m.captures }

namespace Matcher

section Compiled

variable {o : Options} {source source' : Bytes} {p q : Pattern} (hp : Pattern.compile o source = .ok p)
  (hq : Pattern.compile o source' = .ok q) (hitems : q.items = enclosed p.items) (s : Subject)

include hp hq hitems

theorem attempt_enclosed {i : Nat} (hi : i ≤ s.size) :
    (attempt ⟨q, s, none⟩ .fresh i).1 =
      (attempt ⟨p, s, none⟩ .fresh i).1.map (Option.map Match.enclosed) := by
  rcases attempt_cases hp s hi (m := .fresh) rfl with ⟨h, hno⟩ | ⟨counts, stop, captures, h, hpref⟩
  · rw [h, (attempt_eq_none_iff hq s hi rfl).2]
    · rfl
    · intro counts stop r hw
      rw [hitems] at hw
      obtain ⟨r', hw', _⟩ := walk_enclosed_iff.1 hw
      exact hno counts stop r' hw'
  · have hpref' := hpref.enclosed
    rw [← hitems, ← Record.ofCaptures_cons] at hpref'
    rcases attempt_cases hq s hi (m := .fresh) rfl with ⟨_, hno⟩ | ⟨_, _, captures', h', hother⟩
    · exact absurd hpref'.1 (hno _ _ _)
    · obtain ⟨_, rfl, hr⟩ := hpref'.unique hother
      rw [h, h', ← Record.ofCaptures_injective hr]
      rfl

theorem LeftmostFrom.enclosed {init : Nat} {result : Option Match}
    (h : LeftmostFrom ⟨p, s, none⟩ init result) :
    LeftmostFrom ⟨q, s, none⟩ init (result.map Match.enclosed) := by
  have hattempt {i : Nat} (hi : i ≤ s.size) := attempt_enclosed hp hq hitems s hi
  cases result with
  | none =>
    intro k hk hks
    rw [hattempt hks, h k hk hks]
    rfl
  | some found =>
    obtain ⟨i, hinit, hi, hfound, hbefore⟩ := h
    refine ⟨i, hinit, hi, ?_, fun k hk hki => ?_⟩
    · rw [hattempt hi, hfound]
      rfl
    · rw [hattempt (Nat.le_trans (Nat.le_of_lt hki) hi), hbefore k hk hki]
      rfl

end Compiled

/-- A pattern in parentheses finds what the pattern finds, with the whole span as the first capture. -/
theorem findAt_enclosed {source : Bytes} {p : Pattern} (hp : Pattern.compile {} source = .ok p)
    (hne : source ≠ []) (hanchored : p.anchored = false) (hback : ∀ k, .backReference k ∉ p.items)
    (hlast : p.items.getLast? ≠ some .subjectEnd) (hcount : p.captureCount ≤ 31) :
    ∃ q, Pattern.compile {} (Byte.parenOpen :: (source ++ [Byte.parenClose])) = .ok q ∧
      ∀ (s : Subject) (m m' : Memory) (init : Nat), m.slots.length = captureLimit →
        m'.slots.length = captureLimit → ∃ result, (findAt ⟨p, s, none⟩ m init).1 = .ok result ∧
          (findAt ⟨q, s, none⟩ m' init).1 = .ok (result.map Match.enclosed) := by
  have hend := Pattern.subjectEnd_not_mem hp hlast
  have hq := Pattern.compile_enclosed hp hne hanchored hback hend (Nat.lt_succ_of_le hcount)
  refine ⟨_, hq, fun s m m' init hm hm' => ?_⟩
  obtain ⟨result, hr, hnaive⟩ := exists_naive hp s hm init
  obtain ⟨result', hr', hnaive'⟩ := exists_naive hq s hm' init
  refine ⟨result, hr, hr'.trans (congrArg Except.ok ?_)⟩
  unfold Naive at hnaive hnaive'
  by_cases hinit : s.size < init
  · rw [if_pos hinit] at hnaive hnaive'
    rw [hnaive, hnaive', Option.map_none]
  · rw [if_neg hinit, if_neg (by simp [hanchored])] at hnaive
    rw [if_neg hinit, if_neg (by simp)] at hnaive'
    exact hnaive'.unique (hnaive.enclosed hp hq rfl s)

theorem findAt_enclosed_abb : ∃ p, Pattern.compile {} [97, 40, 98, 42, 41] = .ok p ∧
    p.anchored = false ∧ (∀ k, .backReference k ∉ p.items) ∧
    p.items.getLast? ≠ some .subjectEnd ∧ p.captureCount ≤ 31 ∧
    (findAt ⟨p, #[120, 97, 98, 98], none⟩ .fresh 0).1 = .ok (some ⟨1, 4, [.substring 2 4]⟩) ∧
    ∃ q, Pattern.compile {} [40, 97, 40, 98, 42, 41, 41] = .ok q ∧
      ∀ (s : Subject) (m m' : Memory) (init : Nat), m.slots.length = captureLimit →
        m'.slots.length = captureLimit → ∃ result, (findAt ⟨p, s, none⟩ m init).1 = .ok result ∧
          (findAt ⟨q, s, none⟩ m' init).1 = .ok (result.map Match.enclosed) := by
  have hp : Pattern.compile {} [97, 40, 98, 42, 41] =
      .ok ⟨[97, 40, 98, 42, 41], [.single (.byte 97) .one, .openCapture 0,
        .single (.byte 98) .zeroOrMore, .closeCapture 0], [.substring], false⟩ := by
    cbv
  have hback (k : Nat) : .backReference k ∉ ([.single (.byte 97) .one, .openCapture 0,
      .single (.byte 98) .zeroOrMore, .closeCapture 0] : List Item) := by
    simp
  refine ⟨_, hp, rfl, hback, by decide, by decide, ?_,
    findAt_enclosed hp (by decide) rfl hback (by decide) (by decide)⟩
  apply eq_ok_of_toOption
  decide +kernel

end Matcher
end BytePattern
