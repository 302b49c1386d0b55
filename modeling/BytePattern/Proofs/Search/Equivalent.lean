import BytePattern.Proofs.Search.Literal

/-!
# Tokens that accept the same bytes

How a token is written decides which way a search goes, but not what it finds: a walk asks a token for
nothing but the bytes that it accepts (`Walk.equivalent`). So items that differ in equivalent tokens have
the same preferred walks, and attempts with them answer alike (`attempt_eq_of_preferred`). Searches whose
attempts answer alike find the same (`findAt_eq_of_attempt`), also where one of them looks for a literal or
a leading byte.
-/
namespace BytePattern

inductive Item.Equivalent : Item → Item → Prop
  | refl (item : Item) : Equivalent item item
  | single {t t' : Token} (q : Quantifier) :
      (∀ b, t.accepts b = t'.accepts b) → Equivalent (.single t q) (.single t' q)

theorem Item.Equivalent.symm {item item' : Item} (h : Item.Equivalent item item') :
    Item.Equivalent item' item := by
  cases h with
  | refl => exact .refl item
  | single q hbytes => exact .single q fun b => (hbytes b).symm

theorem equivalent_refl (items : List Item) : List.Forall₂ Item.Equivalent items items :=
  List.forall₂_same.2 fun item _ => .refl item

theorem equivalent_symm {items items' : List Item} (h : List.Forall₂ Item.Equivalent items items') :
    List.Forall₂ Item.Equivalent items' items :=
  (h.imp fun _ _ => Item.Equivalent.symm).flip

theorem quantifiers_equivalent {items items' : List Item}
    (h : List.Forall₂ Item.Equivalent items items') : quantifiers items' = quantifiers items := by
  induction h with
  | nil => rfl
  | @cons item _ _ _ hitem _ ih =>
    cases hitem with
    | refl =>
      cases item with
      | single t q => exact congrArg (q :: ·) ih
      | _ => exact ih
    | single q _ => exact congrArg (q :: ·) ih

theorem Subject.Accepts.congr {s : Subject} {t t' : Token} {i n : Nat} (h : s.Accepts t i n)
    (hbytes : ∀ b, t.accepts b = t'.accepts b) : s.Accepts t' i n := by
  intro k hk
  obtain ⟨b, hb, haccepts⟩ := h k hk
  exact ⟨b, hb, (hbytes b).symm.trans haccepts⟩

section Walk

variable {s : Subject} {items items' : List Item} {counts : List Nat} {i j : Nat} {r r' : Record}

theorem Walk.equivalent (h : Walk s items counts i r j r')
    (hitems : List.Forall₂ Item.Equivalent items items') : Walk s items' counts i r j r' := by
  induction h generalizing items' with
  | nil =>
    cases hitems
    exact .nil
  | single hallows haccepts _ ih =>
    cases hitems with
    | cons hitem hrest =>
      cases hitem with
      | refl => exact .single hallows haccepts (ih hrest)
      | single _ hbytes => exact .single hallows (haccepts.congr hbytes) (ih hrest)
  | openCapture _ ih =>
    rcases hitems with _ | ⟨⟨⟩, hrest⟩
    exact .openCapture (ih hrest)
  | closeCapture ha _ ih =>
    rcases hitems with _ | ⟨⟨⟩, hrest⟩
    exact .closeCapture ha (ih hrest)
  | positionCapture _ ih =>
    rcases hitems with _ | ⟨⟨⟩, hrest⟩
    exact .positionCapture (ih hrest)
  | balanced hspan _ ih =>
    rcases hitems with _ | ⟨⟨⟩, hrest⟩
    exact .balanced hspan (ih hrest)
  | backReference hk hcopy _ ih =>
    rcases hitems with _ | ⟨⟨⟩, hrest⟩
    exact .backReference hk hcopy (ih hrest)
  | frontier hbefore hafter _ ih =>
    rcases hitems with _ | ⟨⟨⟩, hrest⟩
    exact .frontier hbefore hafter (ih hrest)
  | subjectEnd _ ih =>
    rcases hitems with _ | ⟨⟨⟩, hrest⟩
    exact .subjectEnd (ih hrest)

theorem Preferred.equivalent (h : Preferred s items counts i r j r')
    (hitems : List.Forall₂ Item.Equivalent items items') : Preferred s items' counts i r j r' := by
  refine ⟨h.1.equivalent hitems, fun counts' j' r'' hw => ?_⟩
  rw [quantifiers_equivalent hitems]
  exact h.2 counts' j' r'' (hw.equivalent (equivalent_symm hitems))

end Walk

namespace Matcher

section Attempts

variable {p q : Pattern} {s : Subject} {limit : Option Nat} (hattempt : ∀ k ≤ s.size,
  (attempt ⟨q, s, limit⟩ .fresh k).1 = (attempt ⟨p, s, limit⟩ .fresh k).1) {init : Nat}
  {result : Option Match}

include hattempt

theorem LeftmostFrom.congr (h : LeftmostFrom ⟨p, s, limit⟩ init result) :
    LeftmostFrom ⟨q, s, limit⟩ init result := by
  cases result with
  | none =>
    intro k hk hsize
    rw [hattempt k hsize, h k hk hsize]
  | some found =>
    obtain ⟨i, hinit, hi, hfound, hbefore⟩ := h
    refine ⟨i, hinit, hi, ?_, fun k hk hki => ?_⟩
    · rw [hattempt i hi, hfound]
    · rw [hattempt k (Nat.le_trans (Nat.le_of_lt hki) hi), hbefore k hk hki]

theorem Naive.congr (hanchored : q.anchored = p.anchored) (h : Naive ⟨p, s, limit⟩ init result) :
    Naive ⟨q, s, limit⟩ init result := by
  unfold Naive at h ⊢
  simp only [hanchored] at h ⊢
  split
  · rwa [if_pos ‹_›] at h
  · rename_i hinit
    rw [if_neg hinit] at h
    split
    · rw [if_pos ‹_›] at h
      rw [hattempt init (Nat.le_of_not_lt hinit), h]
    · rw [if_neg ‹_›] at h
      exact h.congr hattempt

end Attempts

theorem Naive.unique {x : Matcher} {init : Nat} {result result' : Option Match}
    (h : x.Naive init result) (h' : x.Naive init result') : result = result' := by
  unfold Naive at h h'
  split at h
  · rw [if_pos ‹_›] at h'
    rw [h, h']
  · rw [if_neg ‹_›] at h'
    split at h
    · rw [if_pos ‹_›] at h'
      exact Except.ok.inj (h.symm.trans h')
    · rw [if_neg ‹_›] at h'
      exact h.unique h'

section Compiled

variable {o o' : Options} {source source' : Bytes} {p q : Pattern}
  (hp : Pattern.compile o source = .ok p) (hq : Pattern.compile o' source' = .ok q) (s : Subject)

include hp hq

theorem attempt_eq_of_preferred {i : Nat} (hi : i ≤ s.size)
    (hwalk : ∀ counts stop r, Walk s q.items counts i .empty stop r →
      ∃ counts stop r, Walk s p.items counts i .empty stop r)
    (hpreferred : ∀ counts stop r, Preferred s p.items counts i .empty stop r →
      ∃ counts, Preferred s q.items counts i .empty stop r) :
    (attempt ⟨q, s, none⟩ .fresh i).1 = (attempt ⟨p, s, none⟩ .fresh i).1 := by
  rcases attempt_cases hp s hi (m := .fresh) rfl with ⟨h, hno⟩ | ⟨counts, stop, captures, h, hpref⟩
  · rw [h, (attempt_eq_none_iff hq s hi rfl).2]
    intro counts stop r hw
    obtain ⟨counts', stop', r', hw'⟩ := hwalk counts stop r hw
    exact hno counts' stop' r' hw'
  · obtain ⟨counts', hpref'⟩ := hpreferred counts stop _ hpref
    rcases attempt_cases hq s hi (m := .fresh) rfl with ⟨_, hno⟩ | ⟨_, _, captures', h', hother⟩
    · exact absurd hpref'.1 (hno counts' stop _)
    · obtain ⟨_, rfl, hr⟩ := hpref'.unique hother
      rw [h, h', Record.ofCaptures_injective hr]

theorem attempt_of_equivalent (hitems : List.Forall₂ Item.Equivalent p.items q.items) {i : Nat}
    (hi : i ≤ s.size) :
    (attempt ⟨q, s, none⟩ .fresh i).1 = (attempt ⟨p, s, none⟩ .fresh i).1 := by
  refine attempt_eq_of_preferred hp hq s hi ?_ ?_
  · intro counts stop r hw
    exact ⟨counts, stop, r, hw.equivalent (equivalent_symm hitems)⟩
  · intro counts stop r hpref
    exact ⟨counts, hpref.equivalent hitems⟩

theorem findAt_eq_of_attempt (hanchored : q.anchored = p.anchored)
    (hattempt : ∀ i ≤ s.size,
      (attempt ⟨q, s, none⟩ .fresh i).1 = (attempt ⟨p, s, none⟩ .fresh i).1)
    {m m' : Memory} (hm : m.slots.length = captureLimit) (hm' : m'.slots.length = captureLimit)
    (init : Nat) : ∃ result, (findAt ⟨p, s, none⟩ m init).1 = .ok result ∧
      (findAt ⟨q, s, none⟩ m' init).1 = .ok result := by
  obtain ⟨result, hr, hnaive⟩ := exists_naive hp s hm init
  obtain ⟨result', hr', hnaive'⟩ := exists_naive hq s hm' init
  obtain rfl := hnaive'.unique (hnaive.congr hattempt hanchored)
  exact ⟨result', hr, hr'⟩

end Compiled

/-- What a search finds does not depend on how the tokens are written that accept the same bytes. -/
theorem findAt_equivalent {o o' : Options} {source source' : Bytes} {p q : Pattern}
    (hp : Pattern.compile o source = .ok p) (hq : Pattern.compile o' source' = .ok q)
    (hanchored : p.anchored = q.anchored)
    (hitems : List.Forall₂ Item.Equivalent p.items q.items) (s : Subject) {m m' : Memory}
    (hm : m.slots.length = captureLimit) (hm' : m'.slots.length = captureLimit) (init : Nat) :
    ∃ result, (findAt ⟨p, s, none⟩ m init).1 = .ok result ∧
      (findAt ⟨q, s, none⟩ m' init).1 = .ok result :=
  findAt_eq_of_attempt hp hq s hanchored.symm
    (fun _ hi => attempt_of_equivalent hp hq s hitems hi) hm hm' init

theorem findAt_equivalent_ab : ∃ p q, Pattern.compile {} [97, 98] = .ok p ∧
    Pattern.compile {} [91, 97, 93, 98] = .ok q ∧ p.anchored = q.anchored ∧
    List.Forall₂ Item.Equivalent p.items q.items ∧ Memory.fresh.slots.length = captureLimit ∧
    p.plain = true ∧ q.plain = false ∧ q.leadByte? = none ∧
    (findAt ⟨p, #[97, 97, 98], none⟩ .fresh 0).1 = .ok (some ⟨1, 3, []⟩) ∧
    ∃ result, (findAt ⟨p, #[97, 97, 98], none⟩ .fresh 0).1 = .ok result ∧
      (findAt ⟨q, #[97, 97, 98], none⟩ .fresh 0).1 = .ok result := by
  have hp : Pattern.compile {} [97, 98] =
      .ok ⟨[97, 98], [.single (.byte 97) .one, .single (.byte 98) .one], [], false⟩ := by
    cbv
  have hq : Pattern.compile {} [91, 97, 93, 98] = .ok ⟨[91, 97, 93, 98],
      [.single (.set (.ofMembers [.byte 97] false)) .one, .single (.byte 98) .one], [], false⟩ := by
    apply eq_ok_of_toOption
    decide +kernel
  have hbytes (b : UInt8) : Token.accepts (.byte 97) b =
      Token.accepts (.set (.ofMembers [.byte 97] false)) b := by
    simp [Token.accepts, ByteSet.contains_ofMembers, SetMember.contains]
  have hitems : List.Forall₂ Item.Equivalent
      [.single (.byte 97) .one, .single (.byte 98) .one]
      [.single (.set (.ofMembers [.byte 97] false)) .one, .single (.byte 98) .one] :=
    .cons (.single .one hbytes) (.cons (.refl _) .nil)
  have hfresh : Memory.fresh.slots.length = captureLimit := rfl
  refine ⟨_, _, hp, hq, rfl, hitems, hfresh, by decide, by decide, rfl, ?_,
    findAt_equivalent hp hq rfl hitems #[97, 97, 98] hfresh hfresh 0⟩
  apply eq_ok_of_toOption
  decide +kernel

end Matcher
end BytePattern
