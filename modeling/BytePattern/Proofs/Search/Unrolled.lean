import BytePattern.Proofs.Search.Equivalent

/-!
# One or more is one and then any number

A token that is repeated at least once stops where the token alone with its repetition behind it stops, and
tries these stops in the same order (`stops_oneOrMore`). So the items have the same first way, whatever
stands around them (`first_unrolled`, `first_append_congr`), attempts answer alike (`attempt_eq_of_first`),
and searches find the same.
-/
namespace BytePattern
namespace Matcher

theorem runEnd_eq (x : Matcher) (t : Token) (i : Nat) :
    x.subject.runEnd t i = if x.acceptsAt t i then x.subject.runEnd t (i + 1) else i := by
  rw [Subject.runEnd, acceptsAt]
  by_cases hi : i < x.subject.size <;> simp [hi]

theorem stops_oneOrMore (x : Matcher) (t : Token) (i : Nat) :
    x.stops t i .oneOrMore = if x.acceptsAt t i then x.stops t (i + 1) .zeroOrMore else [] := by
  have hrun := x.runEnd_eq t i
  by_cases h : x.acceptsAt t i
  · rw [if_pos h] at hrun ⊢
    obtain ⟨n, hn⟩ := Nat.exists_eq_add_of_le (x.subject.le_runEnd t (i + 1))
    have hcount : x.subject.runEnd t i - i = n + 1 := by omega
    have hrest : x.subject.runEnd t (i + 1) - (i + 1) = n := by omega
    simp only [stops, hcount, hrest]
  · rw [if_neg h] at hrun ⊢
    simp only [stops, hrun, Nat.sub_self]

theorem first_unrolled (x : Matcher) (t : Token) (rest : List Item) (slots : List Slot) (i : Nat) :
    x.first (.single t .oneOrMore :: rest) slots i =
      x.first (.single t .one :: .single t .zeroOrMore :: rest) slots i := by
  have hone : x.stops t i .one = if x.acceptsAt t i then [i + 1] else [] := rfl
  by_cases h : x.acceptsAt t i
  · simp [first, ways, stops_oneOrMore, hone, h]
  · simp [first, ways, stops_oneOrMore, hone, h]

theorem first_append_congr {x : Matcher} {items items' : List Item}
    (h : ∀ slots i, x.first items slots i = x.first items' slots i) (before : List Item)
    (slots : List Slot) (i : Nat) :
    x.first (before ++ items) slots i = x.first (before ++ items') slots i := by
  induction before generalizing slots i with
  | nil => exact h slots i
  | cons item before ih => simp only [List.cons_append, first, ih]

section Patterns

variable (p q : Pattern) (s : Subject) (limit : Option Nat)

theorem stops_congr (t : Token) (i : Nat) (quantifier : Quantifier) :
    stops ⟨p, s, limit⟩ t i quantifier = stops ⟨q, s, limit⟩ t i quantifier := by
  cases quantifier with
  | lazy => simp only [stops, longer_eq]
  | _ => rfl

theorem ways_congr (slots : List Slot) (i : Nat) (item : Item) :
    ways ⟨p, s, limit⟩ slots i item = ways ⟨q, s, limit⟩ slots i item := by
  cases item with
  | single t quantifier => rw [ways, ways, stops_congr p q]
  | _ => rfl

theorem first_congr (items : List Item) (slots : List Slot) (i : Nat) :
    first ⟨p, s, limit⟩ items slots i = first ⟨q, s, limit⟩ items slots i := by
  induction items generalizing slots i with
  | nil => rfl
  | cons item rest ih => simp only [first, ways_congr p q, ih]

end Patterns

section Unrolled

variable {p q : Pattern} {s : Subject}

theorem attempt_eq_of_first (hcaptures : p.captures = q.captures) {m : Memory} {i : Nat}
    (h : first ⟨q, s, none⟩ q.items m.slots i = first ⟨p, s, none⟩ p.items m.slots i) :
    (attempt ⟨q, s, none⟩ m i).1 = (attempt ⟨p, s, none⟩ m i).1 := by
  have hp := tryMatch_answers (x := ⟨p, s, none⟩) rfl m i
  have hq := tryMatch_answers (x := ⟨q, s, none⟩) rfl m i
  rw [h] at hq
  unfold attempt
  generalize tryMatch ⟨p, s, none⟩ m i = answer at hp ⊢
  generalize tryMatch ⟨q, s, none⟩ m i = answer' at hq ⊢
  generalize first ⟨p, s, none⟩ p.items m.slots i = o at hp hq
  obtain ⟨result, m₁⟩ := answer
  obtain ⟨result', m₂⟩ := answer'
  rcases o with _ | (e | ⟨stop, slots⟩)
  · obtain rfl : result = .ok none := hp
    obtain rfl : result' = .ok none := hq
    rfl
  · obtain rfl : result = .error e := hp
    obtain rfl : result' = .error e := hq
    rfl
  · obtain ⟨rfl, hslots⟩ : result = .ok (some stop) ∧ m₁.slots = slots := hp
    obtain ⟨rfl, hslots'⟩ : result' = .ok (some stop) ∧ m₂.slots = slots := hq
    simp only [Memory.captures, Pattern.captureCount, hcaptures, hslots, hslots']

theorem attempt_unrolled (hcaptures : p.captures = q.captures) {before after : List Item} {t : Token}
    (hitems : p.items = before ++ .single t .oneOrMore :: after)
    (hitems' : q.items = before ++ .single t .one :: .single t .zeroOrMore :: after) (m : Memory)
    (i : Nat) : (attempt ⟨q, s, none⟩ m i).1 = (attempt ⟨p, s, none⟩ m i).1 := by
  apply attempt_eq_of_first hcaptures
  rw [hitems, hitems', first_congr q p]
  apply first_append_congr
  intro slots k
  exact (first_unrolled _ t after slots k).symm

end Unrolled

/-- Where one pattern repeats a token at least once and the other takes it once and then repeats it,
searches find the same. -/
theorem findAt_unrolled {o o' : Options} {source source' : Bytes} {p q : Pattern}
    (hp : Pattern.compile o source = .ok p) (hq : Pattern.compile o' source' = .ok q)
    (hanchored : p.anchored = q.anchored) (hcaptures : p.captures = q.captures)
    {before after : List Item} {t : Token}
    (hitems : p.items = before ++ .single t .oneOrMore :: after)
    (hitems' : q.items = before ++ .single t .one :: .single t .zeroOrMore :: after) (s : Subject)
    {m m' : Memory} (hm : m.slots.length = captureLimit) (hm' : m'.slots.length = captureLimit)
    (init : Nat) :
    ∃ result, (findAt ⟨p, s, none⟩ m init).1 = .ok result ∧
      (findAt ⟨q, s, none⟩ m' init).1 = .ok result :=
  findAt_eq_of_attempt hp hq s hanchored.symm
    (fun i _ => attempt_unrolled hcaptures hitems hitems' .fresh i) hm hm' init

theorem findAt_unrolled_baaab : ∃ p q, Pattern.compile {} [97, 43, 40, 41, 97, 98] = .ok p ∧
    Pattern.compile {} [97, 97, 42, 40, 41, 97, 98] = .ok q ∧ p.anchored = q.anchored ∧
    p.captures = q.captures ∧ (∃ before after t, p.items = before ++ .single t .oneOrMore :: after ∧
      q.items = before ++ .single t .one :: .single t .zeroOrMore :: after) ∧
    Memory.fresh.slots.length = captureLimit ∧
    (findAt ⟨p, #[98, 97, 97, 97, 98], none⟩ .fresh 0).1 = .ok (some ⟨1, 5, [.position 3]⟩) ∧
    ∃ result, (findAt ⟨p, #[98, 97, 97, 97, 98], none⟩ .fresh 0).1 = .ok result ∧
      (findAt ⟨q, #[98, 97, 97, 97, 98], none⟩ .fresh 0).1 = .ok result := by
  have hp : Pattern.compile {} [97, 43, 40, 41, 97, 98] = .ok ⟨[97, 43, 40, 41, 97, 98],
      [.single (.byte 97) .oneOrMore, .positionCapture 0, .single (.byte 97) .one,
        .single (.byte 98) .one], [.position], false⟩ := by
    cbv
  have hq : Pattern.compile {} [97, 97, 42, 40, 41, 97, 98] = .ok ⟨[97, 97, 42, 40, 41, 97, 98],
      [.single (.byte 97) .one, .single (.byte 97) .zeroOrMore, .positionCapture 0,
        .single (.byte 97) .one, .single (.byte 98) .one], [.position], false⟩ := by
    cbv
  let after : List Item := [.positionCapture 0, .single (.byte 97) .one, .single (.byte 98) .one]
  have hfresh : Memory.fresh.slots.length = captureLimit := rfl
  refine ⟨_, _, hp, hq, rfl, rfl, ⟨[], after, .byte 97, rfl, rfl⟩, hfresh, ?_, ?_⟩
  · apply eq_ok_of_toOption
    decide +kernel
  · exact findAt_unrolled hp hq rfl rfl (List.nil_append (.single (.byte 97) .oneOrMore :: after)).symm
      rfl _ hfresh hfresh 0

end Matcher
end BytePattern
