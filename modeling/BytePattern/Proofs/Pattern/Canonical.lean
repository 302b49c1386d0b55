import BytePattern.Proofs.Byte.Set
import BytePattern.Proofs.Pattern.Ledger

/-!
# Canonical spelling

Every item has a spelling of its own: what is no letter or digit is escaped, a set is a bracket of its
bytes, and nothing is left to the context. Compiling undoes it (`Pattern.compile_spell`). Two facts meet in
that. A text that falls into elements for the items of a run of the ledger compiles to these items
(`Pattern.compile_of_spelled`, by induction on the run). And no spelling begins with a byte that could
quantify the token before it, so the spellings of a compiled pattern fall into its elements
(`Pattern.Reads.spelled`, by induction on what was read).
-/
namespace BytePattern

def Byte.spell (b : UInt8) : Bytes := if isAlphaNum b then [b] else [percent, b]

def ClassTest.letter (t : ClassTest) : UInt8 :=
  if t.negated then t.kind.name.toUInt8 - 32 else t.kind.name.toUInt8

/-- What follows the opening bracket of a set. No byte is both no letter and no other byte. -/
def ByteSet.spell (s : ByteSet) : Bytes :=
  if s.toList = [] then [Byte.caret, Byte.percent, 97, Byte.percent, 65, Byte.bracketClose]
  else s.toList.flatMap Byte.spell ++ [Byte.bracketClose]

def Token.spell : Token → Bytes
  | .byte b => Byte.spell b
  | .any => [Byte.dot]
  | .ofClass t => [Byte.percent, t.letter]
  | .set s => Byte.bracketOpen :: s.spell

def Item.spell : Item → Bytes
  | .single t q => t.spell ++ q.suffix
  | .openCapture _ => [Byte.parenOpen]
  | .closeCapture _ => [Byte.parenClose]
  | .positionCapture _ => [Byte.parenOpen, Byte.parenClose]
  | .balanced x y => [Byte.percent, Byte.letterB, x, y]
  | .backReference k => [Byte.percent, Byte.digitZero + UInt8.ofNat (k + 1)]
  | .frontier s => Byte.percent :: Byte.letterF :: Byte.bracketOpen :: s.spell
  | .subjectEnd => [Byte.dollar]

def Pattern.spell (anchored : Bool) (items : List Item) : Bytes :=
  (if anchored then [Byte.caret] else []) ++ items.flatMap Item.spell

inductive Spelled : List Item → Bytes → Prop
  | nil : Spelled [] []
  | cons {item : Item} {items : List Item} {b : UInt8} {front rest : Bytes} :
      Quantifier.ofByte? b = none → item.element.Spells (b :: front) rest → Spelled items rest →
      Spelled (item :: items) (b :: (front ++ rest))

theorem Scope.checkLead_of_ofByte? {b : UInt8} (h : Quantifier.ofByte? b = none) (sc : Scope)
    (offset : Nat) : sc.checkLead offset b = .ok () := by
  have hb : ¬ (b = Byte.star ∨ b = Byte.plus ∨ b = Byte.question) := by
    rintro (rfl | rfl | rfl) <;> cases h
  unfold checkLead
  split
  · exact if_neg hb
  · rfl

theorem Scope.add_of_step {sc : Scope} {item : Item} {m : Ledger} {limit : Nat}
    (h : Ledger.Step sc.ledger item m) (hm : m.captures.length ≤ limit) (offset : Nat) :
    ∃ mid, sc.add limit offset item.element = .ok (item, mid) ∧ mid.ledger = m := by
  obtain ⟨cs, st, barrier⟩ := sc
  generalize hl : ledger ⟨cs, st, barrier⟩ = l at h
  cases h with
  | openCapture =>
    cases hl
    have hlt : cs.length < limit := Nat.lt_of_succ_le (by simpa using hm)
    refine ⟨⟨cs ++ [.opened], (cs.length, offset) :: st, none⟩, ?_, rfl⟩
    simp only [Item.element, add, capture, if_pos hlt]
    rfl
  | positionCapture =>
    cases hl
    have hlt : cs.length < limit := Nat.lt_of_succ_le (by simpa using hm)
    refine ⟨⟨cs ++ [.position], st, none⟩, ?_, rfl⟩
    simp only [Item.element, add, capture, if_pos hlt]
    rfl
  | closeCapture =>
    cases st with
    | nil => cases hl
    | cons top outer =>
      cases hl
      exact ⟨_, rfl, rfl⟩
  | @backReference l k _ hk =>
    subst hl
    have hk' : 0 < k + 1 ∧ cs[k + 1 - 1]? = some .closed := ⟨Nat.succ_pos k, hk⟩
    exact ⟨_, if_pos hk', rfl⟩
  | single => exact ⟨_, rfl, hl⟩
  | balanced => exact ⟨_, rfl, hl⟩
  | frontier => exact ⟨_, rfl, hl⟩
  | subjectEnd => exact ⟨_, rfl, hl⟩

namespace Pattern

theorem compileFrom_of_spelled {limit : Nat} {l n : Ledger} {items : List Item} {text : Bytes}
    (h : Ledger.Run l items n) (hs : Spelled items text) (hopen : n.opened = [])
    (hn : n.captures.length ≤ limit) {sc : Scope} (hsc : sc.ledger = l) (offset : Nat) :
    ∃ last, compileFrom limit offset sc text = .ok (items, last) ∧ last.captures = n.captures := by
  induction h generalizing sc offset text with
  | nil =>
    cases hs
    subst hsc
    have hfinish : sc.finish = .ok sc := finish_eq_ok.2 ⟨List.map_eq_nil_iff.1 hopen, rfl⟩
    refine ⟨sc, ?_, rfl⟩
    rw [compileFrom, hfinish]
    rfl
  | @cons _ _ _ item items hstep hrun ih =>
    subst hsc
    cases hs with
    | @cons _ _ b front rest hlead hspells hrest =>
      obtain ⟨mid, hadd, hmid⟩ := Scope.add_of_step hstep (Nat.le_trans hrun.length_le hn) offset
      obtain ⟨last, hlast, hcaptures⟩ := ih hrest hopen hn hmid (offset + 1 + front.length)
      refine ⟨last, ?_, hcaptures⟩
      rw [compileFrom, Scope.checkLead_of_ofByte? hlead, hspells.read_append]
      simp only [ok_bind, hadd, List.drop_left, hlast]
      rfl

theorem compile_of_spelled {o : Options} {source : Bytes} {items : List Item}
    {cs : List CaptureState} (h : Ledger.Run .start items ⟨cs, []⟩) (hcs : cs.length ≤ o.ceiling)
    (hs : Spelled items (body source)) :
    compile o source = .ok ⟨source, items, cs.map (·.kind), isAnchored source⟩ := by
  obtain ⟨last, hlast, hcaptures⟩ :=
    compileFrom_of_spelled h hs rfl hcs (Scope.start_ledger (isAnchored source)) _
  rw [compile_eq, hlast]
  simp only [hcaptures]

end Pattern

theorem Byte.ofLetter?_eq_none {b : UInt8} (h : isAlphaNum b = false) :
    ClassTest.ofLetter? b = none := by
  have hall : ∀ b ∈ all, isAlphaNum b = false → ClassTest.ofLetter? b = none := by decide +kernel
  exact hall b (mem_all b) h

theorem ClassTest.letter_spec (t : ClassTest) : t.letter ≠ Byte.letterB ∧ t.letter ≠ Byte.letterF ∧
    Byte.isDigit t.letter = false ∧ ofLetter? t.letter = some t := by
  obtain ⟨kind, negated⟩ := t
  cases kind <;> cases negated <;> decide

theorem Byte.digit_spec : ∀ k < 9, isDigit (digitZero + UInt8.ofNat (k + 1)) = true ∧
    (digitZero + UInt8.ofNat (k + 1) - digitZero).toNat = k + 1 := by
  decide

theorem Byte.not_mem_of_isAlphaNum {b : UInt8} (h : isAlphaNum b = true) {bytes : Bytes}
    (hbytes : bytes.all (!isAlphaNum ·) = true) : b ∉ bytes := by
  intro hb
  have := List.all_eq_true.1 hbytes b hb
  simp [h] at this

theorem Byte.exists_spell (b : UInt8) :
    ∃ c front, Byte.spell b = c :: front ∧ (isAlphaNum c = true ∨ c = percent) := by
  unfold Byte.spell
  split
  · exact ⟨b, [], rfl, .inl ‹_›⟩
  · exact ⟨percent, [b], rfl, .inr rfl⟩

namespace Bracket

theorem members_of_bytes {bytes : Bytes} {first : Bool} (h : first = true → bytes ≠ []) :
    Members first (bytes.flatMap Byte.spell ++ [Byte.bracketClose]) (bytes.map .byte) := by
  induction bytes generalizing first with
  | nil =>
    obtain rfl : first = false := by simpa using h
    exact .close
  | cons b bytes ih =>
    have hrest : Members false (bytes.flatMap Byte.spell ++ [Byte.bracketClose]) (bytes.map .byte) :=
      ih nofun
    rw [List.flatMap_cons, List.append_assoc, List.map_cons, Byte.spell]
    by_cases hb : Byte.isAlphaNum b = true
    · rw [if_pos hb]
      refine .byte ?_ ?_ ?_ hrest
      · rintro ⟨rfl, _⟩
        cases hb
      · rintro rfl
        cases hb
      · -- what follows is another member or the closing bracket
        intro hi tail ht
        cases bytes with
        | nil => cases ht
        | cons c bytes =>
          obtain ⟨d, front, hc, hd⟩ := Byte.exists_spell c
          have hhead := congrArg List.head? ht
          rw [List.flatMap_cons, hc] at hhead
          obtain rfl : d = Byte.minus := Option.some.inj hhead
          rcases hd with hd | hd <;> cases hd
    · rw [if_neg hb]
      have hescaped : escaped b = .byte b := by
        rw [escaped, Byte.ofLetter?_eq_none (by simpa using hb)]
      rw [← hescaped]
      exact .escape hrest

theorem ofMembers_bytes (s : ByteSet) : ByteSet.ofMembers (s.toList.map .byte) false = s := by
  apply ByteSet.ext_contains
  intro b
  rw [ByteSet.contains_ofMembers, Bool.bne_false, Bool.eq_iff_iff, ← ByteSet.mem_toList]
  simp [SetMember.contains]

theorem ofMembers_letter_negated {s : ByteSet} (h : s.toList = []) :
    ByteSet.ofMembers [escaped 97, escaped 65] true = s := by
  have hletter : escaped 97 = .ofClass ⟨.letter, false⟩ := rfl
  have hother : escaped 65 = .ofClass ⟨.letter, true⟩ := rfl
  apply ByteSet.ext_contains
  intro b
  have hb : s.contains b = false := by simpa [h] using ByteSet.mem_toList (s := s) (b := b)
  rw [ByteSet.contains_ofMembers, hb, hletter, hother]
  simp only [List.any_cons, List.any_nil, SetMember.contains, ClassTest.contains]
  cases ByteClass.contains .letter b <;> rfl

theorem spells_spell (s : ByteSet) : Spells s.spell s := by
  rw [ByteSet.spell]
  split
  · have hmembers : Members true [Byte.percent, 97, Byte.percent, 65, Byte.bracketClose]
        [escaped 97, escaped 65] := .escape (.escape .close)
    have hspells := Spells.negated hmembers
    rwa [ofMembers_letter_negated ‹_›] at hspells
  · rename_i hne
    have hmembers : Members true (s.toList.flatMap Byte.spell ++ [Byte.bracketClose])
        (s.toList.map .byte) := members_of_bytes fun _ => hne
    have hspells := Spells.plain ?_ hmembers
    · rwa [ofMembers_bytes] at hspells
    · obtain ⟨b, bytes, hb⟩ := List.exists_cons_of_ne_nil hne
      obtain ⟨c, front, hc, hlead⟩ := Byte.exists_spell b
      rw [hb, List.flatMap_cons, hc]
      intro hhead
      cases hhead
      rcases hlead with hlead | hlead <;> cases hlead

end Bracket

theorem Token.spells_spell (t : Token) : t.Spells t.spell := by
  cases t with
  | any => exact .any
  | set s => exact .set (Bracket.spells_spell s)
  | ofClass t =>
    obtain ⟨hb, hf, hd, ht⟩ := t.letter_spec
    exact .ofClass hb hf hd ht
  | byte b =>
    rw [spell, Byte.spell]
    by_cases hb : Byte.isAlphaNum b = true
    · rw [if_pos hb]
      exact .byte (Byte.not_mem_of_isAlphaNum hb rfl)
    · rw [if_neg hb]
      refine .escaped ?_ ?_ ?_ (Byte.ofLetter?_eq_none (by simpa using hb))
      · rintro rfl
        exact hb rfl
      · rintro rfl
        exact hb rfl
      · simp only [Byte.isAlphaNum, Bool.or_eq_true, not_or, Bool.not_eq_true] at hb
        exact hb.2

theorem Token.exists_spell (t : Token) : ∃ b front, t.spell = b :: front ∧
    (Byte.isAlphaNum b = true ∨ b = Byte.percent ∨ b = Byte.dot ∨ b = Byte.bracketOpen) := by
  cases t with
  | byte b =>
    obtain ⟨c, front, hc, hlead⟩ := Byte.exists_spell b
    exact ⟨c, front, hc, hlead.imp_right .inl⟩
  | any => exact ⟨Byte.dot, [], rfl, .inr (.inr (.inl rfl))⟩
  | ofClass t => exact ⟨Byte.percent, [t.letter], rfl, .inr (.inl rfl)⟩
  | set s => exact ⟨Byte.bracketOpen, s.spell, rfl, .inr (.inr (.inr rfl))⟩

theorem Item.exists_spell (item : Item) : ∃ b front, item.spell = b :: front ∧
    Quantifier.ofByte? b = none ∧ b ≠ Byte.caret ∧
      (b = Byte.parenClose → ∃ k, item = .closeCapture k) := by
  cases item with
  | single t q =>
    obtain ⟨b, front, hb, hlead⟩ := t.exists_spell
    refine ⟨b, front ++ q.suffix, by rw [spell, hb]; rfl, ?_⟩
    have halpha {c : UInt8} (hc : Byte.isAlphaNum c = false) (hn : c ≠ Byte.percent ∧ c ≠ Byte.dot ∧
        c ≠ Byte.bracketOpen) : b ≠ c := by
      rintro rfl
      rcases hlead with h | h | h | h
      · rw [hc] at h
        cases h
      · exact hn.1 h
      · exact hn.2.1 h
      · exact hn.2.2 h
    refine ⟨?_, halpha rfl (by decide), fun hclose => absurd hclose (halpha rfl (by decide))⟩
    rw [Quantifier.ofByte?, if_neg (halpha rfl (by decide)), if_neg (halpha rfl (by decide)),
      if_neg (halpha rfl (by decide)), if_neg (halpha rfl (by decide))]
  | openCapture k => exact ⟨_, _, rfl, rfl, by decide, fun h => by cases h⟩
  | closeCapture k => exact ⟨_, _, rfl, rfl, by decide, fun _ => ⟨k, rfl⟩⟩
  | positionCapture k => exact ⟨_, _, rfl, rfl, by decide, fun h => by cases h⟩
  | balanced x y => exact ⟨_, _, rfl, rfl, by decide, fun h => by cases h⟩
  | backReference k => exact ⟨_, _, rfl, rfl, by decide, fun h => by cases h⟩
  | frontier s => exact ⟨_, _, rfl, rfl, by decide, fun h => by cases h⟩
  | subjectEnd => exact ⟨_, _, rfl, rfl, by decide, fun h => by cases h⟩

theorem Item.unquantified_spell (items : List Item) : Unquantified (items.flatMap spell) := by
  rw [← head?_bind_ofByte?_eq_none_iff]
  cases items with
  | nil => rfl
  | cons item items =>
    obtain ⟨b, front, hb, hq, _⟩ := item.exists_spell
    rw [List.flatMap_cons, hb]
    exact hq

structure Item.Allows (item : Item) (rest : Bytes) : Prop where
  unquantified : Unquantified rest
  nonempty : (∃ k, item = .openCapture k) → rest.head? ≠ some Byte.parenClose
  last : item = .subjectEnd → rest = []
  digit : ∀ k, item = .backReference k → k < 9

theorem Item.spells_spell {item : Item} {rest : Bytes} (h : item.Allows rest) :
    item.element.Spells item.spell rest := by
  cases item with
  | single t q =>
    refine .single t.spells_spell (fun _ => h.unquantified) ?_
    obtain ⟨b, front, hb, hlead⟩ := t.exists_spell
    rw [hb]
    intro hdollar
    obtain rfl : b = Byte.dollar := Option.some.inj (congrArg List.head? hdollar)
    rcases hlead with hlead | hlead | hlead | hlead <;> cases hlead
  | openCapture k => exact .opening (h.nonempty ⟨k, rfl⟩)
  | closeCapture k => exact .closing
  | positionCapture k => exact .position
  | balanced x y => exact .balanced
  | backReference k =>
    obtain ⟨hdigit, hnumber⟩ := Byte.digit_spec k (h.digit k rfl)
    rw [element, ← hnumber]
    exact .backReference hdigit
  | frontier s => exact .frontier (Bracket.spells_spell s)
  | subjectEnd =>
    rw [h.last rfl]
    exact .subjectEnd

theorem Spelled.cons_spell {item : Item} {items : List Item} {rest : Bytes} (h : Spelled items rest)
    (hitem : item.Allows rest) : Spelled (item :: items) (item.spell ++ rest) := by
  have hspells := Item.spells_spell hitem
  obtain ⟨b, front, hb, hq, _⟩ := item.exists_spell
  rw [hb] at hspells ⊢
  exact .cons hq hspells h

namespace Pattern

theorem Reads.spelled {limit offset : Nat} {sc last : Scope} {source : Bytes} {items : List Item}
    (h : Reads limit offset sc source items last) : Spelled items (items.flatMap Item.spell) := by
  induction h with
  | done => exact .nil
  | @next _ _ _ _ _ _ rest e item items _ he ha hr ih =>
    obtain rfl := Scope.element_of_add ha
    rw [List.flatMap_cons]
    refine ih.cons_spell ⟨Item.unquantified_spell items, ?_, ?_, ?_⟩
    · rintro ⟨k, rfl⟩ hclose
      cases items with
      | nil => cases hclose
      | cons item items =>
        obtain ⟨b, front, hb, _, _, hparen⟩ := item.exists_spell
        rw [List.flatMap_cons, hb] at hclose
        obtain ⟨j, rfl⟩ := hparen (Option.some.inj hclose)
        -- the source had a closing parenthesis right behind the opening one, too
        cases he with
        | opening hne =>
          cases hr with
          | next _ he' ha' _ =>
            obtain rfl := Scope.element_of_add ha'
            cases he'
            exact hne rfl
    · rintro rfl
      cases he
      cases hr
      rfl
    · rintro k rfl
      exact he.digit_le

theorem isAnchored_spell (anchored : Bool) (items : List Item) :
    isAnchored (spell anchored items) = anchored ∧
      body (spell anchored items) = items.flatMap Item.spell := by
  cases anchored with
  | true => exact ⟨rfl, rfl⟩
  | false =>
    have hfree : isAnchored (spell false items) = false := by
      cases items with
      | nil => rfl
      | cons item items =>
        obtain ⟨b, front, hb, _, hcaret, _⟩ := item.exists_spell
        rw [spell, List.flatMap_cons, hb]
        simpa [isAnchored] using hcaret
    refine ⟨hfree, ?_⟩
    rw [body, hfree]
    rfl

/-- The canonical spelling of a compiled pattern compiles to that pattern. -/
theorem compile_spell {o : Options} {source : Bytes} {p : Pattern} (h : compile o source = .ok p) :
    compile o (spell p.anchored p.items) =
      .ok ⟨spell p.anchored p.items, p.items, p.captures, p.anchored⟩ := by
  obtain ⟨last, hreads, heq⟩ := compile_eq_ok h
  obtain ⟨cs, hrun, hkinds, hcs⟩ := run_of_compile h
  obtain ⟨hanchored, hbody⟩ := isAnchored_spell p.anchored p.items
  have hspelled : Spelled p.items (body (spell p.anchored p.items)) := hbody ▸ hreads.spelled
  have hcompile := compile_of_spelled hrun hcs hspelled
  rwa [← hkinds, hanchored] at hcompile

theorem compile_spell_anchored :
    ∃ p, compile {} (utf8 "^(-+[]^-])%1()%f[^%d%D]q?$") = .ok p ∧
      compile {} (spell p.anchored p.items) =
        .ok ⟨spell p.anchored p.items, p.items, p.captures, p.anchored⟩ := by
  have hcompiles : (compile {} (utf8 "^(-+[]^-])%1()%f[^%d%D]q?$")).toOption.isSome = true := by
    decide +kernel
  cases hp : compile {} (utf8 "^(-+[]^-])%1()%f[^%d%D]q?$") with
  | error e =>
    rw [hp] at hcompiles
    cases hcompiles
  | ok p => exact ⟨p, rfl, compile_spell hp⟩

end Pattern
end BytePattern
