import Mathlib.Data.List.Basic
import BytePattern.Proofs.Byte.Set
import BytePattern.Proofs.Pattern.Spelling

/-!
# What a bracketed set holds

Behind an opening bracket stand members, one after the other, up to the bracket that closes them. Members
of one, two and three bytes can begin alike: which of them it is depends on its place and on the two bytes
behind it (`Member.Fits`). Those bytes may lie behind the set, but they never make a difference there
(`Members.minus_inside`), so what is listed in view of the whole source is spelled by the text of the set
alone (`encloses_iff`). The set that is read then holds the bytes that its members admit (`read_eq_some_iff`).
-/
namespace BytePattern

namespace Bracket

inductive Member
  | escape (e : UInt8)
  | range (lo hi : UInt8)
  | byte (b : UInt8)

namespace Member

def text : Member → Bytes
  | .escape e => [Byte.percent, e]
  | .range lo hi => [lo, Byte.minus, hi]
  | .byte b => [b]

def Admits (c : UInt8) : Member → Prop
  | .escape e =>
    match ClassTest.ofLetter? e with
    | some t => t.contains c = true
    | none => c = e
  | .range lo hi => lo ≤ c ∧ c ≤ hi
  | .byte b => c = b

/-- The member stands where `rest` follows it. Only in `first` place does it begin with a closing
bracket, and a minus sign behind a byte makes a range unless the set closes right after it. -/
inductive Fits (first : Bool) (rest : Bytes) : Member → Prop
  | escape (e : UInt8) : Fits first rest (.escape e)
  | range {lo hi : UInt8} : (lo = Byte.bracketClose → first = true) → lo ≠ Byte.percent →
      hi ≠ Byte.bracketClose → Fits first rest (.range lo hi)
  | byte {b : UInt8} : (b = Byte.bracketClose → first = true) → b ≠ Byte.percent →
      (∀ hi tail, rest = Byte.minus :: hi :: tail → hi = Byte.bracketClose) →
      Fits first rest (.byte b)

def toSetMember : Member → SetMember
  | .escape e => escaped e
  | .range lo hi => .range lo hi
  | .byte b => .byte b

theorem contains_toSetMember (m : Member) (c : UInt8) :
    m.toSetMember.contains c = true ↔ m.Admits c := by
  cases m with
  | escape e =>
    simp only [toSetMember, escaped, Admits]
    cases ClassTest.ofLetter? e with
    | some t => rfl
    | none => exact beq_iff_eq
  | range lo hi => simp only [toSetMember, SetMember.contains, Admits, Bool.and_eq_true, decide_eq_true_eq]
  | byte b => exact beq_iff_eq

end Member

inductive Listed : Bool → Bytes → List Member → Bytes → Prop
  | close (rest : Bytes) : Listed false (Byte.bracketClose :: rest) [] rest
  | member {first : Bool} {m : Member} {after rest : Bytes} {ms : List Member} :
      m.Fits first after → Listed false after ms rest →
      Listed first (m.text ++ after) (m :: ms) rest

/-- The text behind an opening bracket is a set of these bytes, and `rest` is what it leaves. After a
caret the set holds the bytes that satisfy no member. -/
inductive Encloses : Bytes → ByteSet → Bytes → Prop
  | plain {text rest : Bytes} {ms : List Member} {set : ByteSet} :
      text.head? ≠ some Byte.caret → Listed true text ms rest →
      (∀ c, set.contains c = true ↔ ∃ m ∈ ms, m.Admits c) → Encloses text set rest
  | negated {text rest : Bytes} {ms : List Member} {set : ByteSet} :
      Listed true text ms rest → (∀ c, set.contains c = true ↔ ∀ m ∈ ms, ¬ m.Admits c) →
      Encloses (Byte.caret :: text) set rest

theorem Members.minus_inside {first : Bool} {text rest tail : Bytes} {ds : List SetMember} {hi : UInt8}
    (h : Members first text ds) (ht : text ++ rest = Byte.minus :: hi :: tail) :
    ∃ inside, text = Byte.minus :: hi :: inside := by
  -- a closing bracket is no minus sign, so two bytes from a minus sign on stand inside the set
  match text, h, ht with
  | [], h, _ => exact absurd rfl h.ne_nil
  | [b], h, ht =>
    obtain rfl : b = Byte.minus := List.head_eq_of_cons_eq ht
    exact absurd h.eq_close (by decide)
  | b :: c :: inside, _, ht =>
    obtain ⟨hb, ht⟩ := List.cons.inj ht
    rw [hb, List.head_eq_of_cons_eq ht]
    exact ⟨inside, rfl⟩

theorem Members.listed {first : Bool} {text : Bytes} {ds : List SetMember}
    (h : Members first text ds) (rest : Bytes) :
    ∃ ms, Listed first (text ++ rest) ms rest ∧ ds = ms.map Member.toSetMember := by
  induction h with
  | close => exact ⟨[], .close rest, rfl⟩
  | @escape _ e _ _ _ ih =>
    obtain ⟨ms, hms, rfl⟩ := ih
    exact ⟨.escape e :: ms, .member (.escape e) hms, rfl⟩
  | @range first lo hi _ _ hclose hlo hhi _ ih =>
    obtain ⟨ms, hms, rfl⟩ := ih
    have hfirst : lo = Byte.bracketClose → first = true := by simpa using hclose
    exact ⟨.range lo hi :: ms, .member (.range hfirst hlo hhi) hms, rfl⟩
  | @byte first b text _ hclose hb hrange hmembers ih =>
    obtain ⟨ms, hms, rfl⟩ := ih
    have hfirst : b = Byte.bracketClose → first = true := by simpa using hclose
    have hahead : ∀ hi tail, text ++ rest = Byte.minus :: hi :: tail → hi = Byte.bracketClose := by
      intro hi tail ht
      obtain ⟨inside, hinside⟩ := hmembers.minus_inside ht
      exact hrange hi inside hinside
    exact ⟨.byte b :: ms, .member (.byte hfirst hb hahead) hms, rfl⟩

theorem Listed.members {first : Bool} {text rest : Bytes} {ms : List Member}
    (h : Listed first text ms rest) :
    ∃ front, text = front ++ rest ∧ Members first front (ms.map Member.toSetMember) := by
  induction h with
  | close rest => exact ⟨[Byte.bracketClose], rfl, .close⟩
  | member hfits _ ih =>
    obtain ⟨front, rfl, hfront⟩ := ih
    cases hfits with
    | escape e => exact ⟨Byte.percent :: e :: front, rfl, .escape hfront⟩
    | @range lo hi hfirst hlo hhi =>
      exact ⟨lo :: Byte.minus :: hi :: front, rfl, .range (by simpa using hfirst) hlo hhi hfront⟩
    | @byte b hfirst hb hahead =>
      refine ⟨b :: front, rfl, .byte (by simpa using hfirst) hb ?_ hfront⟩
      intro hi tail ht
      exact hahead hi (tail ++ _) (by rw [ht]; rfl)

theorem contains_ofMembers_iff (ms : List Member) (c : UInt8) :
    (ByteSet.ofMembers (ms.map Member.toSetMember) false).contains c = true ↔
      ∃ m ∈ ms, m.Admits c := by
  simp only [ByteSet.contains_ofMembers, Bool.bne_false, List.any_map, List.any_eq_true,
    Function.comp_apply, Member.contains_toSetMember]

theorem contains_ofMembers_negated_iff (ms : List Member) (c : UInt8) :
    (ByteSet.ofMembers (ms.map Member.toSetMember) true).contains c = true ↔
      ∀ m ∈ ms, ¬ m.Admits c := by
  simp only [ByteSet.contains_ofMembers, Bool.bne_true, List.any_map, Bool.not_eq_true',
    List.any_eq_false, Function.comp_apply, Member.contains_toSetMember]

theorem encloses_iff {text rest : Bytes} {set : ByteSet} :
    Encloses text set rest ↔ ∃ front, text = front ++ rest ∧ Spells front set := by
  constructor
  · intro h
    cases h with
    | @plain _ _ ms _ hcaret hms hset =>
      obtain ⟨front, rfl, hmembers⟩ := hms.members
      obtain rfl : set = ByteSet.ofMembers (ms.map Member.toSetMember) false :=
        ByteSet.ext_contains fun c =>
          Bool.eq_iff_iff.2 ((hset c).trans (contains_ofMembers_iff ms c).symm)
      rw [List.head?_append_of_ne_nil _ hmembers.ne_nil] at hcaret
      exact ⟨front, rfl, .plain hcaret hmembers⟩
    | @negated _ _ ms _ hms hset =>
      obtain ⟨front, rfl, hmembers⟩ := hms.members
      obtain rfl : set = ByteSet.ofMembers (ms.map Member.toSetMember) true :=
        ByteSet.ext_contains fun c =>
          Bool.eq_iff_iff.2 ((hset c).trans (contains_ofMembers_negated_iff ms c).symm)
      exact ⟨Byte.caret :: front, rfl, .negated hmembers⟩
  · rintro ⟨front, rfl, h⟩
    cases h with
    | plain hcaret hmembers =>
      obtain ⟨ms, hms, rfl⟩ := hmembers.listed rest
      rw [← List.head?_append_of_ne_nil _ hmembers.ne_nil] at hcaret
      exact .plain hcaret hms (contains_ofMembers_iff ms)
    | negated hmembers =>
      obtain ⟨ms, hms, rfl⟩ := hmembers.listed rest
      exact .negated hms (contains_ofMembers_negated_iff ms)

theorem read_eq_some_iff {text : Bytes} {set : ByteSet} {n : Nat} :
    read text = some (set, n) ↔ ∃ rest, Encloses text set rest ∧ text.length = n + rest.length := by
  constructor
  · intro h
    obtain ⟨front, rest, rfl, rfl, hspells⟩ := spells_of_read h
    exact ⟨rest, encloses_iff.2 ⟨front, rfl, hspells⟩, List.length_append⟩
  · rintro ⟨rest, h, hlength⟩
    obtain ⟨front, rfl, hspells⟩ := encloses_iff.1 h
    rw [List.length_append, Nat.add_right_cancel_iff] at hlength
    rw [hspells.read_append, hlength]

theorem unclosed_iff {text : Bytes} : Unclosed text ↔ ∀ set rest, ¬ Encloses text set rest := by
  simp only [Unclosed, encloses_iff, not_exists, not_and]
  exact ⟨fun h set rest front => h front rest set, fun h front rest set => h set rest front⟩

end Bracket

theorem Token.read_bracketOpen (offset : Nat) (text : Bytes) :
    Token.read offset Byte.bracketOpen text =
      match Bracket.read text with
      | some (bytes, n) => .ok (.set bytes, n)
      | none => .error ⟨.missingBracket, offset⟩ := rfl

theorem Element.readFrontier_bracketOpen (offset : Nat) (text : Bytes) :
    Element.readFrontier offset (Byte.bracketOpen :: text) =
      match Bracket.read text with
      | some (bytes, n) => .ok (.frontier bytes, n + 2)
      | none => .error ⟨.missingBracket, offset + 2⟩ := rfl

/-- Behind an opening bracket at `offset` a set is read, up to and with the bracket that closes it, and it
holds the bytes that its members admit. Where no set is enclosed the opening bracket is reported. -/
theorem Token.read_set (offset : Nat) (text : Bytes) :
    (∀ t n, Token.read offset Byte.bracketOpen text = .ok (t, n) ↔ ∃ bytes rest,
      t = .set bytes ∧ Bracket.Encloses text bytes rest ∧ text.length = n + rest.length) ∧
    (∀ f, Token.read offset Byte.bracketOpen text = .error f ↔
      f = ⟨.missingBracket, offset⟩ ∧ ∀ bytes rest, ¬ Bracket.Encloses text bytes rest) ∧
    (∀ e k, Element.readFrontier offset (Byte.bracketOpen :: text) = .ok (e, k) ↔ ∃ bytes n,
      e = .frontier bytes ∧ k = n + 2 ∧
        Token.read (offset + 2) Byte.bracketOpen text = .ok (.set bytes, n)) ∧
    (∀ f, Element.readFrontier offset (Byte.bracketOpen :: text) = .error f ↔
      Token.read (offset + 2) Byte.bracketOpen text = .error f) ∧
    Malformation.missingBracket.message = "missing ']'" := by
  rw [Element.readFrontier_bracketOpen, Token.read_bracketOpen, Token.read_bracketOpen]
  cases hread : Bracket.read text with
  | none =>
    have hno : ∀ bytes rest, ¬ Bracket.Encloses text bytes rest :=
      Bracket.unclosed_iff.1 (Bracket.read_eq_none_iff.1 hread)
    refine ⟨fun t n => iff_of_false (by simp) ?_, fun f => ?_, by simp, by simp, rfl⟩
    · rintro ⟨bytes, rest, _, h, _⟩
      exact hno bytes rest h
    · rw [and_iff_left hno, Except.error.injEq, eq_comm]
  | some r =>
    obtain ⟨bytes, n⟩ := r
    obtain ⟨rest, hset, hlength⟩ := Bracket.read_eq_some_iff.1 hread
    refine ⟨fun t k => ⟨?_, ?_⟩, fun f => iff_of_false (by simp) ?_, fun e k => ?_, by simp, rfl⟩
    · intro h
      cases h
      exact ⟨bytes, rest, rfl, hset, hlength⟩
    · rintro ⟨bytes', rest', rfl, hset', hlength'⟩
      cases hread.symm.trans (Bracket.read_eq_some_iff.2 ⟨rest', hset', hlength'⟩)
      rfl
    · intro h
      exact h.2 bytes rest hset
    · simp [eq_comm, and_comm]

end BytePattern
