import BytePattern.Proofs.Pattern.Canonical
import BytePattern.Proofs.Search.Inside

/-!
# Literal bytes

A text is searched for as it stands in two spellings: quoted, with an escape before whatever is no letter
or digit, and bare, if none of its bytes is special. Both compile, for every text and every option, to the
bytes of the text as items (`compile_quote`, `compile_of_plain`), and a search with these items is the
literal search (`Matcher.find_of_literal`).
-/
namespace BytePattern

def quote (text : Bytes) : Bytes := text.flatMap Byte.spell

theorem quote_eq (text : Bytes) :
    quote text = (text.map fun b => Item.single (.byte b) .one).flatMap Item.spell := by
  rw [quote, List.flatMap_map]
  simp [Item.spell, Token.spell, Quantifier.suffix]

theorem spelled_quote (text : Bytes) :
    Spelled (text.map fun b => .single (.byte b) .one) (quote text) := by
  rw [quote_eq]
  induction text with
  | nil => exact .nil
  | cons b text ih =>
    rw [List.map_cons, List.flatMap_cons]
    exact ih.cons_spell ⟨Item.unquantified_spell _, nofun, nofun, nofun⟩

namespace Ledger

theorem run_literal (l : Ledger) (text : Bytes) :
    Run l (text.map fun b => .single (.byte b) .one) l := by
  induction text with
  | nil => exact .nil
  | cons b text ih => exact .cons .single ih

end Ledger

namespace Pattern

theorem compile_quote (o : Options) (text : Bytes) : compile o (quote text) =
    .ok ⟨quote text, text.map fun b => .single (.byte b) .one, [], false⟩ := by
  obtain ⟨hanchored, hbody⟩ := isAnchored_spell false (text.map fun b => .single (.byte b) .one)
  have hquote : spell false (text.map fun b => .single (.byte b) .one) = quote text :=
    (quote_eq text).symm
  rw [hquote] at hanchored hbody
  have hspelled : Spelled (text.map fun b => .single (.byte b) .one) (body (quote text)) := by
    rw [hbody, ← quote_eq]
    exact spelled_quote text
  have hcompile := compile_of_spelled (Ledger.run_literal .start text) (Nat.zero_le o.ceiling) hspelled
  rwa [hanchored] at hcompile

end Pattern

namespace Matcher

theorem LeftmostFrom.unique {x : Matcher} {i : Nat} {result result' : Option Match}
    (h : x.LeftmostFrom i result) (h' : x.LeftmostFrom i result') : result = result' := by
  cases result with
  | none =>
    cases result' with
    | none => rfl
    | some found =>
      obtain ⟨j, hij, hj, hf, _⟩ := h'
      cases hf.symm.trans (h j hij hj)
  | some found =>
    obtain ⟨j, hij, hj, hf, hk⟩ := h
    cases result' with
    | none => cases hf.symm.trans (h' j hij hj)
    | some found' =>
      obtain ⟨j', hij', hj', hf', hk'⟩ := h'
      rcases Nat.lt_trichotomy j j' with hlt | rfl | hgt
      · cases hf.symm.trans (hk' j hij hlt)
      · cases hf.symm.trans hf'
        rfl
      · cases hf'.symm.trans (hk j' hij' hgt)

theorem find_of_literal {o : Options} {source : Bytes} {p : Pattern}
    (hp : Pattern.compile o source = .ok p) (hanchored : p.anchored = false) {text : Bytes}
    (hitems : p.items = text.map fun b => .single (.byte b) .one) (s : Subject) (init : Nat) :
    find ⟨p, s, none⟩ init =
      .ok ((s.findLiteral text init).map fun (start, stop) => ⟨start, stop, []⟩) := by
  obtain ⟨result, hr, hnaive⟩ := exists_naive hp s (m := .fresh) rfl init
  refine hr.trans (congrArg Except.ok ?_)
  unfold Naive at hnaive
  unfold Subject.findLiteral
  by_cases hinit : s.size < init
  · rw [if_pos hinit] at hnaive
    rw [if_pos hinit, hnaive, Option.map_none]
  · have hi : init ≤ s.size := Nat.le_of_not_lt hinit
    rw [if_neg hinit, if_neg (by simp [hanchored])] at hnaive
    rw [if_neg hinit, Option.map_map]
    exact hnaive.unique (leftmostFrom_of_literal hp hitems s hi)

end Matcher
end BytePattern
