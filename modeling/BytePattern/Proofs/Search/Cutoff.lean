import BytePattern.Proofs.Search.AllMatches
import BytePattern.Proofs.Search.Stale

/-!
# All matches under a step limit

Each search of a sequence of matches has the limit for itself. So the sequence goes on as without the
limit as long as every search costs no more than it allows, and the first search that costs more ends it
with the error (`toList_cutOff`, by induction on the sweep).
-/
namespace BytePattern

def cutOff (limit : Nat) (costs : List Nat) (ms : List Match) : List (Except Error Match) :=
  match costs.findIdx? (limit < ·) with
  | none => ms.map .ok
  | some k => (ms.take k).map .ok ++ [.error (.budgetExceeded limit)]

section CutOff

variable {limit c : Nat} {costs : List Nat} {m : Match} {ms : List Match}

theorem cutOff_nil : cutOff limit [] ms = ms.map .ok := rfl

theorem cutOff_of_lt (h : limit < c) : cutOff limit (c :: costs) ms =
    [.error (.budgetExceeded limit)] := by
  rw [cutOff, List.findIdx?_cons, if_pos (decide_eq_true h)]
  rfl

theorem cutOff_of_le_nil (h : c ≤ limit) : cutOff limit [c] [] = [] := by
  rw [cutOff, List.findIdx?_cons, if_neg (by simpa using h)]
  rfl

theorem cutOff_cons (h : c ≤ limit) :
    cutOff limit (c :: costs) (m :: ms) = .ok m :: cutOff limit costs ms := by
  rw [cutOff, cutOff, List.findIdx?_cons, if_neg (by simpa using h)]
  cases costs.findIdx? (limit < ·) with
  | none => rfl
  | some k => rfl

end CutOff

namespace Matcher

def cost (p : Pattern) (s : Subject) (init : Nat) : Nat := (findAt ⟨p, s, none⟩ .fresh init).2.steps

theorem steps_findAt {o : Options} {source : Bytes} {p : Pattern}
    (hp : Pattern.compile o source = .ok p) {s : Subject} {m : Memory}
    (hm : m.slots.length = captureLimit) {init : Nat} (hinit : init ≤ s.size) :
    (findAt ⟨p, s, none⟩ m init).2.steps = cost p s init :=
  (findAt_sameAnswer hp s none (m := .fresh) hm.symm hinit).steps_eq

theorem find_cut (p : Pattern) (s : Subject) (limit init : Nat) :
    Cut limit (findAt ⟨p, s, none⟩ .fresh init) (findAt ⟨p, s, some limit⟩ .fresh init) :=
  findAt_cut ⟨p, s, none⟩ .fresh fun _ => Nat.zero_le limit

theorem find_of_cost_le {p : Pattern} {s : Subject} {limit init : Nat} (h : cost p s init ≤ limit) :
    find ⟨p, s, some limit⟩ init = find ⟨p, s, none⟩ init :=
  congrArg Prod.fst ((find_cut p s limit init).within h)

theorem find_of_lt_cost {p : Pattern} {s : Subject} {limit init : Nat} (h : limit < cost p s init) :
    find ⟨p, s, some limit⟩ init = .error (.budgetExceeded limit) :=
  ((find_cut p s limit init).beyond h).1

end Matcher

namespace Matches

/-- What the searches cost that find these matches: one at the first offset, and one after each match
unless the pattern is anchored. -/
def costs (p : Pattern) (s : Subject) (init : Nat) (ms : List Match) : List Nat :=
  (init :: if p.anchored then [] else ms.map Match.resumeAt).map (Matcher.cost p s)

section Costs

variable {p : Pattern} {s : Subject} {init : Nat} {m : Match} {ms : List Match}

theorem costs_nil : costs p s init [] = [Matcher.cost p s init] := by
  unfold costs
  split <;> rfl

theorem costs_of_anchored (h : p.anchored = true) : costs p s init ms = [Matcher.cost p s init] := by
  rw [costs, if_pos h]
  rfl

theorem costs_cons (h : p.anchored = false) :
    costs p s init (m :: ms) = Matcher.cost p s init :: costs p s m.resumeAt ms := by
  simp only [costs, h, Bool.false_eq_true, if_false, List.map_cons]

theorem length_costs_le (p : Pattern) (s : Subject) (init : Nat) (ms : List Match) :
    (costs p s init ms).length ≤ ms.length + 1 := by
  unfold costs
  split <;> simp

end Costs

theorem toList_cutOff {p : Pattern} {s : Subject} {o : Options} {limit init : Nat} {ms : List Match}
    (ho : o.stepLimit = some limit) (h : Matcher.Swept ⟨p, s, none⟩ init ms) :
    (ofPattern p s o init).toList = cutOff limit (costs p s init ms) ms := by
  have hx : Matcher.ofPattern p s o = ⟨p, s, some limit⟩ := by rw [Matcher.ofPattern, ho]
  have hbeyond {i : Nat} (hlt : limit < Matcher.cost p s i) : (ofPattern p s o i).toList =
      [.error (.budgetExceeded limit)] :=
    toList_of_find_error (by rw [hx, Matcher.find_of_lt_cost hlt])
  have hwithin {i : Nat} (hle : Matcher.cost p s i ≤ limit) :
      (Matcher.ofPattern p s o).find i = Matcher.find ⟨p, s, none⟩ i := by
    rw [hx, Matcher.find_of_cost_le hle]
  induction h with
  | @stop i hf =>
    rw [costs_nil]
    rcases Nat.lt_or_ge limit (Matcher.cost p s i) with hlt | hle
    · rw [hbeyond hlt, cutOff_of_lt hlt]
    · rw [toList_of_find_none ((hwithin hle).trans hf), cutOff_of_le_nil hle]
  | @last i m ha hf =>
    rw [costs_of_anchored ha]
    rcases Nat.lt_or_ge limit (Matcher.cost p s i) with hlt | hle
    · rw [hbeyond hlt, cutOff_of_lt hlt]
    · rw [toList_of_find_some ((hwithin hle).trans hf), if_pos ha, cutOff_cons hle]
      rfl
  | @next i m ms ha hf _ ih =>
    replace ha : p.anchored = false := ha
    rw [costs_cons ha]
    rcases Nat.lt_or_ge limit (Matcher.cost p s i) with hlt | hle
    · rw [hbeyond hlt, cutOff_of_lt hlt]
    · rw [toList_of_find_some ((hwithin hle).trans hf), cutOff_cons hle, ← ih, ha,
        if_neg Bool.false_ne_true]

/-- The matches of a sequence and the error after them, if there is one: it is that of the next search,
which takes more steps than it may. -/
structure Ends (it : Matches) (ms : List Match) (failure : Option Error) : Prop where
  toList_eq : it.toList = ms.map .ok ++ failure.toList.map .error
  exceeded : ∀ e ∈ failure, ∃ limit, it.options.stepLimit = some limit ∧ e = .budgetExceeded limit ∧
    limit < Matcher.cost it.pattern it.subject (it.after ms.length).offset

section Ends

variable {o : Options} {source : Bytes} {it : Matches}

theorem Ends.inside (hp : Pattern.compile o source = .ok it.pattern) {ms : List Match}
    {failure : Option Error} (h : it.Ends ms failure) : ∀ m ∈ ms, m.Inside it.subject := fun m hm =>
  inside_of_mem_toList hp (by simp [h.toList_eq, hm])

end Ends

end Matches
end BytePattern
