import BytePattern.Pattern.Compile
import BytePattern.Proofs.Pattern.Spelling

/-!
# The capture ledger of a pattern

The items of a compiled pattern, read from the left, open and close captures like parentheses. A ledger
says how far that has gone, and `Ledger.Run` what the items do to it. Compiling writes nothing but runs
of the ledger (`run_of_compile`), so a fact about captures is an induction on a run.
-/
namespace BytePattern

theorem getElem?_concat {cs : List CaptureState} {c : CaptureState} (k : Nat) :
    (cs ++ [c])[k]? = (if cs.length = k then some c else none).or cs[k]? := by
  rcases Nat.lt_trichotomy k cs.length with hlt | rfl | hgt
  · rw [List.getElem?_append_left hlt, if_neg (by omega), Option.none_or]
  · rw [List.getElem?_concat_length, if_pos rfl, Option.some_or]
  · rw [List.getElem?_eq_none (by simp; omega), List.getElem?_eq_none (by omega),
      if_neg (by omega), Option.none_or]

structure Ledger where
  captures : List CaptureState
  opened : List Nat

def Scope.ledger (sc : Scope) : Ledger := ⟨sc.captures, sc.opened.map (·.1)⟩

namespace Ledger

def start : Ledger := ⟨[], []⟩

/-- What an item does to the ledger, where it may stand. -/
inductive Step : Ledger → Item → Ledger → Prop
  | single {l : Ledger} {t : Token} {q : Quantifier} : Step l (.single t q) l
  | openCapture {cs : List CaptureState} {st : List Nat} :
      Step ⟨cs, st⟩ (.openCapture cs.length) ⟨cs ++ [.opened], cs.length :: st⟩
  | closeCapture {cs : List CaptureState} {st : List Nat} {i : Nat} :
      cs[i]? = some .opened → Step ⟨cs, i :: st⟩ (.closeCapture i) ⟨cs.set i .closed, st⟩
  | positionCapture {cs : List CaptureState} {st : List Nat} :
      Step ⟨cs, st⟩ (.positionCapture cs.length) ⟨cs ++ [.position], st⟩
  | balanced {l : Ledger} {x y : UInt8} : Step l (.balanced x y) l
  | backReference {l : Ledger} {i : Nat} :
      i < 9 → l.captures[i]? = some .closed → Step l (.backReference i) l
  | frontier {l : Ledger} {set : ByteSet} : Step l (.frontier set) l
  | subjectEnd {l : Ledger} : Step l .subjectEnd l

inductive Run : Ledger → List Item → Ledger → Prop
  | nil {l : Ledger} : Run l [] l
  | cons {l m n : Ledger} {item : Item} {items : List Item} :
      Step l item m → Run m items n → Run l (item :: items) n

structure Sound (l : Ledger) : Prop where
  nodup : l.opened.Nodup
  opened_iff : ∀ i, l.captures[i]? = some .opened ↔ i ∈ l.opened

theorem start_sound : start.Sound := ⟨List.nodup_nil, fun i => by simp [start]⟩

theorem Step.sound {l m : Ledger} {item : Item} (h : Step l item m) (hl : l.Sound) : m.Sound := by
  cases h with
  | single => exact hl
  | @openCapture cs st =>
    have hnew : cs.length ∉ st := fun hm => by
      have := (hl.opened_iff cs.length).2 hm
      simp at this
    refine ⟨List.nodup_cons.2 ⟨hnew, hl.nodup⟩, fun i => ?_⟩
    have hi := hl.opened_iff i
    rcases Nat.lt_trichotomy i cs.length with hlt | rfl | hgt
    · rw [List.getElem?_append_left hlt, hi, List.mem_cons]
      exact (or_iff_right (Nat.ne_of_lt hlt)).symm
    · simp
    · rw [List.getElem?_eq_none (by simp; omega)] at hi ⊢
      · simp only [reduceCtorEq, false_iff] at hi ⊢
        simp only [List.mem_cons, hi, or_false]
        omega
  | @closeCapture cs st i hc =>
    obtain ⟨hi, hst⟩ := List.nodup_cons.1 hl.nodup
    refine ⟨hst, fun j => ?_⟩
    have hj := hl.opened_iff j
    rw [List.getElem?_set]
    by_cases he : i = j
    · subst he
      simp only [if_true, hi, iff_false]
      split <;> simp
    · simp only [if_neg he]
      rw [hj, List.mem_cons, or_iff_right (Ne.symm he)]
  | @positionCapture cs st =>
    refine ⟨hl.nodup, fun i => ?_⟩
    have hi := hl.opened_iff i
    rcases Nat.lt_trichotomy i cs.length with hlt | rfl | hgt
    · simp only [List.getElem?_append_left hlt, hi]
    · simp only [List.getElem?_concat_length]
      simpa using hi
    · rw [List.getElem?_eq_none (by simp; omega)] at hi ⊢
      · exact hi
  | balanced => exact hl
  | backReference => exact hl
  | frontier => exact hl
  | subjectEnd => exact hl

theorem Run.sound {l n : Ledger} {items : List Item} (h : Run l items n) (hl : l.Sound) :
    n.Sound := by
  induction h with
  | nil => exact hl
  | cons hs _ ih => exact ih (hs.sound hl)

theorem Step.length_le {l m : Ledger} {item : Item} (h : Step l item m) :
    l.captures.length ≤ m.captures.length := by
  cases h <;> simp

theorem Run.length_le {l n : Ledger} {items : List Item} (h : Run l items n) :
    l.captures.length ≤ n.captures.length := by
  induction h with
  | nil => exact Nat.le_refl _
  | cons hs _ ih => exact Nat.le_trans hs.length_le ih

end Ledger

theorem Scope.start_ledger (anchored : Bool) : (Scope.start anchored).ledger = .start := rfl

def Item.element : Item → Element
  | .single t q => .single t q
  | .openCapture _ => .opening
  | .closeCapture _ => .closing
  | .positionCapture _ => .position
  | .balanced x y => .balanced x y
  | .backReference k => .backReference (k + 1)
  | .frontier set => .frontier set
  | .subjectEnd => .subjectEnd

theorem Scope.element_of_add {sc mid : Scope} {limit offset : Nat} {e : Element} {item : Item}
    (h : sc.add limit offset e = .ok (item, mid)) : item.element = e := by
  cases e with
  | position =>
    obtain ⟨_, _, h⟩ := bind_eq_ok.1 h
    cases h
    rfl
  | opening =>
    obtain ⟨_, _, h⟩ := bind_eq_ok.1 h
    cases h
    rfl
  | closing =>
    simp only [Scope.add] at h
    split at h
    · cases h
    · cases h
      rfl
  | backReference d =>
    simp only [Scope.add] at h
    split at h
    · rename_i hd
      cases h
      rw [Item.element, Nat.sub_add_cancel hd.1]
    · cases h
  | _ =>
    cases h
    rfl

theorem Scope.step_of_add {sc mid : Scope} {limit offset : Nat} {e : Element} {item : Item}
    (h : sc.add limit offset e = .ok (item, mid)) (hs : sc.ledger.Sound)
    (hd : ∀ d, .backReference d = e → d ≤ 9) : Ledger.Step sc.ledger item mid.ledger := by
  cases e with
  | position =>
    simp only [Scope.add, Scope.capture] at h
    split at h
    · cases h
      exact .positionCapture
    · cases h
  | opening =>
    simp only [Scope.add, Scope.capture] at h
    split at h
    · cases h
      exact .openCapture
    · cases h
  | closing =>
    simp only [Scope.add] at h
    split at h
    · cases h
    · rename_i i off outer ho
      cases h
      simp only [Scope.ledger, ho, List.map_cons] at hs ⊢
      exact .closeCapture ((hs.opened_iff i).2 List.mem_cons_self)
  | subjectEnd => cases h; exact .subjectEnd
  | balanced x y => cases h; exact .balanced
  | frontier set => cases h; exact .frontier
  | backReference d =>
    simp only [Scope.add] at h
    split at h
    · rename_i hc
      cases h
      have := hd d rfl
      exact .backReference (by omega) hc.2
    · cases h
  | single t q => cases h; exact .single

namespace Pattern

inductive Reads (limit : Nat) : Nat → Scope → Bytes → List Item → Scope → Prop
  | done {offset : Nat} {sc : Scope} : sc.opened = [] → Reads limit offset sc [] [] sc
  | next {offset : Nat} {sc mid last : Scope} {b : UInt8} {front rest : Bytes} {e : Element}
      {item : Item} {items : List Item} :
      sc.checkLead offset b = .ok () → e.Spells (b :: front) rest →
      sc.add limit offset e = .ok (item, mid) →
      Reads limit (offset + 1 + front.length) mid rest items last →
      Reads limit offset sc (b :: (front ++ rest)) (item :: items) last

theorem finish_eq_ok {sc last : Scope} : sc.finish = .ok last ↔ sc.opened = [] ∧ sc = last := by
  unfold Scope.finish
  split <;> simp_all

theorem reads_of_compileFrom {limit offset : Nat} {sc last : Scope} {source : Bytes}
    {items : List Item} (h : compileFrom limit offset sc source = .ok (items, last)) :
    Reads limit offset sc source items last := by
  fun_induction compileFrom limit offset sc source generalizing items with
  | case1 offset sc =>
    obtain ⟨_, hf, hp⟩ := bind_eq_ok.1 h
    obtain ⟨ho, rfl⟩ := finish_eq_ok.1 hf
    cases hp
    exact .done ho
  | case2 offset sc b rest ih =>
    obtain ⟨_, hl, h⟩ := bind_eq_ok.1 h
    obtain ⟨⟨e, taken⟩, he, h⟩ := bind_eq_ok.1 h
    obtain ⟨⟨item, mid⟩, ha, h⟩ := bind_eq_ok.1 h
    obtain ⟨⟨tail, _⟩, hc, hp⟩ := bind_eq_ok.1 h
    obtain ⟨front, rest, rfl, rfl, hs⟩ := Element.spells_of_read he
    cases hp
    have hr := ih front.length mid hc
    rw [List.drop_left] at hr
    exact .next hl hs ha hr

theorem compileFrom_of_reads {limit offset : Nat} {sc last : Scope} {source : Bytes}
    {items : List Item} (h : Reads limit offset sc source items last) :
    compileFrom limit offset sc source = .ok (items, last) := by
  induction h with
  | done ho =>
    rw [compileFrom, finish_eq_ok.2 ⟨ho, rfl⟩]
    rfl
  | next hlead hspells hadd _ ih =>
    rw [compileFrom, hlead, hspells.read_append]
    simp only [ok_bind, hadd, List.drop_left, ih]
    rfl

theorem Reads.run {limit offset : Nat} {sc last : Scope} {source : Bytes} {items : List Item}
    (h : Reads limit offset sc source items last) (hs : sc.ledger.Sound) :
    Ledger.Run sc.ledger items last.ledger := by
  induction h with
  | done => exact .nil
  | @next _ _ _ _ _ _ _ e _ _ _ he ha _ ih =>
    have hd : ∀ d, .backReference d = e → d ≤ 9 := by
      intro d hd
      subst hd
      exact he.digit_le
    have hstep := Scope.step_of_add ha hs hd
    exact .cons hstep (ih (hstep.sound hs))

theorem Reads.opened_eq_nil {limit offset : Nat} {sc last : Scope} {source : Bytes}
    {items : List Item} (h : Reads limit offset sc source items last) : last.opened = [] := by
  induction h with
  | done ho => exact ho
  | next _ _ _ _ ih => exact ih

theorem Scope.length_le_of_add {sc mid : Scope} {limit offset : Nat} {e : Element} {item : Item}
    (h : sc.add limit offset e = .ok (item, mid)) (hl : sc.captures.length ≤ limit) :
    mid.captures.length ≤ limit := by
  cases e with
  | position =>
    simp only [Scope.add, Scope.capture] at h
    split at h
    · cases h
      simpa using ‹_›
    · cases h
  | opening =>
    simp only [Scope.add, Scope.capture] at h
    split at h
    · cases h
      simpa using ‹_›
    · cases h
  | closing =>
    simp only [Scope.add] at h
    split at h
    · cases h
    · cases h
      simpa using hl
  | backReference d =>
    simp only [Scope.add] at h
    split at h
    · cases h
      exact hl
    · cases h
  | _ => cases h; exact hl

theorem Reads.length_le {limit offset : Nat} {sc last : Scope} {source : Bytes}
    {items : List Item} (h : Reads limit offset sc source items last)
    (hl : sc.captures.length ≤ limit) : last.captures.length ≤ limit := by
  induction h with
  | done => exact hl
  | next _ _ ha _ ih => exact ih (Scope.length_le_of_add ha hl)

def body (source : Bytes) : Bytes := source.drop (if isAnchored source then 1 else 0)

theorem compile_eq (o : Options) (source : Bytes) :
    compile o source =
      match compileFrom o.ceiling (if isAnchored source then 1 else 0)
        (Scope.start (isAnchored source)) (body source) with
      | .ok (items, last) =>
        .ok ⟨source, items, last.captures.map (·.kind), isAnchored source⟩
      | .error f => .error (.malformed f) := by
  simp only [compile, compileWithin, body]
  cases compileFrom o.ceiling (if isAnchored source then 1 else 0) (Scope.start (isAnchored source))
    (source.drop (if isAnchored source then 1 else 0)) <;> rfl

theorem compile_eq_ok {o : Options} {source : Bytes} {p : Pattern}
    (h : compile o source = .ok p) :
    ∃ last, Reads o.ceiling (if isAnchored source then 1 else 0) (Scope.start (isAnchored source))
        (body source) p.items last ∧
      p = ⟨source, p.items, last.captures.map (·.kind), isAnchored source⟩ := by
  rw [compile_eq] at h
  split at h
  · rename_i items last hr
    cases h
    exact ⟨last, reads_of_compileFrom hr, rfl⟩
  · cases h

theorem compile_of_reads {o : Options} {source : Bytes} {items : List Item} {last : Scope}
    (h : Reads o.ceiling (if isAnchored source then 1 else 0) (Scope.start (isAnchored source))
      (body source) items last) :
    compile o source = .ok ⟨source, items, last.captures.map (·.kind), isAnchored source⟩ := by
  rw [compile_eq, compileFrom_of_reads h]

theorem malformed_of_compile {o : Options} {source : Bytes} {e : Error}
    (h : compile o source = .error e) : ∃ f, e = .malformed f := by
  rw [compile_eq] at h
  split at h
  · cases h
  · cases h
    exact ⟨_, rfl⟩

/-- What compiling guarantees of the captures: the items run the empty ledger to one in which no capture
is open, and no more than the ceiling were made. -/
theorem run_of_compile {o : Options} {source : Bytes} {p : Pattern}
    (h : compile o source = .ok p) :
    ∃ cs, Ledger.Run .start p.items ⟨cs, []⟩ ∧ p.captures = cs.map (·.kind) ∧
      cs.length ≤ o.ceiling := by
  obtain ⟨last, hr, hp⟩ := compile_eq_ok h
  refine ⟨last.captures, ?_, by rw [hp], hr.length_le (Nat.zero_le _)⟩
  have hrun := hr.run Ledger.start_sound
  rwa [Scope.start_ledger, Scope.ledger, hr.opened_eq_nil] at hrun

end Pattern
end BytePattern
