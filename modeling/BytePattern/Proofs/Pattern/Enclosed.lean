import BytePattern.Proofs.Pattern.WellFormed

/-!
# A pattern in parentheses

A source between parentheses is read as the source alone is, element by element: the opening parenthesis
bars nothing from coming next, and the closing one quantifies nothing (`Element.Spells.before_close`).
Only a dollar sign loses its place at the end and a back-reference its capture, as the captures inside
count one further. Without these two, the items are those of the source between the items of the new
capture (`Pattern.compile_enclosed`).
-/
namespace BytePattern

def Item.shift : Item → Item
  | .openCapture k => .openCapture (k + 1)
  | .closeCapture k => .closeCapture (k + 1)
  | .positionCapture k => .positionCapture (k + 1)
  | .backReference k => .backReference (k + 1)
  | item => item

def enclosed (items : List Item) : List Item :=
  .openCapture 0 :: (items.map Item.shift ++ [.closeCapture 0])

def Scope.inside (sc : Scope) : Scope :=
  ⟨.opened :: sc.captures, sc.opened.map (fun (k, offset) => (k + 1, offset + 1)) ++ [(0, 0)],
    sc.barrier⟩

theorem Scope.checkLead_inside {sc : Scope} {offset : Nat} {b : UInt8}
    (h : sc.checkLead offset b = .ok ()) : sc.inside.checkLead (offset + 1) b = .ok () := by
  obtain ⟨captures, opened, _ | barrier⟩ := sc
  · rfl
  · simp only [checkLead, inside] at h ⊢
    split at h
    · cases h
    · rename_i hb
      rw [if_neg hb]

theorem Scope.opened_ne_nil_of_add {sc mid : Scope} {limit offset : Nat} {item : Item}
    (h : sc.add limit offset .opening = .ok (item, mid)) : mid.opened ≠ [] := by
  obtain ⟨next, _, h⟩ := bind_eq_ok.1 h
  cases h
  exact List.cons_ne_nil _ _

theorem Scope.add_inside {sc mid : Scope} {limit offset : Nat} {e : Element} {item : Item}
    (h : sc.add limit offset e = .ok (item, mid)) (hlimit : mid.captures.length < limit)
    (hback : ∀ k, item ≠ .backReference k) :
    sc.inside.add limit (offset + 1) e = .ok (item.shift, mid.inside) := by
  cases e with
  | position =>
    simp only [add, capture] at h ⊢
    split at h
    · cases h
      rw [if_pos (by simpa [inside] using hlimit)]
      rfl
    · cases h
  | opening =>
    simp only [add, capture] at h ⊢
    split at h
    · cases h
      rw [if_pos (by simpa [inside] using hlimit)]
      rfl
    · cases h
  | closing =>
    obtain ⟨captures, opened, barrier⟩ := sc
    cases opened with
    | nil => cases h
    | cons top outer =>
      cases h
      rfl
  | backReference d =>
    simp only [add] at h
    split at h
    · cases h
      exact absurd rfl (hback _)
    · cases h
  | subjectEnd => cases h; rfl
  | balanced x y => cases h; rfl
  | frontier set => cases h; rfl
  | single t q => cases h; rfl

theorem Element.Spells.before_close {e : Element} {text rest : Bytes} (h : e.Spells text rest)
    (hopening : e = .opening → rest ≠ []) (hend : e ≠ .subjectEnd) :
    e.Spells text (rest ++ [Byte.parenClose]) := by
  -- a closing parenthesis behind the rest is read for itself. An opening one right before it would
  -- make a position capture of the two, and a dollar sign right before it would be a byte
  cases h with
  | position => exact .position
  | opening hhead =>
    obtain ⟨b, rest, rfl⟩ := List.exists_cons_of_ne_nil (hopening rfl)
    exact .opening hhead
  | closing => exact .closing
  | subjectEnd => exact absurd rfl hend
  | balanced => exact .balanced
  | frontier hset => exact .frontier hset
  | backReference hd => exact .backReference hd
  | single ht hq hdollar =>
    refine .single ht (fun hone => ?_) ?_
    · -- what follows the token is as before or the parenthesis, which is no quantifier
      rw [← head?_bind_ofByte?_eq_none_iff]
      cases rest with
      | nil => rfl
      | cons b rest =>
        have hbefore := head?_bind_ofByte?_eq_none_iff.2 (hq hone)
        exact hbefore
    · intro heq
      have hlen := congrArg List.length heq
      have hpos := List.length_pos_iff.2 (Spells.text_ne_nil (.single ht hq hdollar))
      simp only [List.length_append, List.length_singleton] at hlen hpos
      omega

namespace Pattern

theorem Reads.inside {limit offset : Nat} {sc last : Scope} {source : Bytes} {items : List Item}
    (h : Reads limit offset sc source items last) (hs : sc.ledger.Sound)
    (hlimit : last.captures.length < limit) (hback : ∀ k, .backReference k ∉ items)
    (hend : .subjectEnd ∉ items) :
    Reads limit (offset + 1) sc.inside (source ++ [Byte.parenClose])
      (items.map Item.shift ++ [.closeCapture 0]) ⟨.closed :: last.captures, [], none⟩ := by
  induction h with
  | @done offset sc ho =>
    obtain ⟨captures, opened, barrier⟩ := sc
    obtain rfl : opened = [] := ho
    have hlead : Scope.checkLead (Scope.inside ⟨captures, [], barrier⟩) (offset + 1) Byte.parenClose =
        .ok () := by
      cases barrier <;> rfl
    have hdone : Reads limit (offset + 1 + 1) ⟨.closed :: captures, [], none⟩ [] []
      ⟨.closed :: captures, [], none⟩ := .done rfl
    exact .next hlead .closing rfl hdone
  | @next offset sc mid last b front rest e item items hlead hspells hadd hrest ih =>
    obtain rfl := Scope.element_of_add hadd
    have hback' (k : Nat) : item ≠ .backReference k := fun he => hback k (he ▸ List.mem_cons_self)
    have hstep := Scope.step_of_add hadd hs fun d hd => (hd ▸ hspells).digit_le
    have hmid : mid.captures.length ≤ last.captures.length := (hrest.run (hstep.sound hs)).length_le
    -- an opening parenthesis in last place would be left open
    have hopening : item.element = .opening → rest ≠ [] := by
      rintro he rfl
      rw [he] at hadd
      cases hrest with
      | done ho => exact Scope.opened_ne_nil_of_add hadd ho
    have hsubject : item.element ≠ .subjectEnd := by
      intro he
      cases item <;> cases he
      exact hend List.mem_cons_self
    have hinside := ih (hstep.sound hs) hlimit (fun k hk => hback k (.tail _ hk))
      fun hmem => hend (.tail _ hmem)
    rw [show offset + 1 + front.length + 1 = offset + 1 + 1 + front.length by omega] at hinside
    rw [List.cons_append, List.append_assoc]
    exact .next (Scope.checkLead_inside hlead) (hspells.before_close hopening hsubject)
      (Scope.add_inside hadd (Nat.lt_of_le_of_lt hmid hlimit) hback') hinside

theorem Reads.head_ne_parenClose {limit offset : Nat} {sc last : Scope} {b : UInt8} {rest : Bytes}
    {items : List Item} (h : Reads limit offset sc (b :: rest) items last) (ho : sc.opened = []) :
    b ≠ Byte.parenClose := by
  rintro rfl
  obtain ⟨captures, opened, barrier⟩ := sc
  obtain rfl : opened = [] := ho
  cases h with
  | @next _ _ _ _ _ front _ e _ _ _ hspells hadd _ =>
    have hread : (.ok (.closing, 0) : Except Fault (Element × Nat)) = .ok (e, front.length) :=
      hspells.read_append 0
    obtain ⟨rfl, _⟩ := Prod.mk.inj (Except.ok.inj hread)
    cases hadd

theorem subjectEnd_not_mem {o : Options} {source : Bytes} {p : Pattern}
    (hp : compile o source = .ok p) (hlast : p.items.getLast? ≠ some .subjectEnd) :
    .subjectEnd ∉ p.items := by
  intro hmem
  obtain ⟨before, after, hitems⟩ := List.append_of_mem hmem
  obtain ⟨last, hreads, _⟩ := compile_eq_ok hp
  obtain rfl := hreads.subjectEnd_last hitems
  exact hlast (by rw [hitems, List.getLast?_concat])

theorem Reads.parenthesized {limit : Nat} {source : Bytes} {items : List Item} {last : Scope}
    (h : Reads limit 0 (.start false) source items last) (hne : source ≠ [])
    (hlimit : last.captures.length < limit) (hback : ∀ k, .backReference k ∉ items)
    (hend : .subjectEnd ∉ items) :
    Reads limit 0 (.start false) (Byte.parenOpen :: (source ++ [Byte.parenClose]))
      (enclosed items) ⟨.closed :: last.captures, [], none⟩ := by
  have hhead : (source ++ [Byte.parenClose]).head? ≠ some Byte.parenClose := by
    obtain ⟨b, rest, rfl⟩ := List.exists_cons_of_ne_nil hne
    exact fun hclose => h.head_ne_parenClose rfl (Option.some.inj hclose)
  have hpos : 0 < limit := Nat.lt_of_le_of_lt (Nat.zero_le _) hlimit
  have hcapture : (Scope.start false).capture limit 0 .opened = .ok ⟨[.opened], [], none⟩ :=
    if_pos hpos
  have hopen : (Scope.start false).add limit 0 .opening =
      .ok (.openCapture 0, (Scope.start false).inside) := bind_eq_ok.2 ⟨_, hcapture, rfl⟩
  have hinside := h.inside Ledger.start_sound hlimit hback hend
  have hall : Reads limit 0 (.start false) (Byte.parenOpen :: ([] ++ (source ++ [Byte.parenClose])))
    (enclosed items) ⟨.closed :: last.captures, [], none⟩ := .next rfl (.opening hhead) hopen hinside
  rwa [List.nil_append] at hall

theorem compile_enclosed {o : Options} {source : Bytes} {p : Pattern}
    (hp : compile o source = .ok p) (hne : source ≠ []) (hanchored : p.anchored = false)
    (hback : ∀ k, .backReference k ∉ p.items) (hend : .subjectEnd ∉ p.items)
    (hcount : p.captureCount < o.ceiling) :
    compile o (Byte.parenOpen :: (source ++ [Byte.parenClose])) =
      .ok ⟨Byte.parenOpen :: (source ++ [Byte.parenClose]), enclosed p.items,
        .substring :: p.captures, false⟩ := by
  obtain ⟨last, hreads, heq⟩ := compile_eq_ok hp
  have hfree : isAnchored source = false := by rw [← hanchored, heq]
  have hcaptures : p.captures = last.captures.map (·.kind) := by rw [heq]
  have hbody : body source = source := by rw [body, hfree]; rfl
  rw [hbody, hfree] at hreads
  have hlimit : last.captures.length < o.ceiling := by
    rwa [captureCount, hcaptures, List.length_map] at hcount
  have hall := hreads.parenthesized hne hlimit hback hend
  rw [hcaptures]
  exact @compile_of_reads o (Byte.parenOpen :: (source ++ [Byte.parenClose])) _ _ hall

end Pattern
end BytePattern
