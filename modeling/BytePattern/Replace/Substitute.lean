import BytePattern.Search.Matches

/-!
# Substitution

Every match, or the first few, is replaced by the text that a template, a function or a lookup gives for
it; the bytes between the matches are copied. Searching and replacing take turns, and the first error of
either ends the substitution with nothing replaced.

In a template a percent sign and a digit stand for a part of the match, two percent signs for one, and a
percent sign at the very end for itself. Expanding stops at the first escape that means nothing, and the
text before it is kept. A function or a lookup gives back a value. Nothing and `false` leave the match as it
is, text and numbers replace it, and all else is refused by the name of its type.
-/
namespace BytePattern

inductive ReplaceValue
  | nil
  | boolean (b : Bool)
  | integer (i : Int64)
  | number (x : Binary64)
  | text (bytes : Bytes)
  | other (typeName : String)
  deriving DecidableEq

namespace ReplaceValue

def typeName : ReplaceValue → String
  | .nil => "nil"
  | .boolean _ => "boolean"
  | .integer _ => "number"
  | .number _ => "number"
  | .text _ => "string"
  | .other name => name

def keepsMatch : ReplaceValue → Bool
  | .nil => true
  | .boolean b => !b
  | _ => false

def toBytes? : ReplaceValue → Option Bytes
  | .text bytes => some bytes
  | .integer i => some (Decimal.ofInt i.toInt)
  | .number x => some x.text
  | _ => none

end ReplaceValue

/-- The text of capture `n`, counted from one. Without captures the first is the whole match. -/
def Match.captureText (m : Match) (s : Subject) (n : Nat) : Except Error Bytes :=
  match m.captures[n - 1]? with
  | some c => do return (← c.value s).toBytes
  | none => if n = 1 ∧ m.captures = [] then m.text s else .error (.captureIndex n)

namespace Template

def escape (s : Subject) (m : Match) (d : UInt8) : Except Error Bytes :=
  if d = Byte.percent then .ok [Byte.percent]
  else if d = Byte.digitZero then m.text s
  else if Byte.isDigit d then m.captureText s (d - Byte.digitZero).toNat
  else .error .badTemplate

def expand (s : Subject) (m : Match) : Bytes → Bytes × Option Error
  | [] => ([], none)
  | b :: rest =>
    if b = Byte.percent then
      match rest with
      | [] => ([Byte.percent], none)
      | d :: rest =>
        match escape s m d with
        | .ok text =>
          let (out, failure) := expand s m rest
          (text ++ out, failure)
        | .error e => ([], some e)
    else
      let (out, failure) := expand s m rest
      (b :: out, failure)

def expandInto (buffer : Bytes) (s : Subject) (m : Match) (template : Bytes) :
    Bytes × Option Error :=
  let (out, failure) := expand s m template
  (buffer ++ out, failure)

end Template

abbrev Effect (σ α : Type) := ExceptT Error (StateM σ) α

namespace Effect

variable {σ α β : Type}

theorem run_bind (x : Effect σ α) (f : α → Effect σ β) (st : σ) :
    (x >>= f).run.run st = match x.run.run st with
      | (.ok a, st) => (f a).run.run st
      | (.error e, st) => (.error e, st) := by
  rw [ExceptT.run_bind, StateT.run_bind]
  obtain ⟨result, st'⟩ := x.run.run st
  cases result <;> rfl

theorem run_bind_pure (x : Effect σ α) (f : α → β) (st : σ) :
    (x >>= fun a => pure (f a)).run.run st = ((x.run.run st).1.map f, (x.run.run st).2) := by
  rw [run_bind]
  obtain ⟨result, st'⟩ := x.run.run st
  cases result <;> rfl

theorem run_bind_fst {x : Effect σ α} {f : α → Effect σ β} (g : α → Except Error β)
    (hf : ∀ a st, (f a).run.run st = (g a, st)) (st : σ) :
    ((x >>= f).run.run st).1 = (x.run.run st).1 >>= g := by
  rw [run_bind]
  obtain ⟨result, st'⟩ := x.run.run st
  cases result with
  | error e => rfl
  | ok a => exact congrArg Prod.fst (hf a st')

theorem run_pure (a : α) (st : σ) : (pure a : Effect σ α).run.run st = (.ok a, st) := rfl

theorem run_lift (x : Except Error α) (st : σ) : (liftM x : Effect σ α).run.run st = (x, st) := rfl

theorem run_get (st : σ) : (get : Effect σ σ).run.run st = (.ok st, st) := rfl

theorem run_modify (f : σ → σ) (st : σ) : (modify f : Effect σ PUnit).run.run st = (.ok ⟨⟩, f st) :=
  rfl

end Effect

inductive Replacement (σ : Type)
  | template (text : Bytes)
  | function (call : List CaptureValue → Effect σ ReplaceValue)
  | lookup (get : CaptureValue → Effect σ ReplaceValue)

namespace Replacement

/-- A lookup in pairs of text and value, the last pair first. Positions are not found. -/
def table {σ : Type} (entries : List (Bytes × ReplaceValue)) : Replacement σ :=
  .lookup fun key =>
    match key with
    | .text k => return (entries.reverse.lookup k).getD .nil
    | .position _ => return .nil

def textOfValue (s : Subject) (m : Match) (v : ReplaceValue) : Except Error Bytes :=
  if v.keepsMatch then m.text s
  else
    match v.toBytes? with
    | some bytes => .ok bytes
    | none => .error (.badValue v.typeName)

def textFor {σ : Type} (r : Replacement σ) (s : Subject) (m : Match) : Effect σ Bytes :=
  match r with
  | .template t =>
    match Template.expand s m t with
    | (out, none) => return out
    | (_, some e) => throw e
  | .function call => do textOfValue s m (← call (← m.values s))
  | .lookup get => do textOfValue s m (← get (← m.firstValue s))

end Replacement

namespace Matcher

/-- Substitutes from the search at `i` on. The subject is already copied up to `copied`, and `quota` is
the number of replacements that are still allowed, if there is a limit. -/
def substituteFrom {σ : Type} (x : Matcher) (r : Replacement σ) (m : Memory) (quota : Option Nat)
    (i copied : Nat) : Effect σ (Bytes × Nat) :=
  if quota = some 0 then return (← inRange (x.subject.slice? copied x.subject.size), 0)
  else
    match _h : x.findAt m i with
    | (.error e, _) => throw e
    | (.ok none, _) => return (← inRange (x.subject.slice? copied x.subject.size), 0)
    | (.ok (some found), m) => do
      let gap ← inRange (x.subject.slice? copied found.start)
      let text ← r.textFor x.subject found
      if x.pattern.anchored then
        return (gap ++ text ++ (← inRange (x.subject.slice? found.stop x.subject.size)), 1)
      else
        let (out, n) ← x.substituteFrom r m (quota.map (· - 1)) found.resumeAt found.stop
        return (gap ++ text ++ out, n + 1)
termination_by x.subject.size + 1 - i
decreasing_by
  have h1 := init_le_of_findAt ‹_›
  have h2 := le_start_of_findAt ‹_›
  have h3 := found.start_lt_resumeAt
  omega

def substitute {σ : Type} (x : Matcher) (r : Replacement σ) (quota : Option Nat) :
    Effect σ (Bytes × Nat) :=
  x.substituteFrom r .fresh quota 0 0

end Matcher
end BytePattern
