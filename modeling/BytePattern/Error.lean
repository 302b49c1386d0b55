/-!
# Errors

A failed match is no error. A malformed pattern is reported with the reason and the offset in its source;
replacing can meet a bad template or value; a search can run out of its step budget; and a host function
can fail in its own words.
-/
namespace BytePattern

inductive Barrier
  | anchor | quantifier
  deriving DecidableEq

inductive Malformation
  | strayClose
  | strayQuantifier (byte : UInt8) (after : Barrier)
  | endsWithEscape
  | missingDelimiters
  | missingFrontierSet
  | missingBracket
  | badBackReference (digit : Nat)
  | tooManyCaptures
  | unfinishedCapture
  deriving DecidableEq

def Malformation.message : Malformation → String
  | .strayClose => "invalid pattern capture"
  | .strayQuantifier b .anchor => s!"quantifier '{Char.ofUInt8 b}' follows '^'"
  | .strayQuantifier b .quantifier => s!"quantifier '{Char.ofUInt8 b}' follows another quantifier"
  | .endsWithEscape => "ends with '%'"
  | .missingDelimiters => "missing arguments to '%b'"
  | .missingFrontierSet => "missing '[' after '%f' in pattern"
  | .missingBracket => "missing ']'"
  | .badBackReference d => s!"invalid capture index %{d}"
  | .tooManyCaptures => "too many captures"
  | .unfinishedCapture => "unfinished capture"

structure Fault where
  cause : Malformation
  offset : Nat
  deriving DecidableEq

inductive Error
  | malformed (fault : Fault)
  | captureIndex (digit : Nat)
  | badTemplate
  | badValue (typeName : String)
  | budgetExceeded (limit : Nat)
  | host (message : String)
  /-- An offset or a slot that does not exist was read. -/
  | outOfRange
  deriving DecidableEq

def Error.message : Error → String
  | .malformed f => s!"malformed pattern ({f.cause.message}) at offset {f.offset}"
  | .captureIndex d => s!"invalid capture index %{d} in replacement string"
  | .badTemplate => "invalid use of '%' in replacement string"
  | .badValue name => s!"invalid replacement value (a {name})"
  | .budgetExceeded limit => s!"pattern too complex (step budget of {limit} exceeded)"
  | .host message => message
  | .outOfRange => "index out of range"

def inRange {α : Type} : Option α → Except Error α
  | some a => .ok a
  | none => .error .outOfRange

theorem inRange_some {α : Type} (a : α) : inRange (some a) = .ok a := rfl

theorem ok_bind {ε α β : Type} (a : α) (f : α → Except ε β) : (.ok a : Except ε α) >>= f = f a := rfl

theorem bind_eq_ok {ε α β : Type} {x : Except ε α} {f : α → Except ε β} {b : β} :
    x >>= f = .ok b ↔ ∃ a, x = .ok a ∧ f a = .ok b := by
  cases x <;> simp [bind, Except.bind]

theorem bind_eq_error {ε α β : Type} {x : Except ε α} {f : α → Except ε β} {e : ε} :
    x >>= f = .error e ↔ x = .error e ∨ ∃ a, x = .ok a ∧ f a = .error e := by
  cases x <;> simp [bind, Except.bind]

theorem eq_ok_of_toOption {ε α : Type} {x : Except ε α} {a : α} (h : x.toOption = some a) :
    x = .ok a := by
  cases x with
  | ok b => exact congrArg _ (Option.some.inj h)
  | error e => cases h

theorem pure_eq_ok {ε α : Type} {a b : α} : (pure a : Except ε α) = .ok b ↔ a = b := by
  simp [pure, Except.pure]

end BytePattern
