import BytePattern.Text.Number

/-!
# Command-line settings

Words that start with a minus sign are flags, except the minus sign alone; three of the flags take a number
as the next word. After two minus signs no word is a flag. What is not a flag is kept in order.
-/
namespace BytePattern
namespace Command

inductive UsageError
  | unrecognized (word : Bytes)
  | needsArgument (flag : Bytes)
  | notANumber (flag word : Bytes)
  | missingWords
  | unknownVerb (word : Bytes)
  | replacementCount
  | tooManyWords
  deriving DecidableEq

def quoted (word : Bytes) : Bytes := utf8 "'" ++ word ++ utf8 "'"

def UsageError.message : UsageError → Bytes
  | .unrecognized word => utf8 "unrecognized option " ++ quoted word
  | .needsArgument flag => quoted flag ++ utf8 " needs argument"
  | .notANumber flag word => quoted flag ++ utf8 " expects a number, got " ++ quoted word
  | .missingWords => utf8 "missing command, subject or pattern"
  | .unknownVerb word => utf8 "unknown command " ++ quoted word
  | .replacementCount => utf8 "gsub needs exactly one replacement"
  | .tooManyWords => utf8 "too many arguments"

structure Settings where
  init : Option Int64 := none
  maxCount : Option Int64 := none
  budget : Option UInt64 := none
  plain : Bool := false
  json : Bool := false
  showVersion : Bool := false
  showHelp : Bool := false
  words : List Bytes := []
  deriving DecidableEq

inductive Flag
  | init | maxCount | budget | plain | json | version | help | stop
  deriving DecidableEq

def Flag.spellings : List (Bytes × Flag) :=
  [(utf8 "--init", .init), (utf8 "-n", .maxCount), (utf8 "--budget", .budget),
    (utf8 "--plain", .plain), (utf8 "--json", .json), (utf8 "-v", .version), (utf8 "-h", .help),
    (utf8 "--help", .help), (utf8 "--", .stop)]

def Flag.ofWord? (word : Bytes) : Option Flag := Flag.spellings.lookup word

def isFlag (word : Bytes) : Bool := word.head? == some Byte.minus && word != [Byte.minus]

def natural? : Bytes → Option Nat
  | b :: digits => Decimal.toNat? (if b = Byte.plus then digits else b :: digits)
  | [] => none

def word64? (text : Bytes) : Option UInt64 :=
  (natural? text).bind fun n => if n < UInt64.size then some (UInt64.ofNat n) else none

def int64? (text : Bytes) : Option Int64 :=
  let value : Option Int :=
    if text.head? = some Byte.minus then (Decimal.toNat? text.tail).map (-Int.ofNat ·)
    else (natural? text).map Int.ofNat
  value.bind fun i =>
    if Int64.minValue.toInt ≤ i ∧ i ≤ Int64.maxValue.toInt then some (Int64.ofInt i) else none

def numberAfter {α : Type} (flag : Bytes) (read : Bytes → Option α) :
    List Bytes → Except UsageError α
  | [] => .error (.needsArgument flag)
  | word :: _ =>
    match read word with
    | some n => .ok n
    | none => .error (.notANumber flag word)

namespace Settings

def read (st : Settings) : List Bytes → Except UsageError Settings
  | [] => .ok st
  | word :: rest =>
    if isFlag word then
      match Flag.ofWord? word with
      | none => .error (.unrecognized word)
      | some .init => do
        let n ← numberAfter word int64? rest
        read { st with init := some n } rest.tail
      | some .maxCount => do
        let n ← numberAfter word int64? rest
        read { st with maxCount := some n } rest.tail
      | some .budget => do
        let n ← numberAfter word word64? rest
        read { st with budget := some n } rest.tail
      | some .plain => read { st with plain := true } rest
      | some .json => read { st with json := true } rest
      | some .version => read { st with showVersion := true } rest
      | some .help => read { st with showHelp := true } rest
      | some .stop => .ok { st with words := st.words ++ rest }
    else read { st with words := st.words ++ [word] } rest
termination_by words => words.length
decreasing_by all_goals (simp only [List.length_cons, List.length_tail]; omega)

end Settings
end Command
end BytePattern
