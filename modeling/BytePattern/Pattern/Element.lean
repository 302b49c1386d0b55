import BytePattern.Error
import BytePattern.Pattern.Basic

/-!
# Elements

The source of a pattern falls into elements that are read one after the other. Reading an element looks
at its own bytes alone; whether it may stand where it stands is decided when the pattern is compiled.
Between brackets stand bytes, ranges and escaped classes, after a caret the members that are left out.
A closing bracket in first place is a member, and so is a minus sign that has no byte on both sides.
-/
namespace BytePattern
namespace Bracket

def escaped (b : UInt8) : SetMember :=
  match ClassTest.ofLetter? b with
  | some t => .ofClass t
  | none => .byte b

/-- The members up to the closing bracket and the number of bytes read with it. Only in `first` place
is a closing bracket a member. -/
def readMembers (first : Bool) : Bytes → Option (List SetMember × Nat)
  | [] => none
  | b :: rest =>
    if b = Byte.bracketClose ∧ first = false then some ([], 1)
    else if b = Byte.percent then
      match rest with
      | [] => none
      | e :: rest => (readMembers false rest).map fun (ms, n) => (escaped e :: ms, n + 2)
    else
      match rest with
      | m :: hi :: tail =>
        if m = Byte.minus ∧ hi ≠ Byte.bracketClose then
          (readMembers false tail).map fun (ms, n) => (.range b hi :: ms, n + 3)
        else (readMembers false (m :: hi :: tail)).map fun (ms, n) => (.byte b :: ms, n + 1)
      | rest => (readMembers false rest).map fun (ms, n) => (.byte b :: ms, n + 1)
termination_by text => text.length

def read (text : Bytes) : Option (ByteSet × Nat) :=
  match text with
  | c :: rest =>
    if c = Byte.caret then
      (readMembers true rest).map fun (ms, n) => (ByteSet.ofMembers ms true, n + 1)
    else (readMembers true text).map fun (ms, n) => (ByteSet.ofMembers ms false, n)
  | [] => none

end Bracket

inductive Element
  | position
  | opening
  | closing
  | subjectEnd
  | balanced (opener closer : UInt8)
  | frontier (set : ByteSet)
  | backReference (digit : Nat)
  | single (token : Token) (quantifier : Quantifier)
  deriving DecidableEq

def Token.read (offset : Nat) (b : UInt8) (rest : Bytes) : Except Fault (Token × Nat) :=
  if b = Byte.dot then .ok (.any, 0)
  else if b = Byte.percent then
    match rest with
    | [] => .error ⟨.endsWithEscape, offset⟩
    | e :: _ =>
      match ClassTest.ofLetter? e with
      | some t => .ok (.ofClass t, 1)
      | none => .ok (.byte e, 1)
  else if b = Byte.bracketOpen then
    match Bracket.read rest with
    | some (s, n) => .ok (.set s, n)
    | none => .error ⟨.missingBracket, offset⟩
  else .ok (.byte b, 0)

namespace Element

def readSingle (offset : Nat) (b : UInt8) (rest : Bytes) : Except Fault (Element × Nat) := do
  let (token, n) ← Token.read offset b rest
  match (rest.drop n).head?.bind Quantifier.ofByte? with
  | some q => .ok (.single token q, n + 1)
  | none => .ok (.single token .one, n)

def readBalanced (offset : Nat) : Bytes → Except Fault (Element × Nat)
  | x :: y :: _ => .ok (.balanced x y, 3)
  | _ => .error ⟨.missingDelimiters, offset⟩

def readFrontier (offset : Nat) : Bytes → Except Fault (Element × Nat)
  | b :: rest =>
    if b = Byte.bracketOpen then
      match Bracket.read rest with
      | some (set, n) => .ok (.frontier set, n + 2)
      | none => .error ⟨.missingBracket, offset + 2⟩
    else .error ⟨.missingFrontierSet, offset⟩
  | [] => .error ⟨.missingFrontierSet, offset⟩

def readEscape (offset : Nat) : Bytes → Except Fault (Element × Nat)
  | [] => .error ⟨.endsWithEscape, offset⟩
  | e :: rest =>
    if e = Byte.letterB then readBalanced offset rest
    else if e = Byte.letterF then readFrontier offset rest
    else if Byte.isDigit e then .ok (.backReference (e - Byte.digitZero).toNat, 1)
    else readSingle offset Byte.percent (e :: rest)

/-- The element that starts with `b` at `offset`, and the number of bytes after `b` that it takes. -/
def read (offset : Nat) (b : UInt8) (rest : Bytes) : Except Fault (Element × Nat) :=
  if b = Byte.parenOpen then
    if rest.head? = some Byte.parenClose then .ok (.position, 1) else .ok (.opening, 0)
  else if b = Byte.parenClose then .ok (.closing, 0)
  else if b = Byte.dollar ∧ rest = [] then .ok (.subjectEnd, 0)
  else if b = Byte.percent then readEscape offset rest
  else readSingle offset b rest

end Element
end BytePattern
