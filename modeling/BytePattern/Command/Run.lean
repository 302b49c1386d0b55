import BytePattern.Command.Settings
import BytePattern.Text.Shown

/-!
# The command

One command per call: find, match, gmatch or gsub on a subject. Results go to the standard output as lines
of text or JSON, complaints to the standard error stream with exit code one. What was printed before an
error stays.
-/
namespace BytePattern
namespace Command

inductive Verb
  | find | firstValues | allValues | substitute
  deriving DecidableEq

def Verb.spellings : List (Bytes × Verb) :=
  [(utf8 "find", .find), (utf8 "match", .firstValues), (utf8 "gmatch", .allValues),
    (utf8 "gsub", .substitute)]

/-- What is to be done: the subject may be a minus sign that stands for the standard input. -/
structure Job where
  verb : Verb
  subject : Bytes
  source : Bytes
  template : Bytes
  deriving DecidableEq

def Job.ofWords : List Bytes → Except UsageError Job
  | name :: subject :: source :: extra => do
    let verb ←
      match Verb.spellings.lookup name with
      | some verb => pure verb
      | none => .error (.unknownVerb name)
    match verb, extra with
    | .substitute, [template] => return ⟨verb, subject, source, template⟩
    | .substitute, _ => .error .replacementCount
    | _, [] => return ⟨verb, subject, source, []⟩
    | _, _ => .error .tooManyWords
  | _ => .error .missingWords

def Job.readsInput (j : Job) : Bool := j.subject == [Byte.minus]

structure Outcome where
  exit : UInt32
  stdout : Bytes
  stderr : Bytes
  deriving DecidableEq

def usageLines : List String :=
  ["usage: lpat [options] command subject pattern [repl]",
    "Commands are:",
    "  find      print start, end and captures of the first match",
    "  match     print the captures of the first match",
    "  gmatch    print the captures of every match, one per line",
    "  gsub      replace matches with 'repl', print result and count",
    "Available options are:",
    "  --init N    start the search at position N",
    "  --plain     find: treat the pattern as a plain string",
    "  -n N        gsub: replace at most N matches",
    "  --budget N  fail when one search takes more than N steps",
    "  --json      print results as JSON",
    "  -v          show version information",
    "  -h          show this help",
    "  --          stop handling options",
    "A subject of '-' is read from stdin."]

def version : Bytes := utf8 "lpat 0.1.0 (Lua patterns)"

def line (text : Bytes) : Bytes := text ++ [Byte.newline]

def usage : Bytes := usageLines.flatMap fun text => line (utf8 text)

def complaint (message : Bytes) : Bytes := utf8 "lpat: " ++ line message

namespace Outcome

def success (stdout : Bytes) : Outcome := ⟨0, stdout, []⟩

def misuse (e : UsageError) : Outcome := ⟨1, [], complaint e.message ++ usage⟩

def failure (stdout : Bytes) (e : Error) : Outcome := ⟨1, stdout, complaint (utf8 e.message)⟩

def ofResult : Except Error Bytes → Outcome
  | .ok stdout => success stdout
  | .error e => failure [] e

end Outcome

def dropLineEnd (text : Bytes) : Bytes :=
  match text.reverse with
  | b :: front =>
    if b = Byte.newline then
      (if front.head? = some Byte.carriageReturn then front.tail else front).reverse
    else text
  | [] => []

/-- Fields in a line. A tab parts a field from the text before it, if there is any. -/
def joinFields (fields : List Bytes) : Bytes :=
  fields.foldl (fun text f => if text = [] then f else text ++ Byte.tab :: f) []

def textLine (numbers : List Nat) (values : List CaptureValue) : Bytes :=
  line (joinFields (numbers.map Decimal.ofNat ++ values.map (·.toBytes)))

def jsonLine (json : String) : Bytes := line (utf8 json)

def nothingLine (st : Settings) : Bytes := line (utf8 (if st.json then JsonText.null else "nil"))

def foundLine (st : Settings) (f : Found) : Bytes :=
  if st.json then jsonLine f.toJson else textLine [f.first, f.last] f.captures

def valuesLine (st : Settings) (values : List CaptureValue) : Bytes :=
  if st.json then jsonLine (valuesToJson values) else textLine [] values

def matchLine (st : Settings) (m : Match) (values : List CaptureValue) : Bytes :=
  if st.json then jsonLine (JsonText.object [("match", m.toJson), ("values", valuesToJson values)])
  else textLine [] values

def substitutedLines (st : Settings) (text : Bytes) (count : Nat) : Bytes :=
  if st.json then
    jsonLine (JsonText.object [("result", JsonText.text text), ("count", JsonText.number count)])
  else line text ++ textLine [count] []

def matchLines (st : Settings) (s : Subject) : List (Except Error Match) → Bytes × Option Error
  | [] => ([], none)
  | .error e :: _ => ([], some e)
  | .ok m :: rest =>
    match m.values s with
    | .error e => ([], some e)
    | .ok values =>
      let (out, failure) := matchLines st s rest
      (matchLine st m values ++ out, failure)

def Settings.library (st : Settings) : Library :=
  Library.ofOptions { stepLimit := st.budget.map UInt64.toNat } false

def Settings.call {α : Type} (st : Settings) (run : Effect Library α) : Except Error α :=
  (run.run.run st.library).1

def Job.perform (j : Job) (st : Settings) (s : Subject) : Outcome :=
  match j.verb with
  | .find => .ofResult do
    match ← st.call (Library.find s j.source st.init st.plain) with
    | some f => return foundLine st f
    | none => return nothingLine st
  | .firstValues => .ofResult do
    match ← st.call (Library.firstValues s j.source st.init) with
    | some values => return valuesLine st values
    | none => return nothingLine st
  | .allValues =>
    match st.call (Library.allMatches s j.source st.init) with
    | .error e => .failure [] e
    | .ok it =>
      match matchLines st s it.toList with
      | (out, none) => .success out
      | (out, some e) => .failure out e
  | .substitute => .ofResult do
    let r : Replacement Unit := .template j.template
    let (result, _) ← st.call (Library.substitute s j.source r st.maxCount ())
    let (text, count) ← result
    return substitutedLines st text count

def plan (words : List Bytes) : Except Outcome (Settings × Job) :=
  match Settings.read {} words with
  | .error e => .error (.misuse e)
  | .ok st =>
    if st.showVersion then .error (.success (line version))
    else if st.showHelp then .error ⟨0, [], usage⟩
    else
      match Job.ofWords st.words with
      | .error e => .error (.misuse e)
      | .ok j => .ok (st, j)

def Job.run (j : Job) (st : Settings) (input : Bytes) : Outcome :=
  j.perform st (if j.readsInput then dropLineEnd input else j.subject).toArray

def run (words : List Bytes) (input : Bytes) : Outcome :=
  match plan words with
  | .error outcome => outcome
  | .ok (st, j) => j.run st input

end Command
end BytePattern
