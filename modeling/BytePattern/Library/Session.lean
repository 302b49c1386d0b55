import BytePattern.Library.Basic

/-!
# Sessions

A session is a library in use: requests come one after the other, and iterators that were started stay
alive under their numbers until they are replaced. An iterator holds its pattern, so that clearing the
cache does not reach it.
-/
namespace BytePattern

inductive Request (σ : Type)
  | find (s : Subject) (source : Bytes) (init : Option Int64) (plain : Bool)
  | firstValues (s : Subject) (source : Bytes) (init : Option Int64)
  | allValues (s : Subject) (source : Bytes) (init : Option Int64)
  | substitute (s : Subject) (source : Bytes) (r : Replacement σ) (limit : Option Int64) (state : σ)
  | compile (source : Bytes)
  | iterate (id : Nat) (s : Subject) (source : Bytes) (init : Option Int64)
  | next (id : Nat)
  | clear
  | options

inductive Answer (σ : Type)
  | found (span : Option Found)
  | values (values : Option (List CaptureValue))
  | rows (rows : List (Except Error (List CaptureValue)))
  | substituted (result : Except Error (Bytes × Nat)) (state : σ)
  | compiled (c : Compiled)
  | options (o : Options)
  | done

structure Session where
  library : Library
  iterators : List (Nat × Matches)

namespace Session

def ofOptions (o : Options) (cached : Bool) : Session := ⟨Library.ofOptions o cached, []⟩

def pull (iterators : List (Nat × Matches)) (id : Nat) :
    Except Error (Option (List CaptureValue)) × List (Nat × Matches) :=
  match iterators.lookup id with
  | none => (.ok none, iterators)
  | some it =>
    let (r, it') := it.next
    (match r with
      | none => .ok none
      | some r => (Matches.valuesOf it.subject r).map some,
      (id, it') :: iterators.filter (·.1 != id))

def withLibrary {σ α : Type} (ss : Session) (run : Effect Library α) (answer : α → Answer σ) :
    Except Error (Answer σ) × Session :=
  let (result, library) := run.run.run ss.library
  (result.map answer, { ss with library })

def step {σ : Type} (ss : Session) : Request σ → Except Error (Answer σ) × Session
  | .find s p init plain => ss.withLibrary (Library.find s p init plain) .found
  | .firstValues s p init => ss.withLibrary (Library.firstValues s p init) .values
  | .allValues s p init =>
    ss.withLibrary (Library.allMatches s p init) fun it => .rows (it.toList.map (Matches.valuesOf s))
  | .substitute s p r limit state =>
    ss.withLibrary (Library.substitute s p r limit state) fun (result, state) =>
      .substituted result state
  | .compile p => ss.withLibrary (Library.compile p) .compiled
  | .iterate id s p init =>
    let (result, library) := (Library.allMatches s p init).run.run ss.library
    match result with
    | .ok it => (.ok .done, ⟨library, (id, it) :: ss.iterators.filter (·.1 != id)⟩)
    | .error e => (.error e, { ss with library })
  | .next id =>
    let (result, iterators) := pull ss.iterators id
    (result.map .values, { ss with iterators })
  | .clear => (.ok .done, { ss with library := ss.library.clear })
  | .options => (.ok (.options ss.library.options), ss)

def run {σ : Type} (ss : Session) : List (Request σ) → List (Except Error (Answer σ) × Session)
  | [] => []
  | r :: rest =>
    let (answer, ss) := ss.step r
    (answer, ss) :: ss.run rest

end Session
end BytePattern
