import Coucal.Construction.System
import Coucal.Construction.Wrappers

namespace Coucal

variable {P : Platform} {κ : Type}

/-- The calls of the whole interface for the content of a table. The last two are accesses through a
pointer that `coucal_fetch_value` or `coucal_fetch_value_hashes` has returned. -/
inductive Request (P : Platform) (ν : Type) where
  | writeValue (name : ν) (value : Value P)
  | write (name : ν) (intvalue : Value P)
  | add (name : ν) (intvalue : Value P)
  | writePvoid (name : ν) (pvalue : Value P)
  | addPvoid (name : ν) (pvalue : Value P)
  | readValue (name : ν)
  | read (name : ν)
  | readptr (name : ν)
  | getIntptr (name : ν)
  | readPvoid (name : ν)
  | getPvoid (name : ν)
  | exists_ (name : ν)
  | remove (name : ν)
  | inc (name : ν)
  | dec (name : ν)
  | nitems
  | fetchValue (name : ν)
  | fetchValueHashes (name : ν) (hashes : Hashkeys P)
  | load (place : Slot)
  | assign (place : Slot) (value : Value P)

namespace Request

variable {ν μ : Type}

def map (f : ν → μ) : Request P ν → Request P μ
  | .writeValue name value => .writeValue (f name) value
  | .write name value => .write (f name) value
  | .add name value => .add (f name) value
  | .writePvoid name value => .writePvoid (f name) value
  | .addPvoid name value => .addPvoid (f name) value
  | .readValue name => .readValue (f name)
  | .read name => .read (f name)
  | .readptr name => .readptr (f name)
  | .getIntptr name => .getIntptr (f name)
  | .readPvoid name => .readPvoid (f name)
  | .getPvoid name => .getPvoid (f name)
  | .exists_ name => .exists_ (f name)
  | .remove name => .remove (f name)
  | .inc name => .inc (f name)
  | .dec name => .dec (f name)
  | .nitems => .nitems
  | .fetchValue name => .fetchValue (f name)
  | .fetchValueHashes name hashes => .fetchValueHashes (f name) hashes
  | .load place => .load place
  | .assign place value => .assign place value

/-- The name that a call passes. -/
def name? : Request P ν → Option ν
  | .writeValue name _ | .write name _ | .add name _ | .writePvoid name _ | .addPvoid name _
  | .readValue name | .read name | .readptr name | .getIntptr name | .readPvoid name | .getPvoid name
  | .exists_ name | .remove name | .inc name | .dec name | .fetchValue name
  | .fetchValueHashes name _ => some name
  | .nitems | .load _ | .assign .. => none

/-- The pointer that an access uses. -/
def place? : Request P ν → Option Slot
  | .load place | .assign place _ => some place
  | _ => none

end Request

/-- What a call delivers to its caller. -/
inductive Answer (P : Platform) where
  | done
  | flag (nonzero : Bool)
  | value (found : Option (Value P))
  | delivered (ret : Bool) (value : Value P)
  | word (value : Value P)
  | int (value : BitVec P.intSize)
  | count (items : Nat)
  | place (pointer : Option Slot)
  deriving DecidableEq

/-- The pointer that a call delivers. -/
def Answer.place? : Answer P → Option Slot
  | .place pointer => pointer
  | _ => none

/-- A call returns its answer and the next state. -/
def Hashtable.serve (env : Env P κ) (t : Hashtable P κ) :
    Request P (Name κ) → Result (Answer P × Hashtable P κ)
  | .writeValue name value => do
      let (added, t) ← t.writeValue env name value
      .ok (.flag added, t)
  | .write name value => do
      let (added, t) ← t.write env name value
      .ok (.flag added, t)
  | .add name value => do
      let t ← t.add env name value
      .ok (.done, t)
  | .writePvoid name value => do
      let (added, t) ← t.writePvoid env name value
      .ok (.flag added, t)
  | .addPvoid name value => do
      let t ← t.addPvoid env name value
      .ok (.done, t)
  | .readValue name => .ok (.value (t.readValue env name), t)
  | .read name => .ok (.delivered (t.read env name).1 (t.read env name).2, t)
  | .readptr name => .ok (.delivered (t.readptr env name).1 (t.readptr env name).2, t)
  | .getIntptr name => .ok (.word (t.getIntptr env name), t)
  | .readPvoid name => .ok (.delivered (t.readPvoid env name).1 (t.readPvoid env name).2, t)
  | .getPvoid name => .ok (.word (t.getPvoid env name), t)
  | .exists_ name => .ok (.flag (t.exists_ env name), t)
  | .remove name => do
      let (removed, t) ← t.remove env name
      .ok (.flag removed, t)
  | .inc name => do
      let (value, t) ← t.inc env name
      .ok (.int value, t)
  | .dec name => do
      let (value, t) ← t.dec env name
      .ok (.int value, t)
  | .nitems => .ok (.count t.nitems, t)
  | .fetchValue name => .ok (.place (t.fetchValue env name), t)
  | .fetchValueHashes name hashes => .ok (.place (t.fetchValueHashes env name hashes), t)
  | .load place => .ok (.word (t.item place).value, t)
  | .assign place value => .ok (.done, t.assign place value)

/-- The pointers that a client may use after a call, each with the key that it was fetched for. An added
entry may have moved any other one, and a removal leaves no value behind its pointer. -/
def heldAfter (env : Env P κ) (grown : Bool) (held : List (Slot × Key κ)) (request : Request P (Key κ))
    (answer : Answer P) : List (Slot × Key κ) :=
  if grown then []
  else
    match request, answer with
    | .remove key, _ => held.filter fun pointer => ! env.equals pointer.2 key
    | .fetchValue key, .place (some place) | .fetchValueHashes key _, .place (some place) =>
        (place, key) :: held
    | _, _ => held

/-- A table and the pointers into it that its client holds. -/
structure Session (P : Platform) (κ : Type) where
  table : Hashtable P κ
  held : List (Slot × Key κ)

/-- One call of a client. A pointer that it does not hold any more leads to memory that may be free. -/
def Session.serve (env : Env P κ) (session : Session P κ) (request : Request P (Name κ)) :
    Result (Answer P × Session P κ) := do
  Outcome.guard .fault (∀ place ∈ request.place?, ∃ pointer ∈ session.held, pointer.1 = place)
  let (answer, t) ← session.table.serve env request
  let grown := decide (session.table.used < t.used)
  .ok (answer, { table := t, held := heldAfter env grown session.held (request.map session.table.key) answer })

/-- A step of a session is one call that returns. -/
inductive Session.Step (env : Env P κ) : Session P κ → Request P (Key κ) × Answer P → Session P κ → Prop where
  | call {session session' : Session P κ} {request : Request P (Name κ)} {answer : Answer P}
      (readable : ∀ name, request.name? = some name → session.table.Readable name)
      (returns : session.serve env request = .ok (answer, session')) :
      Step env session (request.map session.table.key, answer) session'

abbrev Session.Run (env : Env P κ) := Transition.Run (Session.Step env)

/-- The calls of a list with keys of the caller, one after the other. -/
def Session.replay (env : Env P κ) (session : Session P κ) :
    List (Request P (Key κ)) → Result (List (Answer P) × Session P κ)
  | [] => .ok ([], session)
  | request :: requests => do
      let (answer, session) ← session.serve env (request.map .own)
      let (answers, session) ← session.replay env requests
      .ok (answer :: answers, session)

theorem Session.replay_run {env : Env P κ} {requests : List (Request P (Key κ))}
    {session session' : Session P κ} {answers : List (Answer P)}
    (replayed : session.replay env requests = .ok (answers, session')) :
    Session.Run env session (requests.zip answers) session' := by
  induction requests generalizing session answers with
  | nil =>
      cases replayed
      exact .nil _
  | cons request requests ih =>
      obtain ⟨⟨answer, next⟩, returns, rest⟩ := Outcome.bind_eq_ok.mp replayed
      obtain ⟨⟨answers', last⟩, replayed', same⟩ := Outcome.bind_eq_ok.mp rest
      cases same
      have readable : ∀ name, (request.map (Name.own (κ := κ))).name? = some name →
          session.table.Readable name := by
        intro name passed
        cases request <;> cases passed <;> trivial
      have shown : (request.map (Name.own (κ := κ))).map session.table.key = request := by
        cases request <;> rfl
      have step := Session.Step.call readable returns
      rw [shown] at step
      exact .cons step (ih replayed')

end Coucal
