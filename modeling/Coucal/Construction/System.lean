import Coucal.Construction.Table
import Coucal.Library.Transition

namespace Coucal

variable {P : Platform} {κ : Type}

/-- The calls that a program makes between `coucal_new` and `coucal_delete`. -/
inductive Op (P : Platform) (ν : Type) where
  | writeValue (name : ν) (value : Value P)
  | remove (name : ν)
  | readValue (name : ν)
  | exists_ (name : ν)
  | fetchValueHashes (name : ν) (hashes : Hashkeys P)
  | nitems
  | inc (name : ν)
  | dec (name : ν)
  | enumNext (index : Nat)
  deriving DecidableEq

def Op.map {ν μ : Type} (f : ν → μ) : Op P ν → Op P μ
  | .writeValue name value => .writeValue (f name) value
  | .remove name => .remove (f name)
  | .readValue name => .readValue (f name)
  | .exists_ name => .exists_ (f name)
  | .fetchValueHashes name hashes => .fetchValueHashes (f name) hashes
  | .nitems => .nitems
  | .inc name => .inc (f name)
  | .dec name => .dec (f name)
  | .enumNext index => .enumNext index

/-- The name that a call passes. -/
def Op.name? {ν : Type} : Op P ν → Option ν
  | .writeValue name _ | .remove name | .readValue name | .exists_ name
  | .fetchValueHashes name _ | .inc name | .dec name => some name
  | .nitems | .enumNext _ => none

/-- The answer of a call. A pointer to a value is read at once. -/
inductive Reply (P : Platform) (κ : Type) where
  | flag (nonzero : Bool)
  | value (found : Option (Value P))
  | count (items : Nat)
  | int (value : BitVec P.intSize)
  | entry (index : Nat) (found : Option (Key κ × Value P))
  deriving DecidableEq

namespace Hashtable

/-- The key and the value of a live item. -/
def binding (t : Hashtable P κ) (slot : Slot) : Option (Key κ × Value P) :=
  (t.item slot).name.map fun name => (t.key name, (t.item slot).value)

/-- A call returns its answer and the next state. -/
def apply (env : Env P κ) (t : Hashtable P κ) : Op P (Name κ) → Result (Reply P κ × Hashtable P κ)
  | .writeValue name value => do
      let (added, t) ← t.writeValue env name value
      .ok (.flag added, t)
  | .remove name => do
      let (removed, t) ← t.remove env name
      .ok (.flag removed, t)
  | .readValue name => .ok (.value (t.readValue env name), t)
  | .exists_ name => .ok (.flag (t.exists_ env name), t)
  | .fetchValueHashes name hashes =>
      .ok (.value ((t.fetchValueHashes env name hashes).map fun slot => (t.item slot).value), t)
  | .nitems => .ok (.count t.nitems, t)
  | .inc name => do
      let (value, t) ← t.inc env name
      .ok (.int value, t)
  | .dec name => do
      let (value, t) ← t.dec env name
      .ok (.int value, t)
  | .enumNext index =>
      let (index, slot) := t.enumNext index
      .ok (.entry index (slot.bind t.binding), t)

/-- The calls of a list, one after the other, with keys of the caller. The result has their answers. -/
def replay (env : Env P κ) (t : Hashtable P κ) : List (Op P (Key κ)) → Result (List (Reply P κ) × Hashtable P κ)
  | [] => .ok ([], t)
  | op :: ops => do
      let (reply, t) ← t.apply env (op.map .own)
      let (replies, t) ← t.replay env ops
      .ok (reply :: replies, t)

/-- A caller may pass its own objects, and pointers to bytes below the watermark of the pool. -/
def Readable (t : Hashtable P κ) : Name κ → Prop
  | .own _ | .emptyString => True
  | .pooled address => t.pool.buffer ≤ address ∧ address - t.pool.buffer < t.pool.size

end Hashtable

/-- An event shows a call with the keys that its names designate, and the answer. -/
abbrev Event (P : Platform) (κ : Type) := Op P (Key κ) × Reply P κ

/-- A step is one call that returns. -/
inductive Step (env : Env P κ) : Hashtable P κ → Event P κ → Hashtable P κ → Prop where
  | call {t t' : Hashtable P κ} {op : Op P (Name κ)} {reply : Reply P κ}
      (readable : ∀ name, op.name? = some name → t.Readable name)
      (returns : t.apply env op = .ok (reply, t')) : Step env t (op.map t.key, reply) t'

abbrev Run (env : Env P κ) := Transition.Run (Step env)

/-- A table is reachable when a run of returning calls leads to it from `coucal_new`. -/
def Reachable (env : Env P κ) (t : Hashtable P κ) : Prop :=
  ∃ initialSize created events,
    Hashtable.new env initialSize = some created ∧ Run env created events t

/-- One more call leads to a reachable table. -/
theorem Reachable.step {env : Env P κ} {t t' : Hashtable P κ} {event : Event P κ} (reachable : Reachable env t)
    (step : Step env t event t') : Reachable env t' := by
  obtain ⟨initialSize, created, events, new, run⟩ := reachable
  exact ⟨initialSize, created, _, new, run.snoc step⟩

/-- Calls of a list that are steps of a system form a run of it. -/
theorem Hashtable.replay_steps {env : Env P κ} {step : Hashtable P κ → Event P κ → Hashtable P κ → Prop}
    {ops : List (Op P (Key κ))} {t t' : Hashtable P κ} {replies : List (Reply P κ)}
    (each : ∀ op ∈ ops, ∀ s reply s', s.apply env (op.map .own) = .ok (reply, s') → step s (op, reply) s')
    (replayed : t.replay env ops = .ok (replies, t')) : Transition.Run step t (ops.zip replies) t' := by
  induction ops generalizing t replies with
  | nil =>
      cases replayed
      exact .nil _
  | cons op ops ih =>
      obtain ⟨⟨reply, next⟩, returns, rest⟩ := Outcome.bind_eq_ok.mp replayed
      obtain ⟨⟨replies', last⟩, replayed', same⟩ := Outcome.bind_eq_ok.mp rest
      cases same
      exact .cons (each op List.mem_cons_self _ _ _ returns)
        (ih (fun op member => each op (List.mem_cons_of_mem _ member)) replayed')

/-- A call with a key of the caller shows its key. -/
theorem Op.map_key_own (t : Hashtable P κ) (op : Op P (Key κ)) : (op.map .own).map t.key = op := by
  cases op <;> rfl

/-- A caller may pass its own objects. -/
theorem Op.readable_own (t : Hashtable P κ) (op : Op P (Key κ)) :
    ∀ name, (op.map .own).name? = some name → t.Readable name := by
  intro name passed
  cases op <;> cases passed <;> trivial

/-- Calls with keys of the caller form a run. -/
theorem Hashtable.replay_run {env : Env P κ} {ops : List (Op P (Key κ))} {t t' : Hashtable P κ}
    {replies : List (Reply P κ)} (replayed : t.replay env ops = .ok (replies, t')) :
    Run env t (ops.zip replies) t' := by
  refine replay_steps (fun op _ s reply s' returned => ?_) replayed
  have step := Step.call (op.readable_own s) returned
  rwa [op.map_key_own s] at step

/-- The calls of a list on a table that `coucal_new` has made. -/
def Hashtable.session (env : Env P κ) (initialSize : Nat) (ops : List (Op P (Key κ))) :
    Option (List (Reply P κ) × Hashtable P κ) :=
  (Hashtable.new env initialSize).bind fun t => (t.replay env ops).toOption

theorem Hashtable.session_run {env : Env P κ} {initialSize : Nat} {ops : List (Op P (Key κ))}
    {replies : List (Reply P κ)} {t : Hashtable P κ}
    (completed : Hashtable.session env initialSize ops = some (replies, t)) :
    ∃ created, Hashtable.new env initialSize = some created ∧ Run env created (ops.zip replies) t := by
  obtain ⟨created, new, rest⟩ := Option.bind_eq_some_iff.mp completed
  exact ⟨created, new, replay_run (Outcome.toOption_eq_some.mp rest)⟩

/-- The duplication handler never returns NULL. -/
def Env.DupReturns (env : Env P κ) : Prop :=
  ∀ dup, env.dup = some dup → ∀ count key, dup count key ≠ none

/-- The duplication handler does not return NULL when it is called for this key now. -/
def Hashtable.Grants (env : Env P κ) (t : Hashtable P κ) (name : Name κ) : Prop :=
  ∀ dup, env.dup = some dup → dup t.calls.length (t.key name) ≠ none

theorem Env.DupReturns.grants {env : Env P κ} (returns : env.DupReturns) (t : Hashtable P κ) (name : Name κ) :
    t.Grants env name := fun dup handler => returns dup handler _ _

/-- The name and the value of an entry that a call adds when the key is absent. -/
def Op.adds? {ν : Type} : Op P ν → Option (ν × Value P)
  | .writeValue name value => some (name, value)
  | .inc name => some (name, 1)
  | .dec name => some (name, -1)
  | .remove _ | .readValue _ | .exists_ _ | .fetchValueHashes .. | .nitems | .enumNext _ => none

/-- A call that adds an entry gets a duplicate of its key. -/
def Hashtable.GrantsCall (env : Env P κ) (t : Hashtable P κ) (op : Op P (Name κ)) : Prop :=
  ∀ name value, op.adds? = some (name, value) → t.locate env name (t.calcHashes env name) = none →
    t.Grants env name

theorem Env.DupReturns.grantsCall {env : Env P κ} (returns : env.DupReturns) (t : Hashtable P κ)
    (op : Op P (Name κ)) : t.GrantsCall env op := fun name _ _ _ => returns.grants t name

/-- A call that returns, and that gets a duplicate of its key if it adds an entry. -/
inductive GrantedStep (env : Env P κ) : Hashtable P κ → Event P κ → Hashtable P κ → Prop where
  | call {t t' : Hashtable P κ} {op : Op P (Name κ)} {reply : Reply P κ}
      (readable : ∀ name, op.name? = some name → t.Readable name) (granted : t.GrantsCall env op)
      (returns : t.apply env op = .ok (reply, t')) : GrantedStep env t (op.map t.key, reply) t'

/-- When the duplication handler never returns NULL, each step gets the duplicate that it needs. -/
theorem Step.granted {env : Env P κ} {t t' : Hashtable P κ} {event : Event P κ} (returns : env.DupReturns)
    (step : Step env t event t') : GrantedStep env t event t' := by
  cases step with
  | call readable returned => exact .call readable (returns.grantsCall t _) returned

/-- Calls form a run in which each addition gets its duplicate, when the handler returns one for each key of an
addition. -/
theorem Hashtable.replay_granted {env : Env P κ} {ops : List (Op P (Key κ))} {t t' : Hashtable P κ}
    {replies : List (Reply P κ)}
    (grants : ∀ dup, env.dup = some dup → ∀ op ∈ ops, ∀ key value, op.adds? = some (key, value) →
      ∀ count, dup count key ≠ none)
    (replayed : t.replay env ops = .ok (replies, t')) :
    Transition.Run (GrantedStep env) t (ops.zip replies) t' := by
  refine replay_steps (fun op member s reply s' returned => ?_) replayed
  have granted : s.GrantsCall env (op.map .own) := by
    intro name value adds _ dup handler
    cases op with
    | writeValue | inc | dec =>
        cases adds
        exact grants dup handler _ member _ _ rfl _
    | remove | readValue | exists_ | fetchValueHashes | nitems | enumNext => cases adds
  have step := GrantedStep.call (op.readable_own s) granted returned
  rwa [op.map_key_own s] at step

/-- The documented contract of the key handlers: the comparison is an equivalence under which equal
keys have equal hashes, and a duplicate is an equal key. -/
structure Env.Lawful (env : Env P κ) : Prop where
  refl : ∀ key, env.equals key key = true
  symm : ∀ a b, env.equals a b = true → env.equals b a = true
  trans : ∀ a b c, env.equals a b = true → env.equals b c = true → env.equals a c = true
  hash : ∀ a b, env.equals a b = true → env.hash a = env.hash b
  dup : ∀ dup, env.dup = some dup → ∀ count key,
    ∃ copy, dup count key = some copy ∧ env.equals copy key = true

/-- A table with the pool has no handler that returns NULL. -/
theorem Env.dupReturns_of_pool {env : Env P κ} (pool : env.dup = none) : env.DupReturns := by
  intro dup handler
  rw [pool] at handler
  cases handler

/-- The default handlers keep strings in the pool and compare them. The hash function is a parameter. -/
def Env.strings (hash : Key κ → Hashkeys P) (freeValue : Bool) (alloc : Nat → Nat) [DecidableEq κ] : Env P κ where
  dup := none
  hash
  equals a b := a = b
  freeValue
  alloc

/-- The default handlers are lawful with every hash function. -/
theorem Env.strings_lawful [DecidableEq κ] (hash : Key κ → Hashkeys P) (freeValue : Bool) (alloc : Nat → Nat) :
    (Env.strings hash freeValue alloc).Lawful where
  refl _ := decide_eq_true rfl
  symm _ _ same := decide_eq_true (of_decide_eq_true same).symm
  trans _ _ _ first second := decide_eq_true ((of_decide_eq_true first).trans (of_decide_eq_true second))
  hash _ _ same := congrArg hash (of_decide_eq_true same)
  dup _ handler := nomatch handler

/-- Strings that have their lengths as hashes, so that many of them collide. -/
def Env.lengths : Env Platform.lp64 Empty :=
  Env.strings (fun key => match key with
    | .string text => ⟨BitVec.ofNat 32 text.strlen, BitVec.ofNat 32 (text.strlen / 2)⟩) false fun count =>
      4096 * (count + 1)

/-- The same strings under a duplication handler that returns NULL for one of them. -/
def Env.refusing (refused : Key Empty) : Env Platform.lp64 Empty :=
  { Env.lengths with dup := some fun _ key => if key = refused then none else some key }

/-- The calls that add no refused key get their duplicates. -/
theorem Hashtable.replay_refusing {refused : Key Empty} {ops : List (Op Platform.lp64 (Key Empty))}
    {t t' : Hashtable Platform.lp64 Empty} {replies : List (Reply Platform.lp64 Empty)}
    (others : ∀ op ∈ ops, op.adds?.map Prod.fst ≠ some refused)
    (replayed : t.replay (Env.refusing refused) ops = .ok (replies, t')) :
    Transition.Run (GrantedStep (Env.refusing refused)) t (ops.zip replies) t' := by
  refine replay_granted ?_ replayed
  rintro dup ⟨⟩ op member key value adds count
  have other : key ≠ refused := fun same => others op member (by rw [adds, same]; rfl)
  dsimp only
  rw [if_neg other]
  exact Option.some_ne_none key

/-- A lawful duplication handler never returns NULL. -/
theorem Env.Lawful.dupReturns {env : Env P κ} (lawful : env.Lawful) : env.DupReturns := by
  intro dup handler count key
  obtain ⟨copy, returned, -⟩ := lawful.dup dup handler count key
  simp [returned]

end Coucal
