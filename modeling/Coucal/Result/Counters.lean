import Coucal.Abstract.FiniteMap
import Coucal.Library.Words
import Coucal.Proof.Handlers

namespace Coucal

variable {P : Platform} {κ : Type} {env : Env P κ}

/-- The value that was last written to a key since its removal, and the increments and decrements since
then. -/
structure Tally (P : Platform) where
  written : Value P
  incs : Nat
  decs : Nat

/-- A key that was never written counts from zero. -/
def Tally.zero (P : Platform) : Tally P := ⟨0, 0, 0⟩

/-- The value of a counter wraps at the width of the word. -/
def Tally.value (tally : Tally P) : Value P :=
  tally.written + BitVec.ofNat P.wordSize tally.incs - BitVec.ofNat P.wordSize tally.decs

/-- What a call on a key does to the tally of that key. An absent key has none. -/
def Tally.next (past : Option (Tally P)) : Op P (Key κ) → Option (Tally P)
  | .writeValue _ value => some ⟨value, 0, 0⟩
  | .remove _ => none
  | .inc _ =>
      let tally := past.getD (Tally.zero P)
      some { tally with incs := tally.incs + 1 }
  | .dec _ =>
      let tally := past.getD (Tally.zero P)
      some { tally with decs := tally.decs + 1 }
  | .readValue _ | .exists_ _ | .fetchValueHashes .. | .nitems | .enumNext _ => past

/-- The tally of a key after some calls. It depends on the calls with an equal key only. -/
def Env.tally (env : Env P κ) (key : Key κ) (calls : List (Op P (Key κ))) : Option (Tally P) :=
  (calls.filter fun op => op.name?.any fun name => env.equals name key).foldl Tally.next none

/-- The counter of a key after some calls, zero for an absent key. -/
def Env.counter (env : Env P κ) (key : Key κ) (calls : List (Op P (Key κ))) : Value P :=
  ((env.tally key calls).map Tally.value).getD 0

theorem Env.tally_concat (env : Env P κ) (key : Key κ) (calls : List (Op P (Key κ))) (op : Op P (Key κ)) :
    env.tally key (calls ++ [op]) =
      if op.name?.any fun name => env.equals name key then Tally.next (env.tally key calls) op
      else env.tally key calls := by
  unfold Env.tally
  rw [List.filter_append, List.foldl_append, List.filter_singleton]
  cases op.name?.any fun name => env.equals name key <;> rfl

/-- An increment or a decrement adds one or minus one to the counter. -/
theorem Tally.value_next (past : Option (Tally P)) {op : Op P (Key κ)} {key : Key κ} {inc : Value P}
    (counts : Contents.Counts op key inc) :
    (Tally.next past op).map Tally.value = some ((past.map Tally.value).getD 0 + inc) := by
  have start : (past.map Tally.value).getD 0 = (past.getD (Tally.zero P)).value := by
    cases past with
    | some tally => rfl
    | none => simp [Tally.value, Tally.zero]
  rw [start]
  cases counts with
  | inc =>
      simp only [Tally.next, Option.map_some, Tally.value, BitVec.ofNat_add, BitVec.ofNat_eq_ofNat,
        BitVec.sub_eq_add_neg]
      congr 1
      ac_rfl
  | dec =>
      simp only [Tally.next, Option.map_some, Tally.value, BitVec.ofNat_add, BitVec.ofNat_eq_ofNat,
        BitVec.sub_eq_add_neg, BitVec.neg_add]
      congr 1
      ac_rfl

theorem Contents.Counts.name_eq {op : Op P (Key κ)} {key : Key κ} {inc : Value P}
    (counts : Contents.Counts op key inc) : op.name? = some key := by
  cases counts <;> rfl

theorem Contents.Counts.unique {op : Op P (Key κ)} {key key' : Key κ} {inc inc' : Value P}
    (counts : Contents.Counts op key inc) (counts' : Contents.Counts op key' inc') :
    key = key' ∧ inc = inc' := by
  cases counts <;> cases counts' <;> exact ⟨rfl, rfl⟩

section Map

variable {lawful : env.Lawful} {map map' : FiniteMap lawful}

/-- The map binds each key to its tally. -/
def FiniteMap.Tallied (calls : List (Op P (Key κ))) (map : FiniteMap lawful) : Prop :=
  ∀ key, map.find key = (env.tally key calls).map Tally.value

theorem FiniteMap.find_congr (map : FiniteMap lawful) {a b : Key κ} (equal : env.equals a b = true) :
    map.find a = map.find b := by
  unfold FiniteMap.find
  rw [FiniteMap.Represents.mk_eq.mpr equal]

/-- Each step of the map keeps the tallies. -/
theorem FiniteMap.Step.tallied {calls : List (Op P (Key κ))} {op : Op P (Key κ)} {reply : Reply P κ}
    (tallied : map.Tallied calls) (step : FiniteMap.Step lawful map (op, reply) map') :
    FiniteMap.Tallied (calls ++ [op]) map' := by
  intro other
  rw [env.tally_concat]
  cases step with
  | writeValue key value =>
      rw [FiniteMap.Represents.find_insert, tallied other, Op.name?, Option.any_some]
      split
      next => simp [Tally.next, Tally.value]
      next => rfl
  | remove key =>
      rw [FiniteMap.Represents.find_erase, tallied other, Op.name?, Option.any_some]
      split <;> rfl
  | count counts =>
      have named := counts.name_eq
      rw [FiniteMap.Represents.find_insert, tallied other, named, Option.any_some]
      split
      next equal => rw [Tally.value_next _ counts, map.find_congr equal, tallied other]
      next => rfl
  | readValue | exists_ | fetchValueHashes | nitems | enumNext =>
      rw [tallied other]
      split <;> rfl

/-- A run of the map from nothing keeps the tallies. -/
theorem FiniteMap.Run.tallied {events : List (Event P κ)} (run : FiniteMap.Run lawful ∅ events map) :
    map.Tallied (events.map Prod.fst) := by
  have start : (∅ : FiniteMap lawful).Tallied (([] : List (Event P κ)).map Prod.fst) := fun key => rfl
  refine run.history (fun past map => map.Tallied (past.map Prod.fst)) start
    fun past map event map' tallied step => ?_
  rw [List.map_append]
  exact step.tallied tallied

/-- An increment or a decrement answers with the new counter, converted to `int`. -/
theorem FiniteMap.Run.answer {before after : List (Event P κ)} {op : Op P (Key κ)} {reply : Reply P κ}
    {key : Key κ} {inc : Value P} (run : FiniteMap.Run lawful ∅ (before ++ (op, reply) :: after) map)
    (counts : Contents.Counts op key inc) :
    reply = .int ((env.counter key (before.map Prod.fst) + inc).setWidth P.intSize) := by
  obtain ⟨middle, front, back⟩ := run.of_append
  have tallied := FiniteMap.Run.tallied front key
  cases back with
  | cons step _ =>
      cases step with
      | count counts' =>
          obtain ⟨rfl, rfl⟩ := counts.unique counts'
          rw [tallied]
          rfl
      | writeValue | remove | readValue | exists_ | fetchValueHashes | nitems | enumNext => cases counts

end Map

/-- The map binds a key to the value that a search for it reads. -/
theorem FiniteMap.Represents.readValue_eq {lawful : env.Lawful} {map : FiniteMap lawful} {t : Hashtable P κ}
    (represents : map.Represents t.entries) (inv : Inv env t) (name : Name κ) :
    t.readValue env name = map.find (t.key name) := by
  obtain ⟨found, answers, read⟩ := Hashtable.readValue_answers inv name
  rw [read, represents.find_answer inv.keyed found answers]

/-- Each increment and each decrement returns the new counter of its key, read as a signed integer. -/
def Env.ReturnsCounters (env : Env P κ) (events : List (Event P κ)) : Prop :=
  ∀ before op reply after key inc, events = before ++ (op, reply) :: after → Contents.Counts op key inc →
    ∃ result, reply = .int result ∧
      result.toInt = (env.counter key (before.map Prod.fst ++ [op])).toInt

/-- Before each increment and each decrement the counter plus or minus one fits in `int`. -/
def Env.FitsCounters (env : Env P κ) (calls : List (Op P (Key κ))) : Prop :=
  ∀ before op after key inc, calls = before ++ op :: after → Contents.Counts op key inc →
    Words.Fits P.intSize (env.counter key before + inc)

theorem Env.counter_concat (lawful : env.Lawful) (calls : List (Op P (Key κ))) {op : Op P (Key κ)} {key : Key κ}
    {inc : Value P} (counts : Contents.Counts op key inc) :
    env.counter key (calls ++ [op]) = env.counter key calls + inc := by
  unfold Env.counter
  rw [env.tally_concat, counts.name_eq, Option.any_some, if_pos (lawful.refl key), Tally.value_next _ counts]
  rfl

/-- Under lawful handlers the table stores the counters of the calls in each run. The increments and decrements
return them exactly when they fit in `int`. -/
theorem Run.counters {created t : Hashtable P κ} {events : List (Event P κ)} (lawful : env.Lawful)
    (inv : Inv env created) (empty : created.entries = 0) (run : Run env created events t) :
    (∀ name, t.readValue env name = (env.tally (t.key name) (events.map Prod.fst)).map Tally.value) ∧
    (env.ReturnsCounters events ↔ env.FitsCounters (events.map Prod.fst)) := by
  have contents := Run.contents lawful.dupReturns inv run
  rw [empty] at contents
  obtain ⟨map, simulated, represents⟩ :
      ∃ map : FiniteMap lawful, FiniteMap.Run lawful ∅ events map ∧ map.Represents t.entries :=
    contents.simulated
  refine ⟨fun name => ?_, fun returned => ?_, fun fits => ?_⟩
  · rw [represents.readValue_eq (Run.inv lawful.dupReturns inv run),
      FiniteMap.Run.tallied simulated (t.key name)]
  · intro before op after key inc split counts
    obtain ⟨front, back, rfl, rfl, tail⟩ := List.map_eq_append_iff.mp split
    obtain ⟨⟨op, reply⟩, rest, rfl, rfl, rfl⟩ := List.map_eq_cons_iff.mp tail
    obtain ⟨result, answer, same⟩ := returned front op reply rest key inc rfl counts
    have answer' := FiniteMap.Run.answer simulated counts
    rw [answer, Reply.int.injEq] at answer'
    rw [answer', Env.counter_concat lawful _ counts] at same
    exact (Words.toInt_setWidth_eq_iff _).mp same
  · rintro before op reply after key inc rfl counts
    have fit := fits (before.map Prod.fst) op (after.map Prod.fst) key inc
      (by rw [List.map_append, List.map_cons]) counts
    refine ⟨_, FiniteMap.Run.answer simulated counts, ?_⟩
    rw [Env.counter_concat lawful _ counts]
    exact (Words.toInt_setWidth_eq_iff _).mpr fit

/-- In each run whose additions get their duplicates, under handlers that keep their contract, the table stores
the counters of the calls. The increments and decrements return them exactly when they fit in `int`. -/
theorem counters_return_iff {initialSize : Nat} {created t : Hashtable P κ} {events : List (Event P κ)}
    (consistent : env.Consistent) (new : Hashtable.new env initialSize = some created)
    (run : Transition.Run (GrantedStep env) created events t) :
    (∀ name, t.readValue env name = (env.tally (t.key name) (events.map Prod.fst)).map Tally.value) ∧
    (env.ReturnsCounters events ↔ env.FitsCounters (events.map Prod.fst)) := by
  have new' : Hashtable.new env.insist initialSize = some created := new
  obtain ⟨inv, empty, -⟩ := new_spec new'
  have counted := Run.counters consistent.lawful inv empty (run.mono fun _ _ _ step => step.insist)
  exact counted

/-- A counter that a write has set to minus one. -/
theorem counters_return_iff_lengths :
    ∃ (t : Hashtable Platform.lp64 Empty) (key : Key Empty),
      t.readValue Env.lengths (.own key) = some (-2) ∧
      Env.lengths.ReturnsCounters [(.writeValue key (-1), .flag true), (.dec key, .int (-2))] := by
  let key : Key Empty := .string (CString.read [97])
  have answers : (Hashtable.session Env.lengths 0 [.writeValue key (-1), .dec key]).map Prod.fst =
      some [.flag true, .int (-2)] := by
    decide +kernel
  obtain ⟨⟨_, t⟩, completed, rfl⟩ := Option.map_eq_some_iff.mp answers
  obtain ⟨created, new, run⟩ := Hashtable.session_run completed
  have lawful : Env.lengths.Lawful := Env.strings_lawful _ _ _
  obtain ⟨stored, returns⟩ := counters_return_iff lawful.consistent new
    (run.mono fun _ _ _ step => step.granted lawful.dupReturns)
  have tallied : (Env.lengths.tally key [.writeValue key (-1), .dec key]).map Tally.value = some (-2) := by
    decide +kernel
  refine ⟨t, key, (stored _).trans tallied, returns.mpr ?_⟩
  rintro before op after name inc split counts
  have fits : Words.Fits 32 (Env.lengths.counter key [.writeValue key (-1)] + -1) := by decide +kernel
  rcases before with _ | ⟨_, _ | ⟨_, _⟩⟩
  · cases split
    cases counts
  · cases split
    cases counts
    exact fits
  · simp at split

/-- An increment of the largest `int` returns the smallest one, although the value has more bits. -/
theorem increment_truncated :
    ∃ (created t : Hashtable Platform.lp64 Empty) (key : Key Empty),
      Hashtable.new Env.lengths 0 = some created ∧
      Run Env.lengths created [(.writeValue key 2147483647, .flag true), (.inc key, .int (-2147483648))] t ∧
      t.readValue Env.lengths (.own key) = some 2147483648 ∧
      ¬ Env.lengths.ReturnsCounters
        [(.writeValue key 2147483647, .flag true), (.inc key, .int (-2147483648))] := by
  let key : Key Empty := .string (CString.read [97])
  have answers : (Hashtable.session Env.lengths 0 [.writeValue key 2147483647, .inc key]).map
      (fun result => (result.1, result.2.readValue Env.lengths (.own key))) =
      some ([.flag true, .int (-2147483648)], some 2147483648) := by
    decide +kernel
  obtain ⟨⟨_, t⟩, completed, facts⟩ := Option.map_eq_some_iff.mp answers
  obtain ⟨replies, stored⟩ := Prod.mk.inj facts
  cases replies
  obtain ⟨created, new, run⟩ := Hashtable.session_run completed
  refine ⟨created, t, key, new, run, stored, fun returned => ?_⟩
  obtain ⟨result, answer, same⟩ := returned [_] (.inc key) _ [] key 1 rfl (.inc key)
  cases answer
  revert same
  decide +kernel

end Coucal
