import Coucal.Proof.Harness

namespace Coucal

open Driven Outcome

variable {P : Platform} {κ : Type} [DecidableEq κ] {hash : Key κ → Hashkeys P} {alloc : Nat → Nat}

/-- The numbers of the keys of a small harness fit in an `int`, which has at least 16 bits. -/
theorem Harness.ok_of_small {harness : Harness} (noNul : (0 : UInt8) ∉ harness.literal)
    (few : harness.keys ≤ 2 ^ 16) (int : 16 ≤ P.intSize) : harness.Ok P :=
  ⟨noNul, few.trans (Nat.pow_le_pow_right Nat.two_pos int)⟩

theorem fuzzHarness_ok (int : 16 ≤ P.intSize) : fuzzHarness.Ok P :=
  Harness.ok_of_small (by decide) (by decide) int

theorem oracleHarness_ok (int : 16 ≤ P.intSize) : oracleHarness.Ok P :=
  Harness.ok_of_small (by decide) (by decide) int

/-- The numbers that the fuzzing harness stores are at most the number of calls so far. -/
structure Fuzzed (hash : Key κ → Hashkeys P) (alloc : Nat → Nat) (calls : Nat) (fuzz : Fuzz P κ) : Prop where
  tracks : ∃ map, fuzzHarness.Tracks hash alloc fuzz.state.1 fuzz.state.2 map
  value_le : ∀ kid, (fuzz.state.2.value kid).toNat ≤ calls
  counter_le : fuzz.counter.toNat ≤ calls

theorem toNat_succ_le (word : Value P) {calls : Nat} (below : word.toNat ≤ calls) : (word + 1).toNat ≤ calls + 1 := by
  rw [BitVec.toNat_add]
  exact (Nat.mod_le _ _).trans (Nat.add_le_add below (Nat.mod_le 1 _))

/-- A written value keeps the bound. -/
theorem Shadow.write_value_le {shadow : Shadow P} {bound kid : Nat} {value : Value P}
    (values : ∀ other, (shadow.value other).toNat ≤ bound) (small : value.toNat ≤ bound) (other : Nat) :
    ((shadow.write kid value).value other).toNat ≤ bound := by
  unfold Shadow.write
  dsimp only
  rw [Function.update_apply]
  split
  next => exact small
  next => exact values other

/-- The call of a pass of the fuzzing loop that may change the table. -/
def fuzzCall (opcode keyId : UInt8) (counter : Value P) : List (Op P (Key κ)) :=
  let op := opcode &&& 3
  let key : Key κ := fuzzHarness.key (keyId.toNat % fuzzHarness.keys)
  if op = 0 then [.writeValue key (counter + 1)]
  else if op = 1 then [.remove key]
  else if op = 2 then []
  else [.inc key]

/-- The calls of the fuzzing loop that may change the table. Each write has the next number. -/
def fuzzCalls : List UInt8 → Value P → List (Op P (Key κ))
  | opcode :: keyId :: data, counter =>
      fuzzCall opcode keyId counter ++ fuzzCalls data (if opcode &&& 3 = 0 then counter + 1 else counter)
  | _, _ => []

/-- Each pass of the fuzzing loop makes its call and passes its checks. -/
theorem fuzzStep_spec {calls : Nat} {fuzz : Fuzz P κ} (opcode keyId : UInt8) (int : 16 ≤ P.intSize)
    (fuzzed : Fuzzed hash alloc calls fuzz) (few : calls + 1 < 2 ^ (P.intSize - 1)) :
    Follows (Hashtable.makes (Env.strings hash false alloc)) .table (fuzzCall opcode keyId fuzz.counter) fuzz.state.1
      (fuzzStep (Env.strings hash false alloc) opcode keyId fuzz) fun next h => next.state.1 = h ∧
        next.counter = (if opcode &&& 3 = 0 then fuzz.counter + 1 else fuzz.counter) ∧
        Fuzzed hash alloc (calls + 1) next := by
  obtain ⟨⟨map, tracks⟩, values, counter⟩ := fuzzed
  have ok := fuzzHarness_ok (P := P) int
  have inside : keyId.toNat % fuzzHarness.keys < fuzzHarness.keys := Nat.mod_lt _ (by decide)
  have later : ∀ kid, (fuzz.state.2.value kid).toNat ≤ calls + 1 := fun kid => (values kid).trans (Nat.le_succ _)
  unfold fuzzStep fuzzCall
  dsimp only
  split
  next =>
    refine (Harness.write_spec tracks ok inside _).andThen ?_
    rintro _ h ⟨rfl, map, after⟩
    rw [Harness.counted_of after, ok_bind]
    exact ⟨_, rfl, rfl, rfl, ⟨map, after⟩, Shadow.write_value_le later (toNat_succ_le _ counter),
      toNat_succ_le _ counter⟩
  next =>
    have rest : ∀ (state : Hashtable P κ × Shadow P) (h : Hashtable P κ) (shadow : Shadow P),
        (∀ kid, (shadow.value kid).toNat ≤ calls + 1) → fuzzHarness.After hash alloc shadow state h →
        ∃ next : Fuzz P κ, (Harness.counted state >>= fun state => .ok ⟨state, fuzz.counter⟩) = .ok next ∧
          next.state.1 = h ∧ next.counter = fuzz.counter ∧ Fuzzed hash alloc (calls + 1) next := by
      rintro _ h shadow values ⟨rfl, map, after⟩
      rw [Harness.counted_of after, ok_bind]
      exact ⟨_, rfl, rfl, rfl, ⟨map, after⟩, values, counter.trans (Nat.le_succ _)⟩
    split
    next => exact (Harness.remove_spec tracks ok inside).andThen fun state h => rest state h _ later
    next =>
      split
      next =>
        rw [Harness.lookup_spec tracks inside]
        obtain ⟨next, same, facts⟩ := rest _ _ _ later ⟨rfl, map, tracks⟩
        rw [ok_bind, same]
        exact .done facts
      next =>
        have value : ∀ other, ((fuzz.state.2.inc (keyId.toNat % fuzzHarness.keys)).value other).toNat ≤ calls + 1 := by
          refine Shadow.write_value_le later ?_
          split
          next => exact toNat_succ_le _ (values _)
          next => exact (Nat.mod_le _ _).trans (Nat.le_add_left _ _)
        exact (Harness.inc_spec tracks ok inside ((value _).trans_lt few)).andThen fun state h => rest state h _ value

/-- The fuzzing loop makes its calls and passes its checks on each input that is short enough for an `int`. -/
theorem fuzzLoop_spec {calls : Nat} {fuzz : Fuzz P κ} {data : List UInt8} (int : 16 ≤ P.intSize)
    (fuzzed : Fuzzed hash alloc calls fuzz) (few : calls + data.length / 2 < 2 ^ (P.intSize - 1)) :
    Follows (Hashtable.makes (Env.strings hash false alloc)) .table (fuzzCalls data fuzz.counter) fuzz.state.1
      (fuzzLoop (Env.strings hash false alloc) data fuzz)
      fun final h => final.state.1 = h ∧ ∃ map, fuzzHarness.Tracks hash alloc h final.state.2 map := by
  induction data using List.twoStepInduction generalizing calls fuzz with
  | nil => exact .done ⟨rfl, fuzzed.tracks⟩
  | singleton => exact .done ⟨rfl, fuzzed.tracks⟩
  | cons_cons opcode keyId data ih =>
      rw [List.length_cons, List.length_cons] at few
      refine (fuzzStep_spec opcode keyId int fuzzed (by omega)).bind ?_
      rintro next _ ⟨rfl, counter, after⟩
      rw [← counter]
      exact ih after (by omega)

/-- The differential fuzzing harness never finds a difference between a table and its reference model. On an input
with less calls than an `int` can count it completes when its calls return, and otherwise ends with the failure of
the first call that does not. -/
theorem fuzz_never_diverges (hash : Key κ → Hashkeys P) (alloc : Nat → Nat) {data : List UInt8}
    (int : 16 ≤ P.intSize) (short : data.length / 2 < 2 ^ (P.intSize - 1)) :
    llvmFuzzerTestOneInput (Env.strings hash false alloc) data =
        carried (Env.strings hash false alloc) (fuzzCalls data 0) ∧
      llvmFuzzerTestOneInput (Env.strings hash false alloc) data ≠ .error .check := by
  have outcome : llvmFuzzerTestOneInput (Env.strings hash false alloc) data =
      carried (Env.strings hash false alloc) (fuzzCalls data 0) := by
    unfold llvmFuzzerTestOneInput
    refine carried_of_follows fun created new => ?_
    have start : Fuzzed hash alloc 0 ⟨(created, Shadow.empty P), 0⟩ :=
      ⟨⟨∅, .start (Shows.new new)⟩, fun _ => Nat.le_of_eq (Nat.zero_mod _), Nat.le_of_eq (Nat.zero_mod _)⟩
    refine (fuzzLoop_spec int start (by omega)).andThen ?_
    rintro ⟨⟨_, shadow⟩, counter⟩ h ⟨rfl, map, tracks⟩
    exact ⟨(), Harness.finish_eq tracks (fuzzHarness_ok int), trivial⟩
  exact ⟨outcome, outcome ▸ carried_ne_check _ _⟩

/-- A write, an increment, two lookups, a removal and a lookup of one key pass. -/
theorem fuzz_never_diverges_lengths :
    ∃ data : List UInt8, data.length = 12 ∧
      llvmFuzzerTestOneInput (Env.strings Env.lengths.hash false Env.lengths.alloc) data = .ok () ∧
      llvmFuzzerTestOneInput (Env.strings Env.lengths.hash false Env.lengths.alloc) data =
        carried (Env.strings Env.lengths.hash false Env.lengths.alloc) (fuzzCalls data 0) := by
  obtain ⟨data, length, passes⟩ : ∃ data : List UInt8, data.length = 12 ∧
      llvmFuzzerTestOneInput (Env.strings Env.lengths.hash false Env.lengths.alloc) data = .ok () :=
    ⟨[0, 7, 3, 7, 2, 7, 2, 8, 1, 7, 2, 7], rfl, by decide +kernel⟩
  have short : data.length / 2 < 2 ^ (Platform.lp64.intSize - 1) := by
    rw [length]
    decide
  exact ⟨data, length, passes, (fuzz_never_diverges Env.lengths.hash Env.lengths.alloc (by decide) short).1⟩

/-- The call of a pass of the oracle test that may change the table, and the state of the generator after the pass. -/
def oracleCall (rng : BitVec 32) : List (Op P (Key κ)) × BitVec 32 :=
  let (next, rng) := oracleNext rng
  let key : Key κ := oracleHarness.key (next.toNat % oracleHarness.keys)
  let (next, rng) := oracleNext rng
  let op := next.toNat % 3
  if op = 0 then
    let (next, rng) := oracleNext rng
    ([.writeValue key ((next ||| 1).setWidth P.wordSize)], rng)
  else (if op = 1 then [.remove key] else [], rng)

/-- The calls of the oracle test that may change the table. -/
def oracleCalls : Nat → BitVec 32 → List (Op P (Key κ))
  | 0, _ => []
  | rounds + 1, rng => (oracleCall rng).1 ++ oracleCalls rounds (oracleCall (P := P) (κ := κ) rng).2

section Oracle

variable {h : Hashtable P κ} {shadow : Shadow P} {map : FiniteMap (Env.strings_lawful hash false alloc)}

/-- Each pass of the loop of the oracle test makes its call and passes its checks. -/
theorem oracleStep_spec (rng : BitVec 32) (int : 16 ≤ P.intSize) (tracks : oracleHarness.Tracks hash alloc h shadow map) :
    Follows (Hashtable.makes (Env.strings hash false alloc)) .table (oracleCall rng).1 h
      (oracleStep (Env.strings hash false alloc) (h, shadow) rng) fun next h' =>
        next.2 = (oracleCall (P := P) (κ := κ) rng).2 ∧ ∃ shadow', oracleHarness.After hash alloc shadow' next.1 h' := by
  have ok := oracleHarness_ok (P := P) int
  unfold oracleStep oracleCall
  dsimp only
  generalize inside : (oracleNext rng).1.toNat % oracleHarness.keys = kid
  have inside : kid < oracleHarness.keys := inside ▸ Nat.mod_lt _ (by decide)
  split
  next =>
    refine (Harness.write_spec tracks ok inside _).andThen ?_
    rintro _ h' ⟨rfl, map', after⟩
    rw [Harness.counted_of after, ok_bind]
    exact ⟨_, rfl, rfl, _, rfl, map', after⟩
  next =>
    split
    next =>
      refine (Harness.remove_spec tracks ok inside).andThen ?_
      rintro _ h' ⟨rfl, map', after⟩
      rw [Harness.counted_of after, ok_bind]
      exact ⟨_, rfl, rfl, _, rfl, map', after⟩
    next =>
      rw [Harness.lookup_spec tracks inside, ok_bind, Harness.counted_of tracks, ok_bind]
      exact .done ⟨rfl, _, rfl, map, tracks⟩

/-- The loop of the oracle test makes its calls and passes its checks. -/
theorem oracleLoop_spec (int : 16 ≤ P.intSize) (rounds : Nat) (rng : BitVec 32)
    (tracks : oracleHarness.Tracks hash alloc h shadow map) :
    Follows (Hashtable.makes (Env.strings hash false alloc)) .table (oracleCalls rounds rng) h
      (oracleLoop (Env.strings hash false alloc) rounds (h, shadow) rng)
      fun state h' => ∃ shadow', oracleHarness.After hash alloc shadow' state h' := by
  induction rounds generalizing h shadow map rng with
  | zero => exact .done ⟨shadow, rfl, map, tracks⟩
  | succ rounds ih =>
      have step := oracleStep_spec rng int tracks
      rw [oracleCalls, oracleLoop]
      generalize oracleStep (Env.strings hash false alloc) (h, shadow) rng = program at step
      generalize oracleCall (P := P) (κ := κ) rng = made at step
      refine step.bind ?_
      rintro ⟨_, rng'⟩ h' ⟨rfl, shadow', rfl, map', after⟩
      exact ih _ after

end Oracle

/-- The oracle test never finds a difference between a table and its reference model, whatever the seed of its
generator and the number of its calls. It fails a check only when one of its own arrays gets no memory, completes
when its calls return, and otherwise ends with the failure of the first call that does not. -/
theorem oracle_never_diverges (hash : Key κ → Hashkeys P) (alloc calloc : Nat → Nat) (rounds : Nat) (seed : BitVec 32)
    (int : 16 ≤ P.intSize) :
    (coucalTestOracle (Env.strings hash false alloc) calloc rounds seed = do
      check (calloc 0 ≠ 0 ∧ calloc 1 ≠ 0)
      carried (Env.strings hash false alloc) (oracleCalls rounds seed)
      check (calloc 2 ≠ 0)) ∧
    (calloc 0 ≠ 0 → calloc 1 ≠ 0 → calloc 2 ≠ 0 →
      coucalTestOracle (Env.strings hash false alloc) calloc rounds seed ≠ .error .check) := by
  have outcome : coucalTestOracle (Env.strings hash false alloc) calloc rounds seed = (do
      check (calloc 0 ≠ 0 ∧ calloc 1 ≠ 0)
      carried (Env.strings hash false alloc) (oracleCalls rounds seed)
      check (calloc 2 ≠ 0)) := by
    unfold coucalTestOracle carried
    cases new : Hashtable.new (Env.strings hash false alloc) 0 with
    | none => rfl
    | some created =>
        have loop := oracleLoop_spec int rounds seed (.start (Shows.new new))
        unfold Follows at loop
        refine congrArg _ (funext fun _ => ?_)
        dsimp only [Option.elim_some]
        cases made : drive (Hashtable.makes (Env.strings hash false alloc)) (oracleCalls rounds seed) created with
        | error failure =>
            rw [made] at loop
            dsimp only at loop
            change oracleLoop _ rounds (created, Shadow.empty P) seed >>= _ = _
            rw [loop]
            rfl
        | ok final =>
            rw [made] at loop
            obtain ⟨_, returned, shadow, rfl, map, tracks⟩ := loop
            change oracleLoop _ rounds (created, Shadow.empty P) seed >>= _ = _
            rw [returned, ok_bind, Harness.finish_eq tracks (oracleHarness_ok int)]
            exact bind_pure (check (calloc 2 ≠ 0))
  refine ⟨outcome, fun first second third => ?_⟩
  rw [outcome, check_of ⟨first, second⟩, ok_bind, check_of third]
  have passes := carried_ne_check (Env.strings hash false alloc) (oracleCalls rounds seed)
  cases made : carried (Env.strings hash false alloc) (oracleCalls rounds seed) with
  | ok => nofun
  | error stop =>
      rw [made] at passes
      exact passes

/-- Five calls from the seed of the test pass. -/
theorem oracle_never_diverges_lengths :
    ∃ rounds : Nat, 0 < rounds ∧
      coucalTestOracle (Env.strings Env.lengths.hash false Env.lengths.alloc) (fun _ => 8) rounds 0x01234567 = .ok () ∧
      coucalTestOracle (Env.strings Env.lengths.hash false Env.lengths.alloc) (fun _ => 8) rounds 0x01234567 ≠
        .error .check := by
  obtain ⟨rounds, positive, passes⟩ : ∃ rounds : Nat, 0 < rounds ∧
      coucalTestOracle (Env.strings Env.lengths.hash false Env.lengths.alloc) (fun _ => 8) rounds 0x01234567 = .ok () :=
    ⟨5, by decide, by decide +kernel⟩
  exact ⟨rounds, positive, passes, (oracle_never_diverges Env.lengths.hash Env.lengths.alloc (fun _ => 8) rounds
    0x01234567 (by decide)).2 (by decide) (by decide) (by decide)⟩

end Coucal
