import Coucal.Construction.Harness

namespace Coucal

variable {P : Platform} {κ : Type}

/-- The kinds of the rows of the benchmark. The row `DO_END` is the end of the list. -/
inductive BenchType where
  | doAdd
  | doDel
  | doDryAdd
  | doDryDel
  | testAdd
  | testDel
  deriving Repr, DecidableEq

/-- A row of the benchmark visits the keys whose numbers have this remainder. -/
structure BenchRow where
  type : BenchType
  modulus : Nat
  offset : Nat

/-- The rows of the benchmark. -/
def bench : List BenchRow := [
  ⟨.doAdd, 4, 0⟩,
  ⟨.testAdd, 4, 0⟩,
  ⟨.testDel, 4, 1⟩,
  ⟨.testDel, 4, 2⟩,
  ⟨.testDel, 4, 3⟩,
  ⟨.doDryDel, 4, 1⟩,
  ⟨.doDryDel, 4, 2⟩,
  ⟨.doDryDel, 4, 3⟩,
  ⟨.doAdd, 4, 1⟩,
  ⟨.doDryAdd, 4, 1⟩,
  ⟨.testAdd, 4, 0⟩,
  ⟨.testAdd, 4, 1⟩,
  ⟨.testDel, 4, 2⟩,
  ⟨.testDel, 4, 3⟩,
  ⟨.doAdd, 4, 2⟩,
  ⟨.doDryDel, 4, 3⟩,
  ⟨.doAdd, 4, 3⟩,
  ⟨.doDel, 4, 3⟩,
  ⟨.testAdd, 4, 0⟩,
  ⟨.testAdd, 4, 1⟩,
  ⟨.testAdd, 4, 2⟩,
  ⟨.testDel, 4, 3⟩,
  ⟨.doDel, 4, 0⟩,
  ⟨.doDel, 4, 1⟩,
  ⟨.doDel, 4, 2⟩,
  -- empty here
  ⟨.testDel, 1, 0⟩,
  ⟨.doAdd, 4, 0⟩,
  ⟨.doAdd, 4, 1⟩,
  ⟨.doAdd, 4, 2⟩,
  ⟨.doDel, 42, 0⟩,
  ⟨.testDel, 42, 0⟩,
  ⟨.testAdd, 42, 2⟩]

/-- The value of the key of a number. A `long` has the width of a pointer. -/
def expected (P : Platform) (i : Nat) : Value P := BitVec.ofNat P.wordSize i * 1664525 + 1013904223

/-- `%ld` of `snprintf` -/
def printLong {width : Nat} (number : BitVec width) : List UInt8 :=
  if number.msb then 45 :: Decimal.print (-number).toNat else Decimal.print number.toNat

/-- The key of a number when no keys are read from a file. The buffer holds it. -/
def benchName (P : Platform) (i : Nat) : CString :=
  CString.read (ascii "http://www.example.com/website/sample/for/hashtable/" ++
    (printLong (BitVec.ofNat P.wordSize i) ++ (ascii "/index.html?foo=" ++
      (printLong (expected P i) ++ ascii "&bar"))))

/-- The key of a number. -/
def benchKey (P : Platform) (strings : Option (Nat → CString)) (i : Nat) : Key κ :=
  .string ((strings.getD (benchName P)) i)

/-- The writes that a pass repeats. -/
def repeatWrite (env : Env P κ) (name : Name κ) (expected : Value P) (hashtable : Hashtable P κ) :
    Checked (Hashtable P κ) :=
  Outcome.forUpTo (fun _ hashtable => do
    let (_, hashtable) ← call (hashtable.write env name expected)
    .ok hashtable) 32 hashtable

/-- The removals that a pass repeats. -/
def repeatRemove (env : Env P κ) (name : Name κ) (hashtable : Hashtable P κ) : Checked (Hashtable P κ) :=
  Outcome.forUpTo (fun _ hashtable => do
    let (_, hashtable) ← call (hashtable.remove env name)
    .ok hashtable) 32 hashtable

/-- One pass of the inner loop of `coucal_test`. -/
def benchPass (env : Env P κ) (strings : Option (Nat → CString)) (type : BenchType) (i : Nat)
    (hashtable : Hashtable P κ) : Checked (Hashtable P κ) := do
  let name : Name κ := .own (benchKey P strings i)
  let expected := expected P i
  match type with
  | .doAdd | .doDryAdd =>
      let (result, hashtable) ← call (hashtable.write env name expected)
      let hashtable ← repeatWrite env name expected hashtable
      -- revert logic
      check ((if type = .doDryAdd then !result else result) = true)
      .ok hashtable
  | .doDel | .doDryDel =>
      let (result, hashtable) ← call (hashtable.remove env name)
      let hashtable ← repeatRemove env name hashtable
      -- revert logic
      check ((if type = .doDryDel then !result else result) = true)
      .ok hashtable
  | .testAdd | .testDel =>
      let (result, value) := hashtable.readptr env name
      check (¬ (type = .testAdd ∧ result = true ∧ value ≠ expected))
      -- revert logic
      check ((if type = .testDel then !result else result) = true)
      .ok hashtable

/-- A row of `coucal_test` visits the numbers below the count from the offset on, a modulus apart. -/
def benchRow (env : Env P κ) (strings : Option (Nat → CString)) (count : Nat) (row : BenchRow)
    (hashtable : Hashtable P κ) : Checked (Hashtable P κ) :=
  Outcome.forUpTo (fun pass => benchPass env strings row.type (row.offset + pass * row.modulus))
    ((count - row.offset + (row.modulus - 1)) / row.modulus) hashtable

/-- The rows of `coucal_test`, one after the other. -/
def benchRows (env : Env P κ) (strings : Option (Nat → CString)) (count : Nat) :
    List BenchRow → Hashtable P κ → Checked (Hashtable P κ)
  | [], hashtable => .ok hashtable
  | row :: rows, hashtable => do
      let hashtable ← benchRow env strings count row hashtable
      benchRows env strings count rows hashtable

/-- `coucal_test`, after it has read the number of keys, or the keys from a file. It fails without keys. -/
def coucalTest (env : Env P κ) (strings : Option (Nat → CString)) (count : Nat) : Checked Unit := do
  check (0 < count)
  let hashtable ← call ((Hashtable.new env 0).elim (.error .fault) .ok)
  let hashtable ← benchRows env strings count bench hashtable
  let _ ← call (hashtable.delete env)
  .ok ()

end Coucal
