import Coucal.Construction.Wrappers
import Coucal.Library.Decimal

namespace Coucal

variable {P : Platform} {κ : Type} {α : Type}

/-- A test program stops by a failure of the table, or by a failed check of its own. -/
inductive Stop where
  | table (failure : Failure)
  | check
  deriving Repr, DecidableEq

abbrev Checked := Except Stop

/-- A call of the table by a test program. -/
def call (result : Result α) : Checked α := result.mapError .table

/-- A check of a test program. It aborts, or returns `EXIT_FAILURE`. -/
abbrev check (condition : Prop) [Decidable condition] : Checked Unit := Outcome.guard .check condition

/-- The characters of a literal. -/
def ascii (text : String) : List UInt8 := text.toList.map fun char => UInt8.ofNat char.toNat

/-- White space of the C locale. -/
def isSpace (char : UInt8) : Bool := char = 32 ∨ 9 ≤ char.toNat ∧ char.toNat ≤ 13

/-- `%u` of `sscanf`. The language leaves a number that is out of range undefined. -/
def scanUnsigned (width : Nat) (chars : List UInt8) : Option (BitVec width) :=
  let chars := chars.dropWhile isSpace
  let negative := chars.head? = some 45
  let chars := if negative ∨ chars.head? = some 43 then chars.tail else chars
  let digits := chars.takeWhile Decimal.isDigit
  if digits = [] then none
  else
    let number := BitVec.ofNat width (Decimal.value digits)
    some (if negative then -number else number)

/-- `sscanf` with a format of literal characters before one `%u`. -/
def scan (width : Nat) (literal chars : List UInt8) : Option (BitVec width) :=
  if literal.isPrefixOf chars then scanUnsigned width (chars.drop literal.length) else none

/-- `snprintf` with the same format, into a buffer that holds the result. -/
def keyName (literal : List UInt8) (id : Nat) : CString := CString.read (literal ++ Decimal.print id)

/-- A test program that compares a table with its reference model: the literal characters of its keys, and
their number. -/
structure Harness where
  literal : List UInt8
  keys : Nat

/-- The reference model, a flat array indexed by the numbers of the keys. -/
structure Shadow (P : Platform) where
  value : Nat → Value P
  present : Nat → Bool
  count : Nat

namespace Shadow

def empty (P : Platform) : Shadow P := ⟨fun _ => 0, fun _ => false, 0⟩

/-- The count after a key is present. -/
def added (shadow : Shadow P) (id : Nat) : Nat := if shadow.present id then shadow.count else shadow.count + 1

def write (shadow : Shadow P) (id : Nat) (value : Value P) : Shadow P where
  value := Function.update shadow.value id value
  present := Function.update shadow.present id true
  count := shadow.added id

def remove (shadow : Shadow P) (id : Nat) : Shadow P where
  value := shadow.value
  present := Function.update shadow.present id false
  count := if shadow.present id then shadow.count - 1 else shadow.count

def inc (shadow : Shadow P) (id : Nat) : Shadow P :=
  shadow.write id (if shadow.present id then shadow.value id + 1 else 1)

end Shadow

namespace Harness

/-- The key that a test program prints for a number. -/
def key (harness : Harness) (id : Nat) : Key κ := .string (keyName harness.literal id)

/-- The write of a test program, and its check. -/
def write (harness : Harness) (env : Env P κ) (id : Nat) (value : Value P) (h : Hashtable P κ)
    (shadow : Shadow P) : Checked (Hashtable P κ × Shadow P) := do
  let (added, h) ← call (h.write env (.own (harness.key id)) value)
  check (added = !shadow.present id)
  .ok (h, shadow.write id value)

/-- The removal of a test program, and its check. -/
def remove (harness : Harness) (env : Env P κ) (id : Nat) (h : Hashtable P κ) (shadow : Shadow P) :
    Checked (Hashtable P κ × Shadow P) := do
  let (removed, h) ← call (h.remove env (.own (harness.key id)))
  check (removed = shadow.present id)
  .ok (h, shadow.remove id)

/-- The lookup of a test program, and its checks. -/
def lookup (harness : Harness) (env : Env P κ) (id : Nat) (h : Hashtable P κ) (shadow : Shadow P) :
    Checked (Hashtable P κ × Shadow P) := do
  check (h.exists_ env (.own (harness.key id)) = shadow.present id)
  if shadow.present id then
    let (ret, got) := h.read env (.own (harness.key id))
    check (ret = true ∧ got = shadow.value id)
    .ok (h, shadow)
  else .ok (h, shadow)

/-- The increment of a test program, and its check. The answer is an `int`. -/
def inc (harness : Harness) (env : Env P κ) (id : Nat) (h : Hashtable P κ) (shadow : Shadow P) :
    Checked (Hashtable P κ × Shadow P) := do
  let (answer, h) ← call (h.inc env (.own (harness.key id)))
  let got : Value P := answer.signExtend P.wordSize
  let shadow := shadow.inc id
  check (got = shadow.value id)
  .ok (h, shadow)

/-- The check after each call of a test program. -/
def counted (state : Hashtable P κ × Shadow P) : Checked (Hashtable P κ × Shadow P) := do
  check (state.1.nitems = state.2.count)
  .ok state

/-- The enumeration of a test program with its checks. The result is the number of items. A table has fewer
items than rounds, so an enumeration that is still running never ends. -/
def enumerate (harness : Harness) (h : Hashtable P κ) (shadow : Shadow P) :
    Nat → Nat → (Nat → Bool) → Nat → Checked Nat
  | 0, _, _, _ => .error (.table .hang)
  | rounds + 1, index, checked, seen =>
      let (index, found) := h.enumNext index
      match found with
      | none => .ok seen
      | some slot => do
          let text ← call ((h.item slot).name.elim (.error .fault) fun name => (h.key name).text)
          let number := scan P.intSize harness.literal text.chars
          check (number.isSome)
          let id := (number.getD 0).toNat
          check (id < harness.keys)
          check (shadow.present id = true ∧ checked id = false)
          check ((h.item slot).value = shadow.value id)
          harness.enumerate h shadow rounds index (Function.update checked id true) (seen + 1)

/-- The end of a test program: the enumeration reproduces the model, and the table is deleted. -/
def finish (harness : Harness) (env : Env P κ) (state : Hashtable P κ × Shadow P) : Checked Unit := do
  let (h, shadow) := state
  let seen ← harness.enumerate h shadow (2 ^ h.lgSize + stashSize + 1) 0 (fun _ => false) 0
  check (seen = shadow.count)
  let _ ← call (h.delete env)
  .ok ()

end Harness

/-- The keys of the fuzzing harness are `k` and a number below `FZ_KEYS`. -/
def fuzzHarness : Harness := { literal := ascii "k", keys := 256 }

/-- The state of the loop of `LLVMFuzzerTestOneInput`. -/
structure Fuzz (P : Platform) (κ : Type) where
  state : Hashtable P κ × Shadow P
  counter : Value P

/-- One pass of the loop of `LLVMFuzzerTestOneInput`. -/
def fuzzStep (env : Env P κ) (opcode keyId : UInt8) (fuzz : Fuzz P κ) : Checked (Fuzz P κ) := do
  let op := opcode &&& 3
  let kid := keyId.toNat % fuzzHarness.keys
  let (h, shadow) := fuzz.state
  if op = 0 then
    let v := fuzz.counter + 1
    let state ← fuzzHarness.write env kid v h shadow
    let state ← Harness.counted state
    .ok ⟨state, v⟩
  else
    let state ←
      if op = 1 then fuzzHarness.remove env kid h shadow
      else if op = 2 then fuzzHarness.lookup env kid h shadow
      else fuzzHarness.inc env kid h shadow
    let state ← Harness.counted state
    .ok ⟨state, fuzz.counter⟩

/-- The loop of `LLVMFuzzerTestOneInput` reads two bytes for each call. -/
def fuzzLoop (env : Env P κ) : List UInt8 → Fuzz P κ → Checked (Fuzz P κ)
  | opcode :: keyId :: data, fuzz => do
      let fuzz ← fuzzStep env opcode keyId fuzz
      fuzzLoop env data fuzz
  | _, fuzz => .ok fuzz

/-- `LLVMFuzzerTestOneInput`. It does not check that there is a table. -/
def llvmFuzzerTestOneInput (env : Env P κ) (data : List UInt8) : Checked Unit := do
  let h ← call ((Hashtable.new env 0).elim (.error .fault) .ok)
  let fuzz ← fuzzLoop env data ⟨(h, Shadow.empty P), 0⟩
  fuzzHarness.finish env fuzz.state

/-- The keys of the oracle test are `okey_` and a number below `ORACLE_KEYS`. -/
def oracleHarness : Harness := { literal := ascii "okey_", keys := 512 }

/-- `oracle_next` -/
def oracleNext (rng : BitVec 32) : BitVec 32 × BitVec 32 :=
  let rng := rng * 1103515245 + 12345
  (rng >>> 1, rng)

/-- One pass of the loop of `coucal_test_oracle`. -/
def oracleStep (env : Env P κ) (state : Hashtable P κ × Shadow P) (rng : BitVec 32) :
    Checked ((Hashtable P κ × Shadow P) × BitVec 32) := do
  let (next, rng) := oracleNext rng
  let id := next.toNat % oracleHarness.keys
  let (next, rng) := oracleNext rng
  let op := next.toNat % 3
  let (h, shadow) := state
  if op = 0 then
    let (next, rng) := oracleNext rng
    let v : Value P := (next ||| 1).setWidth P.wordSize
    let state ← oracleHarness.write env id v h shadow
    let state ← Harness.counted state
    .ok (state, rng)
  else
    let state ← if op = 1 then oracleHarness.remove env id h shadow else oracleHarness.lookup env id h shadow
    let state ← Harness.counted state
    .ok (state, rng)

/-- The loop of `coucal_test_oracle`. -/
def oracleLoop (env : Env P κ) : Nat → (Hashtable P κ × Shadow P) → BitVec 32 →
    Checked (Hashtable P κ × Shadow P)
  | 0, state, _ => .ok state
  | rounds + 1, state, rng => do
      let (state, rng) ← oracleStep env state rng
      oracleLoop env rounds state rng

/-- `coucal_test_oracle`, with its number of calls `ORACLE_OPS` and its seed. The addresses of its own three arrays
come from `calloc`. It does not check that there is a table. -/
def coucalTestOracle (env : Env P κ) (calloc : Nat → Nat) (rounds : Nat) (seed : BitVec 32) : Checked Unit := do
  let h := Hashtable.new env 0
  check (calloc 0 ≠ 0 ∧ calloc 1 ≠ 0)
  let h ← call (h.elim (.error .fault) .ok)
  let state ← oracleLoop env rounds (h, Shadow.empty P) seed
  check (calloc 2 ≠ 0)
  oracleHarness.finish env state

end Coucal
