import Coucal.Construction.Harness

namespace Coucal

variable {P : Platform} {κ : Type}

/-- The last loop of `coucal_test_enum_delete`: it removes each item that the enumerator returns, by a copy of
its name, and checks that it has not seen the key before. A table has fewer items than rounds, so a loop that
is still running never ends. -/
def removeEach [DecidableEq κ] (env : Env P κ) :
    Nat → Nat → List (Key κ) → Hashtable P κ → Checked (List (Key κ) × Hashtable P κ)
  | 0, _, _, _ => .error (.table .hang)
  | rounds + 1, index, seen, h =>
      let (index, found) := h.enumNext index
      match found with
      | none => .ok (seen, h)
      | some slot => do
          let key ← call ((h.item slot).name.elim (.error .fault) fun name => .ok (h.key name))
          check (key ∉ seen)
          let (removed, h) ← call (h.remove env (.own key))
          check (removed = true)
          removeEach env rounds index (seen ++ [key]) h

/-- A line `key=value` of the sample program. -/
def printBinding (memory : Value P → CString) (key : CString) (value : Value P) : List UInt8 :=
  key.chars ++ ascii "=" ++ (memory value).chars ++ ascii "\n"

/-- The loop of the sample program that fills the table with its arguments, which are pointers to strings. -/
def fillSample (env : Env P κ) (memory : Value P → CString) :
    List (Value P) → Hashtable P κ → Checked (Hashtable P κ)
  | key :: value :: argv, h => do
      let (_, h) ← call (h.writePvoid env (.own (.string (memory key))) value)
      fillSample env memory argv h
  | _, h => .ok h

/-- The loop that checks the items. The program prints as it goes. -/
def checkSample (env : Env P κ) (memory : Value P → CString) (h : Hashtable P κ) :
    List (Value P) → List UInt8 → Checked (List UInt8)
  | key :: _ :: argv, printed => do
      let (ret, value) := h.readPvoid env (.own (.string (memory key)))
      check (ret = true)
      checkSample env memory h argv (printed ++ printBinding memory (memory key) value)
  | _, printed => .ok printed

/-- The loop that prints the items of the enumeration. -/
def enumerateSample (memory : Value P → CString) (h : Hashtable P κ) :
    Nat → Nat → List UInt8 → Checked (List UInt8)
  | 0, _, _ => .error (.table .hang)
  | rounds + 1, index, printed =>
      let (index, found) := h.enumNext index
      match found with
      | none => .ok printed
      | some slot => do
          let name ← call ((h.item slot).name.elim (.error .fault) fun name => (h.key name).text)
          enumerateSample memory h rounds index (printed ++ printBinding memory name (h.item slot).value)

/-- `main` of the sample program, with its arguments after the program name. The result is the exit status,
`EXIT_SUCCESS` or not, and the output. -/
def sampleMain (env : Env P κ) (memory : Value P → CString) (program : CString) (argv : List (Value P)) :
    Checked (Bool × List UInt8) :=
  if argv.length = 0 ∨ argv.length % 2 ≠ 0 then
    .ok (false, ascii "usage: " ++ program.chars ++ ascii " [key value] ..\n")
  else
    match Hashtable.new env 0 with
    | none => .error .check
    | some h => do
        let h ← fillSample env memory argv h
        let printed := ascii "stored " ++ Decimal.print h.nitems ++ ascii " keys\n" ++ ascii "Checking keys:\n"
        let printed ← checkSample env memory h argv printed
        let printed := printed ++ ascii "Enumerating keys:\n"
        let printed ← enumerateSample memory h (2 ^ h.lgSize + stashSize + 1) 0 printed
        let _ ← call (h.delete env)
        .ok (true, printed)

end Coucal
