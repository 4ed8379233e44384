import Coucal.Construction.Table

namespace Coucal
namespace Hashtable

variable {P : Platform} {κ : Type}

/-- `coucal_read`. The results are the return value and the integer that it stores. -/
def read (env : Env P κ) (t : Hashtable P κ) (name : Name κ) : Bool × Value P :=
  match t.readValue env name with
  | some value => (true, value)
  | none => (false, 0)

/-- `coucal_readptr` -/
def readptr (env : Env P κ) (t : Hashtable P κ) (name : Name κ) : Bool × Value P :=
  let (ret, dest) := t.read env name
  (if dest = 0 then false else ret, dest)

/-- `coucal_get_intptr` -/
def getIntptr (env : Env P κ) (t : Hashtable P κ) (name : Name κ) : Value P :=
  let (ret, value) := t.read env name
  if ¬ ret then 0 else value

/-- `coucal_read_pvoid`. The pointer is the unsigned member of the same union. -/
def readPvoid (env : Env P κ) (t : Hashtable P κ) (name : Name κ) : Bool × Value P :=
  match t.readValue env name with
  | some value => (true, value)
  | none => (false, 0)

/-- `coucal_get_pvoid` -/
def getPvoid (env : Env P κ) (t : Hashtable P κ) (name : Name κ) : Value P :=
  let (ret, value) := t.readPvoid env name
  if ¬ ret then 0 else value

/-- `coucal_write` -/
def write (env : Env P κ) (t : Hashtable P κ) (name : Name κ) (intvalue : Value P) :
    Result (Bool × Hashtable P κ) := t.writeValue env name intvalue

/-- `coucal_add` -/
def add (env : Env P κ) (t : Hashtable P κ) (name : Name κ) (intvalue : Value P) : Result (Hashtable P κ) := do
  let (_, t) ← t.writeValue env name intvalue
  .ok t

/-- `coucal_write_pvoid` -/
def writePvoid (env : Env P κ) (t : Hashtable P κ) (name : Name κ) (pvalue : Value P) :
    Result (Bool × Hashtable P κ) := t.writeValue env name pvalue

/-- `coucal_add_pvoid` -/
def addPvoid (env : Env P κ) (t : Hashtable P κ) (name : Name κ) (pvalue : Value P) : Result (Hashtable P κ) := do
  let (_, t) ← t.writeValue env name pvalue
  .ok t

/-- An assignment through the pointer that `coucal_fetch_value` or `coucal_fetch_value_hashes` returns. -/
def assign (t : Hashtable P κ) (slot : Slot) (value : Value P) : Hashtable P κ :=
  t.setItem slot { t.item slot with value }

end Hashtable
end Coucal
