import Coucal.Construction.Bench
import Coucal.Proof.Harness

namespace Coucal

open Driven Outcome

variable {P : Platform} {κ : Type}

/-- The presence of a key that a row expects. -/
def BenchType.expects : BenchType → Bool
  | .doAdd | .doDryDel | .testDel => false
  | .doDel | .doDryAdd | .testAdd => true

/-- The presence of a key that a row leaves. -/
def BenchType.leaves : BenchType → Bool
  | .doAdd | .doDryAdd | .testAdd => true
  | .doDel | .doDryDel | .testDel => false

/-- The keys of the numbers below the count differ. -/
def Distinct (P : Platform) (strings : Option (Nat → CString)) (count : Nat) : Prop :=
  ∀ i < count, ∀ j < count, strings.getD (benchName P) i = strings.getD (benchName P) j → i = j

/-- A write of the value that a key already has changes nothing when no handler takes the old one. -/
theorem writeValue_again {env : Env P κ} {t : Hashtable P κ} {name : Name κ} {value : Value P}
    (quiet : env.freeValue = false) (stored : t.readValue env name = some value) :
    t.writeValue env name value = .ok (false, t) := by
  obtain ⟨slot, found, same⟩ := Option.map_eq_some_iff.mp stored
  have kept : t.setValue slot value = t := by
    rw [← same]
    cases slot <;> simp [Hashtable.setValue, Hashtable.setItem, Hashtable.item]
  have none : env.releases (t.item slot).value = [] := by simp [Env.releases, quiet]
  rw [writeValue_found found, kept, none, List.nil_append]

/-- A removal of an absent key changes nothing. -/
theorem remove_again {env : Env P κ} {t : Hashtable P κ} {name : Name κ} (absent : t.readValue env name = none) :
    t.remove env name = .ok (false, t) := by
  have missing : t.locate env name (t.calcHashes env name) = none := Option.map_eq_none_iff.mp absent
  unfold Hashtable.remove Hashtable.remove_
  rw [missing]
  rfl

section Passes

variable [DecidableEq κ] {hash : Key κ → Hashkeys P} {alloc : Nat → Nat} {strings : Option (Nat → CString)}
  {count : Nat} {present : Nat → Bool} {h : Hashtable P κ}

/-- The table of the benchmark binds the present keys to their values. -/
def Benched (hash : Key κ → Hashkeys P) (alloc : Nat → Nat) (strings : Option (Nat → CString)) (count : Nat)
    (present : Nat → Bool) (h : Hashtable P κ) : Prop :=
  ∃ map, Shows (Env.strings_lawful hash false alloc) h map ∧
    map.Binds (benchKey P strings) count present (expected P)

theorem Benched.congr {present' : Nat → Bool} (benched : Benched hash alloc strings count present h)
    (same : ∀ i < count, present' i = present i) : Benched hash alloc strings count present' h := by
  obtain ⟨map, shows, binds⟩ := benched
  exact ⟨map, shows, fun i inside => by rw [same i inside, binds i inside]⟩

theorem Distinct.apart (distinct : Distinct P strings count) :
    FiniteMap.Apart (Env.strings hash false alloc) (benchKey P strings) count :=
  fun i inside j inside' equal => distinct i inside j inside' (Key.string.inj (of_decide_eq_true equal))

/-- A write of the value of a key makes it present. -/
theorem Benched.write {i : Nat} {added : Bool} {h' : Hashtable P κ} (distinct : Distinct P strings count)
    (inside : i < count) (benched : Benched hash alloc strings count present h)
    (returned : h.write (Env.strings hash false alloc) (.own (benchKey P strings i)) (expected P i) =
      .ok (added, h')) :
    added = !present i ∧ Benched hash alloc strings count (Function.update present i true) h' := by
  obtain ⟨map, shows, binds⟩ := benched
  obtain ⟨flag, shows'⟩ := (shows.write (.own (benchKey P strings i)) trivial (expected P i)).of_ok returned
  have after := binds.insert distinct.apart inside (expected P i)
  rw [Function.update_eq_self] at after
  exact ⟨flag.trans (binds.isNone_eq inside), _, shows', after⟩

/-- A removal of a key makes it absent. -/
theorem Benched.remove {i : Nat} {removed : Bool} {h' : Hashtable P κ} (distinct : Distinct P strings count)
    (inside : i < count) (benched : Benched hash alloc strings count present h)
    (returned : h.remove (Env.strings hash false alloc) (.own (benchKey P strings i)) = .ok (removed, h')) :
    removed = present i ∧ Benched hash alloc strings count (Function.update present i false) h' := by
  obtain ⟨map, shows, binds⟩ := benched
  obtain ⟨flag, shows'⟩ := (shows.remove (.own (benchKey P strings i))).of_ok returned
  exact ⟨flag.trans (binds.isSome_eq inside), _, shows', binds.erase distinct.apart inside⟩

/-- A present key is read with its value when that is not zero. -/
theorem Benched.readptr_eq {i : Nat} (inside : i < count) (nonzero : expected P i ≠ 0)
    (benched : Benched hash alloc strings count present h) :
    h.readptr (Env.strings hash false alloc) (.own (benchKey P strings i)) =
      if present i then (true, expected P i) else (false, 0) := by
  obtain ⟨map, shows, binds⟩ := benched
  have read := (shows.readValue_eq (.own (benchKey P strings i))).trans (binds i inside)
  unfold Hashtable.readptr Hashtable.read
  rw [read]
  cases present i with
  | true => exact congrArg (·, expected P i) (if_neg nonzero)
  | false => rfl

/-- Repeated writes of a present key change nothing. -/
theorem Benched.repeatWrite_eq {i : Nat} (inside : i < count) (there : present i = true)
    (benched : Benched hash alloc strings count present h) :
    repeatWrite (Env.strings hash false alloc) (.own (benchKey P strings i)) (expected P i) h = .ok h := by
  obtain ⟨map, shows, binds⟩ := benched
  have read := (shows.readValue_eq (.own (benchKey P strings i))).trans (binds i inside)
  rw [if_pos there] at read
  refine forUpTo_const fun _ => ?_
  rw [Hashtable.write, writeValue_again rfl read]
  rfl

/-- Repeated removals of an absent key change nothing. -/
theorem Benched.repeatRemove_eq {i : Nat} (inside : i < count) (absent : present i = false)
    (benched : Benched hash alloc strings count present h) :
    repeatRemove (Env.strings hash false alloc) (.own (benchKey P strings i)) h = .ok h := by
  obtain ⟨map, shows, binds⟩ := benched
  have read := (shows.readValue_eq (.own (benchKey P strings i))).trans (binds i inside)
  rw [absent, if_neg Bool.false_ne_true] at read
  refine forUpTo_const fun _ => ?_
  rw [remove_again read]
  rfl

/-- The call of a pass that may change the table. The calls that repeat it change nothing. -/
def BenchType.calls (type : BenchType) (key : Key κ) (expected : Value P) : List (Op P (Key κ)) :=
  match type with
  | .doAdd | .doDryAdd => [.writeValue key expected]
  | .doDel | .doDryDel => [.remove key]
  | .testAdd | .testDel => []

/-- A pass of a row that finds the presence that it expects leaves the one that it should. -/
theorem benchPass_spec {i : Nat} {type : BenchType} (distinct : Distinct P strings count) (inside : i < count)
    (nonzero : expected P i ≠ 0) (ready : present i = type.expects)
    (benched : Benched hash alloc strings count present h) :
    Follows (Hashtable.makes (Env.strings hash false alloc)) .table
      (type.calls (benchKey P strings i) (expected P i)) h
      (benchPass (Env.strings hash false alloc) strings type i h)
      fun h' state => h' = state ∧ Benched hash alloc strings count (Function.update present i type.leaves) state := by
  have unchanged : type.leaves = type.expects →
      Benched hash alloc strings count (Function.update present i type.leaves) h := fun stays => by
    rw [stays, ← ready, Function.update_eq_self]
    exact benched
  unfold benchPass
  dsimp only
  cases type with
  | doAdd | doDryAdd =>
      refine .call (makes_writeValue _ _ _ _) ?_
      rintro ⟨result, h'⟩ returned
      obtain ⟨flag, written⟩ := benched.write distinct inside returned
      dsimp only
      rw [written.repeatWrite_eq inside (Function.update_self ..), ok_bind, flag, ready]
      exact .done ⟨rfl, written⟩
  | doDel | doDryDel =>
      refine .call (makes_remove _ _ _) ?_
      rintro ⟨result, h'⟩ returned
      obtain ⟨flag, removed⟩ := benched.remove distinct inside returned
      dsimp only
      rw [removed.repeatRemove_eq inside (Function.update_self ..), ok_bind, flag, ready]
      exact .done ⟨rfl, removed⟩
  | testAdd =>
      have same : ¬ (BenchType.testAdd = .testAdd ∧ true = true ∧ expected P i ≠ expected P i) :=
        fun differs => differs.2.2 rfl
      rw [(benched.readptr_eq inside nonzero).trans (if_pos ready)]
      dsimp only
      rw [check_of same, ok_bind]
      exact .done ⟨rfl, unchanged rfl⟩
  | testDel =>
      have absent : ¬ present i = true := fun present => Bool.false_ne_true (ready.symm.trans present)
      rw [(benched.readptr_eq inside nonzero).trans (if_neg absent)]
      exact .done ⟨rfl, unchanged rfl⟩

end Passes

/-- The numbers that a row visits. -/
def BenchRow.Visits (row : BenchRow) (i : Nat) : Prop := i % row.modulus = row.offset

theorem BenchRow.Visits.eq_add {row : BenchRow} {i : Nat} (visits : row.Visits i) :
    i = row.offset + i / row.modulus * row.modulus := by
  rw [← visits, Nat.mod_add_div']

instance (row : BenchRow) : DecidablePred row.Visits := fun i => inferInstanceAs (Decidable (i % row.modulus = _))

/-- The presence of the keys after a row. -/
def BenchRow.after (row : BenchRow) (present : Nat → Bool) (i : Nat) : Bool :=
  if row.Visits i then row.type.leaves else present i

/-- The rows from some presence on, checked for each remainder. A period of a row divides the common one. -/
def scheduled (period : Nat) : List BenchRow → (Nat → Bool) → Bool
  | [], _ => true
  | row :: rows, present =>
      decide (row.modulus ∣ period ∧ row.offset < row.modulus) &&
        (List.range period).all (fun r => decide (row.Visits r → present r = row.type.expects)) &&
          scheduled period rows (row.after present)

/-- The presence in the middle of a row. -/
def BenchRow.during (row : BenchRow) (present : Nat → Bool) (passes i : Nat) : Bool :=
  if row.Visits i ∧ i / row.modulus < passes then row.type.leaves else present i

section Rows

variable [DecidableEq κ] {hash : Key κ → Hashkeys P} {alloc : Nat → Nat} {strings : Option (Nat → CString)}
  {count : Nat} {present : Nat → Bool} {h : Hashtable P κ}

/-- The calls of a row that may change the table. -/
def BenchRow.calls (strings : Option (Nat → CString)) (count : Nat) (row : BenchRow) : List (Op P (Key κ)) :=
  (List.range ((count - row.offset + (row.modulus - 1)) / row.modulus)).flatMap fun pass =>
    row.type.calls (benchKey P strings (row.offset + pass * row.modulus)) (expected P (row.offset + pass * row.modulus))

/-- A row that finds the presence that it expects leaves the one that it should. -/
theorem benchRow_spec {row : BenchRow} (distinct : Distinct P strings count)
    (nonzero : ∀ i < count, expected P i ≠ 0) (proper : row.offset < row.modulus)
    (ready : ∀ i, row.Visits i → present i = row.type.expects)
    (benched : Benched hash alloc strings count present h) :
    Follows (Hashtable.makes (Env.strings hash false alloc)) .table (row.calls strings count) h
      (benchRow (Env.strings hash false alloc) strings count row h)
      fun h' state => h' = state ∧ Benched hash alloc strings count (row.after present) state := by
  have positive : 0 < row.modulus := Nat.zero_lt_of_lt proper
  unfold benchRow
  refine (Follows.forUpTo (fun pass h' state => h' = state ∧
    Benched hash alloc strings count (row.during present pass) state) ?_ ?_).mono ?_
  · exact ⟨rfl, benched.congr fun i _ => if_neg fun both => Nat.not_lt_zero _ both.2⟩
  · rintro pass inside _ state ⟨rfl, before⟩
    have quotient : (row.offset + pass * row.modulus) / row.modulus = pass := by
      rw [Nat.add_mul_div_right _ _ positive, Nat.div_eq_of_lt proper, Nat.zero_add]
    have visits : row.Visits (row.offset + pass * row.modulus) := by
      unfold BenchRow.Visits
      rw [Nat.add_mul_mod_self_right, Nat.mod_eq_of_lt proper]
    have below : row.offset + pass * row.modulus < count := by
      rw [Nat.lt_div_iff_mul_lt positive] at inside
      omega
    have untouched : row.during present pass (row.offset + pass * row.modulus) = row.type.expects := by
      rw [BenchRow.during, if_neg fun both => absurd (quotient ▸ both.2) (Nat.lt_irrefl _)]
      exact ready _ visits
    refine (benchPass_spec distinct below (nonzero _ below) untouched before).mono ?_
    rintro _ next ⟨rfl, benched'⟩
    refine ⟨rfl, benched'.congr fun i _ => ?_⟩
    unfold BenchRow.during
    rw [Function.update_apply]
    split
    next both =>
      by_cases same : i = row.offset + pass * row.modulus
      · rw [if_pos same]
      · have earlier : i / row.modulus ≠ pass := fun equal => same (equal ▸ both.1.eq_add)
        rw [if_neg same, if_pos ⟨both.1, by omega⟩]
    next other =>
      rw [if_neg, if_neg fun both => other ⟨both.1, Nat.lt_succ_of_lt both.2⟩]
      rintro rfl
      exact other ⟨visits, quotient.symm ▸ Nat.lt_succ_self pass⟩
  · rintro _ final ⟨rfl, benched'⟩
    refine ⟨rfl, benched'.congr fun i inside => ?_⟩
    unfold BenchRow.after BenchRow.during
    refine if_congr ⟨fun visits => ⟨visits, ?_⟩, And.left⟩ rfl rfl
    have whole := visits.eq_add
    rw [Nat.lt_div_iff_mul_lt positive]
    omega

/-- A schedule that passes for each remainder passes for each number of keys. -/
theorem benchRows_spec {period : Nat} {rows : List BenchRow} (distinct : Distinct P strings count)
    (nonzero : ∀ i < count, expected P i ≠ 0) (periodic : ∀ i, present i = present (i % period))
    (positive : 0 < period) (passes : scheduled period rows present = true)
    (benched : Benched hash alloc strings count present h) :
    Follows (Hashtable.makes (Env.strings hash false alloc)) .table (rows.flatMap (BenchRow.calls strings count)) h
      (benchRows (Env.strings hash false alloc) strings count rows h)
      fun h' state => h' = state ∧ ∃ map, Shows (Env.strings_lawful hash false alloc) state map := by
  induction rows generalizing present h with
  | nil =>
      obtain ⟨map, shows, -⟩ := benched
      exact .done ⟨rfl, map, shows⟩
  | cons row rows ih =>
      unfold scheduled at passes
      rw [Bool.and_eq_true, Bool.and_eq_true] at passes
      obtain ⟨⟨proper, checked⟩, rest⟩ := passes
      obtain ⟨divides, proper⟩ := of_decide_eq_true proper
      have visits : ∀ i, row.Visits i ↔ row.Visits (i % period) := fun i => by
        unfold BenchRow.Visits
        rw [Nat.mod_mod_of_dvd _ divides]
      have ready : ∀ i, row.Visits i → present i = row.type.expects := fun i visited => by
        have remainder := List.all_eq_true.mp checked (i % period) (List.mem_range.mpr (Nat.mod_lt _ positive))
        rw [periodic i]
        exact of_decide_eq_true remainder ((visits i).mp visited)
      refine (benchRow_spec distinct nonzero proper ready benched).bind ?_
      rintro _ next ⟨rfl, after⟩
      refine ih ?_ rest after
      intro i
      unfold BenchRow.after
      rw [← periodic i]
      exact if_congr (visits i) rfl rfl

end Rows

section Names

variable {width : Nat}

/-- A printed number has digits, after a sign at most. -/
theorem mem_printLong {number : BitVec width} {char : UInt8} (member : char ∈ printLong number) :
    char = 45 ∨ Decimal.isDigit char = true := by
  unfold printLong at member
  split at member
  next =>
    rcases List.mem_cons.mp member with sign | digit
    · exact .inl sign
    · exact .inr (Decimal.isDigit_of_mem_print digit)
  next => exact .inr (Decimal.isDigit_of_mem_print member)

theorem printLong_injective {number other : BitVec width} (same : printLong number = printLong other) :
    number = other := by
  have signed : ∀ n rest, (45 : UInt8) :: rest ≠ Decimal.print n := fun n rest equal => by
    have digit := Decimal.isDigit_of_mem_print (equal ▸ List.mem_cons_self : (45 : UInt8) ∈ Decimal.print n)
    cases digit
  unfold printLong at same
  split at same
  next =>
    split at same
    next => exact BitVec.neg_inj.mp (BitVec.eq_of_toNat_eq (Decimal.print_injective (List.cons.inj same).2))
    next => exact absurd same (signed _ _)
  next =>
    split at same
    next => exact absurd same.symm (signed _ _)
    next => exact BitVec.eq_of_toNat_eq (Decimal.print_injective same)

/-- A character that is neither a digit nor a sign ends a printed number. -/
theorem takeWhile_printLong (number : BitVec width) (rest : List UInt8) :
    (printLong number ++ (ascii "/index.html?foo=" ++ rest)).takeWhile (· ≠ 47) = printLong number := by
  have slash : ascii "/index.html?foo=" = 47 :: (ascii "/index.html?foo=").tail := by decide
  rw [List.takeWhile_append_of_pos, slash, List.cons_append, List.takeWhile_cons_of_neg (by decide), List.append_nil]
  intro char member
  refine decide_eq_true ?_
  rintro rfl
  rcases mem_printLong member with sign | digit
  · cases sign
  · cases digit

/-- The keys that the benchmark prints differ for the numbers of a `long`. -/
theorem benchName_injective {i j : Nat} (inside : i < 2 ^ P.wordSize) (inside' : j < 2 ^ P.wordSize)
    (same : benchName P i = benchName P j) : i = j := by
  have noNul : ∀ number : BitVec P.wordSize, (0 : UInt8) ∉ printLong number := fun number member => by
    rcases mem_printLong member with sign | digit
    · cases sign
    · cases digit
  have chars : ∀ k, (benchName P k).chars = ascii "http://www.example.com/website/sample/for/hashtable/" ++
      (printLong (BitVec.ofNat P.wordSize k) ++ (ascii "/index.html?foo=" ++
        (printLong (expected P k) ++ ascii "&bar"))) := by
    intro k
    refine List.takeWhile_eq_self_iff.mpr fun char member => decide_eq_true ?_
    rintro rfl
    simp only [List.mem_append] at member
    rcases member with head | number | middle | value | tail
    · exact absurd head (by decide)
    · exact noNul _ number
    · exact absurd middle (by decide)
    · exact noNul _ value
    · exact absurd tail (by decide)
  have texts := congrArg CString.chars same
  rw [chars, chars] at texts
  have numbers := congrArg (List.takeWhile (· ≠ 47)) (List.append_cancel_left texts)
  rw [takeWhile_printLong, takeWhile_printLong] at numbers
  have words := congrArg BitVec.toNat (printLong_injective numbers)
  rwa [BitVec.toNat_ofNat, BitVec.toNat_ofNat, Nat.mod_eq_of_lt inside, Nat.mod_eq_of_lt inside'] at words

end Names

/-- The rows of the benchmark fit together: each of them finds the keys that the earlier ones leave. -/
theorem bench_scheduled : scheduled 84 bench (fun _ => false) = true := by
  decide +kernel

/-- The benchmark passes for each number of keys, when no value is zero and the keys of a file differ. It completes
when its calls return, and otherwise ends with the failure of the first call that does not. -/
theorem benchmark_passes [DecidableEq κ] (hash : Key κ → Hashkeys P) (alloc : Nat → Nat)
    {strings : Option (Nat → CString)} {count : Nat} (some_ : 0 < count) (long : count ≤ 2 ^ P.wordSize)
    (nonzero : ∀ i < count, expected P i ≠ 0)
    (distinct : ∀ names, strings = some names → ∀ i < count, ∀ j < count, names i = names j → i = j) :
    coucalTest (Env.strings hash false alloc) strings count =
        carried (Env.strings hash false alloc) (bench.flatMap (BenchRow.calls strings count)) ∧
      coucalTest (Env.strings hash false alloc) strings count ≠ .error .check := by
  have differ : Distinct P strings count := by
    intro i inside j inside' same
    cases strings with
    | none => exact benchName_injective (inside.trans_le long) (inside'.trans_le long) same
    | some names => exact distinct names rfl i inside j inside' same
  have outcome : coucalTest (Env.strings hash false alloc) strings count =
      carried (Env.strings hash false alloc) (bench.flatMap (BenchRow.calls strings count)) := by
    unfold coucalTest
    rw [check_of some_, ok_bind]
    refine carried_of_follows fun created new => ?_
    have start : Benched hash alloc strings count (fun _ => false) created := ⟨∅, Shows.new new, fun _ _ => rfl⟩
    refine (benchRows_spec differ nonzero (fun _ => rfl) (by decide) bench_scheduled start).andThen ?_
    rintro _ final ⟨rfl, map, shows⟩
    obtain ⟨t, deleted⟩ := shows.delete
    rw [deleted]
    exact ⟨(), rfl, trivial⟩
  exact ⟨outcome, outcome ▸ carried_ne_check _ _⟩

/-- The benchmark with five printed keys completes. -/
theorem benchmark_passes_lengths :
    coucalTest (Env.strings Env.lengths.hash false Env.lengths.alloc) none 5 = .ok () := by
  have returns : carried (Env.strings Env.lengths.hash false Env.lengths.alloc)
      (bench.flatMap (BenchRow.calls none 5)) = .ok () := by
    decide +kernel
  have nonzero : ∀ i < 5, expected Platform.lp64 i ≠ 0 := by decide
  exact (benchmark_passes Env.lengths.hash Env.lengths.alloc (by decide) (by decide) nonzero
    fun _ given => by cases given).1.trans returns

end Coucal
