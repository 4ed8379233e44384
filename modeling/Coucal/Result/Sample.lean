import Coucal.Construction.Programs
import Coucal.Proof.Harness
import Coucal.Result.Equivalence
import Coucal.Result.Pointers

namespace Coucal

open Driven Outcome

variable {P : Platform} {κ : Type}

/-- The values that pairs of arguments bind to their keys, one pair after the other. -/
def boundBy (memory : Value P → CString) : List (Value P) → (CString → Option (Value P)) → CString → Option (Value P)
  | key :: value :: argv, bound => boundBy memory argv (Function.update bound (memory key) (some value))
  | _, bound => bound

/-- The keys among pairs of arguments. -/
def argvKeys : List (Value P) → List (Value P)
  | key :: _ :: argv => key :: argvKeys argv
  | _ => []

/-- The writes of pairs of arguments. -/
def sampleCalls (memory : Value P → CString) : List (Value P) → List (Op P (Key κ))
  | key :: value :: argv => .writeValue (.string (memory key)) value :: sampleCalls memory argv
  | _ => []

/-- Each call of the sample program is the write of a string key. -/
theorem mem_sampleCalls {memory : Value P → CString} {argv : List (Value P)} {op : Op P (Key κ)}
    (member : op ∈ sampleCalls memory argv) : ∃ text value, op = .writeValue (.string text) value := by
  fun_induction sampleCalls (κ := κ) memory argv with
  | case1 key value argv ih =>
      rcases List.mem_cons.mp member with rfl | later
      · exact ⟨_, _, rfl⟩
      · exact ih later
  | case2 => cases member

/-- Each key among the arguments has a value. -/
theorem boundBy_ne_none (memory : Value P → CString) (argv : List (Value P)) (bound : CString → Option (Value P))
    (text : CString) (present : text ∈ (argvKeys argv).map memory ∨ bound text ≠ none) :
    boundBy memory argv bound text ≠ none := by
  fun_induction argvKeys argv generalizing bound with
  | case1 key value argv ih =>
      apply ih
      by_cases same : text = memory key
      · right
        rw [same, Function.update_self]
        exact Option.some_ne_none value
      · rw [Function.update_of_ne same]
        rcases present with member | stored
        · rw [List.map_cons] at member
          exact .inl (List.mem_of_ne_of_mem same member)
        · exact .inr stored
  | case2 argv short =>
      rcases present with member | stored
      · exact absurd member List.not_mem_nil
      · rwa [boundBy]
        exact short

/-- The program prints the bindings that the enumeration shows. -/
theorem enumerateSample_eq {h : Hashtable P κ} {memory : Value P → CString} {index rounds : Nat} {slots : List Slot}
    {shown : List (CString × Value P)}
    (printed : List UInt8) (enumeration : h.Enumeration index slots)
    (live : ∀ slot ∈ slots, (h.item slot).name ≠ none)
    (listed : h.bindings slots = shown.map fun binding => (.string binding.1, binding.2))
    (enough : slots.length < rounds) :
    enumerateSample memory h rounds index printed =
      .ok (printed ++ shown.flatMap fun binding => printBinding memory binding.1 binding.2) := by
  induction enumeration generalizing rounds shown printed with
  | @last index ends =>
      cases rounds with
      | zero => cases enough
      | succ rounds =>
          have none : shown = [] := List.map_eq_nil_iff.mp listed.symm
          unfold enumerateSample
          dsimp only
          rw [ends, none, List.flatMap_nil, List.append_nil]
  | @next index index' slot slots returns rest ih =>
      cases rounds with
      | zero => cases enough
      | succ rounds =>
          obtain ⟨name, named⟩ := Option.ne_none_iff_exists'.mp (live slot List.mem_cons_self)
          have first : h.bindings (slot :: slots) = (h.key name, (h.item slot).value) :: h.bindings slots := by
            unfold Hashtable.bindings
            rw [List.filterMap_cons, Hashtable.binding, named]
            rfl
          rw [first] at listed
          cases shown with
          | nil => cases listed
          | cons binding shown =>
              obtain ⟨head, tail⟩ := List.cons.inj listed
              obtain ⟨key, value⟩ := Prod.mk.inj head
              unfold enumerateSample
              rw [returns]
              dsimp only
              rw [named, Option.elim_some, key, value]
              change Except.ok binding.1 >>= _ = _
              rw [ok_bind, ih _ (fun slot member => live slot (List.mem_cons_of_mem _ member)) tail
                (Nat.lt_of_succ_lt_succ enough), List.flatMap_cons, List.append_assoc]

/-- A list of string keys with values. -/
theorem exists_texts (bindings : List (Key κ × Value P))
    (strings : ∀ binding ∈ bindings, ∃ text, binding.1 = .string text) :
    ∃ shown : List (CString × Value P), bindings = shown.map fun binding => (.string binding.1, binding.2) := by
  induction bindings with
  | nil => exact ⟨[], rfl⟩
  | cons binding bindings ih =>
      obtain ⟨text, same⟩ := strings binding List.mem_cons_self
      obtain ⟨shown, rest⟩ := ih (fun other member => strings other (List.mem_cons_of_mem _ member))
      refine ⟨(text, binding.2) :: shown, ?_⟩
      rw [List.map_cons, ← rest, ← same]

section Sample

variable [DecidableEq κ] {hash : Key κ → Hashkeys P} {alloc : Nat → Nat} {h : Hashtable P κ}
  {map : FiniteMap (Env.strings_lawful hash false alloc)} {bound : CString → Option (Value P)}
  {memory : Value P → CString}

/-- The map binds strings alone. -/
structure Holds (map : FiniteMap (Env.strings_lawful hash false alloc)) (bound : CString → Option (Value P)) : Prop where
  string : ∀ text, map.find (.string text) = bound text
  object : ∀ value, map.find (.object value) = none

/-- A write of a string key binds it. -/
theorem Holds.insert (holds : Holds map bound) (text : CString) (value : Value P) :
    Holds (map.insert (Quotient.mk _ (.string text)) value : FiniteMap (Env.strings_lawful hash false alloc))
      (Function.update bound text (some value)) := by
  constructor
  · intro other
    rw [FiniteMap.Represents.find_insert, holds.string]
    by_cases same : other = text
    · rw [same, Function.update_self, if_pos ((Env.strings_lawful hash false alloc).refl _)]
    · rw [Function.update_of_ne same, if_neg]
      intro equal
      exact same (Key.string.inj (of_decide_eq_true equal)).symm
  · intro other
    rw [FiniteMap.Represents.find_insert, holds.object, if_neg]
    intro equal
    have same : (Key.string text : Key κ) = .object other := of_decide_eq_true equal
    cases same

theorem Holds.empty : Holds (∅ : FiniteMap (Env.strings_lawful hash false alloc)) fun _ => none :=
  ⟨fun _ => Finmap.lookup_empty _, fun _ => Finmap.lookup_empty _⟩

/-- The program fills the table with the bindings of its arguments. -/
theorem fillSample_spec (argv : List (Value P)) (shows : Shows (Env.strings_lawful hash false alloc) h map)
    (holds : Holds map bound) :
    Follows (Hashtable.makes (Env.strings hash false alloc)) .table (sampleCalls memory argv) h
      (fillSample (Env.strings hash false alloc) memory argv h) fun h' state => h' = state ∧
        ∃ map', Shows (Env.strings_lawful hash false alloc) state map' ∧ Holds map' (boundBy memory argv bound) := by
  fun_induction boundBy memory argv bound generalizing h map with
  | case1 key value argv bound ih =>
      unfold fillSample sampleCalls
      have readable : h.Readable (.own (.string (memory key))) := trivial
      refine .call (makes_writeValue _ _ _ _) ?_
      rintro ⟨added, h'⟩ returned
      obtain ⟨-, after⟩ := (shows.write _ readable value).of_ok returned
      exact ih after (holds.insert (memory key) value)
  | case2 argv bound short =>
      rw [fillSample, sampleCalls]
      · exact .done ⟨rfl, map, shows, holds⟩
      · exact short
      · exact short

/-- The program finds each of its keys, and prints the last value of the key. -/
theorem checkSample_eq (argv : List (Value P)) (printed : List UInt8)
    (shows : Shows (Env.strings_lawful hash false alloc) h map) (holds : Holds map bound)
    (present : ∀ key ∈ argvKeys argv, bound (memory key) ≠ none) :
    checkSample (Env.strings hash false alloc) memory h argv printed =
      .ok (printed ++ (argvKeys argv).flatMap fun key =>
        printBinding memory (memory key) ((bound (memory key)).getD 0)) := by
  fun_induction argvKeys argv generalizing printed with
  | case1 key value argv ih =>
      obtain ⟨stored, same⟩ := Option.ne_none_iff_exists'.mp (present key List.mem_cons_self)
      have found : h.readPvoid (Env.strings hash false alloc) (.own (.string (memory key))) = (true, stored) := by
        have find : map.find (h.key (.own (.string (memory key)))) = some stored := (holds.string _).trans same
        rw [readPvoid_eq shows, find]
        rfl
      unfold checkSample
      rw [found]
      dsimp only
      rw [check_of rfl, ok_bind, ih _ fun key member => present key (List.mem_cons_of_mem _ member),
        List.flatMap_cons, same, Option.getD_some, List.append_assoc]
  | case2 argv short =>
      rw [checkSample, List.flatMap_nil, List.append_nil]
      exact short

/-- The enumeration of a table of strings shows each bound string once, with its value. -/
theorem Holds.shown (holds : Holds map bound) (shows : Shows (Env.strings_lawful hash false alloc) h map)
    {slots : List Slot} (enumeration : h.Enumeration 0 slots) :
    ∃ shown : List (CString × Value P),
      h.bindings slots = shown.map (fun binding => (.string binding.1, binding.2)) ∧
      (shown.map Prod.fst).Nodup ∧ (∀ text value, (text, value) ∈ shown ↔ bound text = some value) ∧
      shown.length = h.nitems := by
  have members := enumeration.mem_bindings shows fun _ _ => of_decide_eq_true
  have strings : ∀ binding ∈ h.bindings slots, ∃ text, binding.1 = .string text := by
    rintro ⟨key, value⟩ member
    have found := (members key value).mp member
    cases key with
    | string text => exact ⟨text, rfl⟩
    | object other =>
        rw [holds.object] at found
        cases found
  obtain ⟨shown, listed⟩ := exists_texts _ strings
  have listed_iff : ∀ text value, (text, value) ∈ shown ↔ bound text = some value := by
    intro text value
    rw [← holds.string, ← members, listed, List.mem_map]
    constructor
    · exact fun member => ⟨_, member, rfl⟩
    · rintro ⟨⟨text', value'⟩, member, same⟩
      cases same
      exact member
  refine ⟨shown, listed, ?_, listed_iff, ?_⟩
  · have nodup := enumeration.nodup_bindings shows.inv (Env.strings_lawful hash false alloc)
    rw [listed] at nodup
    apply (List.Nodup.of_map _ nodup).map_on
    rintro ⟨text, value⟩ member ⟨text', value'⟩ member' same
    change text = text' at same
    subst same
    have first := (listed_iff _ _).mp member
    rw [(listed_iff _ _).mp member'] at first
    rw [Option.some_inj.mp first]
  · have length : (h.bindings slots).length = slots.length := by
      apply List.filterMap_length_eq_length.mpr
      intro slot member
      have live := ((enumeration.spec shows.inv.stash.toBounded).2 slot).mp member
      rw [Hashtable.binding, Option.isSome_map]
      exact Option.isSome_iff_ne_none.mpr live.2.1
    rw [listed, List.length_map, enumeration.length_eq shows.inv.stash.toBounded, ← shows.inv.used_eq] at length
    exact length

end Sample

/-- The output of the sample program for a list of bindings. -/
def sampleOutput (memory : Value P → CString) (argv : List (Value P)) (bound : CString → Option (Value P))
    (shown : List (CString × Value P)) : List UInt8 :=
  ascii "stored " ++ Decimal.print shown.length ++ ascii " keys\n" ++ ascii "Checking keys:\n" ++
    ((argvKeys argv).flatMap fun key => printBinding memory (memory key) ((bound (memory key)).getD 0)) ++
    ascii "Enumerating keys:\n" ++ shown.flatMap fun binding => printBinding memory binding.1 binding.2

/-- How the sample program stops early: `coucal_new` returns no table, or the first of its writes that does not
return gets no memory or reaches a limit of the table. -/
inductive SampleStop (env : Env P κ) (memory : Value P → CString) (argv : List (Value P)) : Stop → Prop where
  | table (none : Hashtable.new env 0 = none) : SampleStop env memory argv .check
  | write {created h : Hashtable P κ} {before after : List (Op P (Key κ))} {text : CString} {value : Value P}
      {failure : Failure} (new : Hashtable.new env 0 = some created)
      (calls : sampleCalls memory argv = before ++ .writeValue (.string text) value :: after)
      (returned : drive (Hashtable.makes env) before created = .ok h)
      (fails : h.writeValue env (.own (.string text)) value = .error failure)
      (reason : WriteError env h (.own (.string text)) value failure) : SampleStop env memory argv (.table failure)

/-- The program fills its new table, or stops early at one of its writes. -/
theorem fillSample_meets [DecidableEq κ] {hash : Key κ → Hashkeys P} {alloc : Nat → Nat} {memory : Value P → CString}
    (argv : List (Value P)) {created : Hashtable P κ}
    (new : Hashtable.new (Env.strings hash false alloc) 0 = some created) :
    Meets (fillSample (Env.strings hash false alloc) memory argv created)
      (fun h => ∃ map, Shows (Env.strings_lawful hash false alloc) h map ∧
        Holds map (boundBy memory argv fun _ => none))
      (SampleStop (Env.strings hash false alloc) memory argv) := by
  have follows : Follows (Hashtable.makes (Env.strings hash false alloc)) .table (sampleCalls memory argv) created
      (fillSample (Env.strings hash false alloc) memory argv created) _ :=
    fillSample_spec argv (Shows.new new) Holds.empty
  unfold Follows at follows
  cases made : drive (Hashtable.makes (Env.strings hash false alloc)) (sampleCalls memory argv) created with
  | ok final =>
      rw [made] at follows
      obtain ⟨_, returned, rfl, map, shows, holds⟩ := follows
      rw [returned]
      exact ⟨map, shows, holds⟩
  | error failure =>
      rw [made] at follows
      dsimp only at follows
      rw [follows]
      have returns : (Env.strings hash false alloc : Env P κ).DupReturns := Env.dupReturns_of_pool rfl
      obtain ⟨before, op, after, h, calls, returned, fails⟩ := drive_error made
      obtain ⟨text, value, rfl⟩ : ∃ text value, op = .writeValue (.string text) value :=
        mem_sampleCalls (calls ▸ List.mem_append_right before List.mem_cons_self)
      have inv : Inv (Env.strings hash false alloc) h := drive_preserves returned _ (new_spec new).1
        fun _ _ _ _ inv made => inv.makes returns made
      rw [makes_writeValue] at fails
      cases wrote : h.writeValue (Env.strings hash false alloc) (.own (.string text)) value with
      | ok =>
          rw [wrote] at fails
          cases fails
      | error failure' =>
          rw [wrote] at fails
          cases fails
          have readable : h.Readable (.own (.string text)) := trivial
          exact .write new calls returned wrote
            ((writeValue_spec (fun _ => returns.grants h _) inv readable).of_error wrote)

/-- The sample program prints the number of its different keys, the last value of each argument that is a
key, and each key once with its last value. It stops early only when the table gets no memory or reaches a
limit. -/
theorem sample_prints_bindings [DecidableEq κ] (hash : Key κ → Hashkeys P) (alloc : Nat → Nat)
    (memory : Value P → CString) (program : CString) (argv : List (Value P)) (given : argv.length ≠ 0)
    (paired : argv.length % 2 = 0) :
    Meets (sampleMain (Env.strings hash false alloc) memory program argv)
      (fun result => ∃ shown : List (CString × Value P), (shown.map Prod.fst).Nodup ∧
        (∀ text value, (text, value) ∈ shown ↔ boundBy memory argv (fun _ => none) text = some value) ∧
        result = (true, sampleOutput memory argv (boundBy memory argv fun _ => none) shown))
      (SampleStop (Env.strings hash false alloc) memory argv) := by
  unfold sampleMain
  rw [if_neg (by omega)]
  cases new : Hashtable.new (Env.strings hash false alloc) 0 with
  | none => exact .table new
  | some created =>
      refine Meets.bind (fillSample_meets argv new) ?_
      rintro h ⟨map, shows, holds⟩
      have inv := shows.inv
      obtain ⟨slots, enumeration⟩ := h.exists_enumeration 0
      obtain ⟨shown, listed, distinct, members, length⟩ := holds.shown shows enumeration
      have live : ∀ slot ∈ slots, (h.item slot).name ≠ none := fun slot member =>
        (((enumeration.spec inv.stash.toBounded).2 slot).mp member).2.1
      have count : slots.length = h.used := (enumeration.length_eq inv.stash.toBounded).trans inv.used_eq.symm
      have half := inv.half
      have powers : 2 ^ (h.lgSize - 1) ≤ 2 ^ h.lgSize := Nat.pow_le_pow_right Nat.two_pos (Nat.sub_le _ _)
      have enough : slots.length < 2 ^ h.lgSize + stashSize + 1 := by omega
      have present : ∀ key ∈ argvKeys argv, boundBy memory argv (fun _ => none) (memory key) ≠ none :=
        fun key member => boundBy_ne_none memory argv _ _ (.inl (List.mem_map_of_mem member))
      obtain ⟨t, deleted⟩ := shows.delete
      dsimp only
      rw [checkSample_eq argv _ shows holds present, ok_bind,
        enumerateSample_eq _ enumeration live listed enough, ok_bind, deleted]
      refine ⟨shown, distinct, members, Prod.ext rfl ?_⟩
      show _ = sampleOutput memory argv _ shown
      rw [← length]
      rfl

/-- Two keys, one of them given twice. Each address holds a string of one character. -/
theorem sample_prints_bindings_lengths :
    ∃ shown : List (CString × Value Platform.lp64), (shown.map Prod.fst).Nodup ∧
      sampleOutput (fun address => CString.read [UInt8.ofNat address.toNat]) [97, 120, 98, 121, 97, 122]
        (boundBy (fun address => CString.read [UInt8.ofNat address.toNat]) [97, 120, 98, 121, 97, 122]
          fun _ => none) shown =
        ascii "stored 2 keys\nChecking keys:\na=z\nb=y\na=z\nEnumerating keys:\nb=y\na=z\n" := by
  let memory : Value Platform.lp64 → CString := fun address => CString.read [UInt8.ofNat address.toNat]
  have printed : sampleMain Env.lengths memory CString.empty [97, 120, 98, 121, 97, 122] =
      .ok (true, ascii "stored 2 keys\nChecking keys:\na=z\nb=y\na=z\nEnumerating keys:\nb=y\na=z\n") := by
    decide +kernel
  obtain ⟨shown, distinct, -, same⟩ := (sample_prints_bindings _ _ memory CString.empty
    [97, 120, 98, 121, 97, 122] (by decide) (by decide)).of_ok printed
  exact ⟨shown, distinct, (Prod.mk.inj same).2.symm⟩

end Coucal
