import Coucal.Proof.Harness

namespace Coucal

variable {P : Platform} {κ : Type} {env : Env P κ}

/-- A call fails at the size limits of the table, at the insertion of its own new key into a full
stash, or in the search for a capacity beyond half of the word. -/
inductive Fails (env : Env P κ) (t : Hashtable P κ) (op : Op P (Name κ)) : Failure → Prop where
  | acceptablePow2 : Fails env t op (.assertion .acceptablePow2)
  | sizeOverflow : Fails env t op (.assertion .sizeOverflow)
  | stashCollision {name : Name κ} {value : Value P} (adds : op.adds? = some (name, value))
      (own : t.writeValue_ env name value = .error (.assertion .stashCollision)) :
      Fails env t op (.assertion .stashCollision)
  | hang {name : Name κ} {value : Value P} {text : CString} (adds : op.adds? = some (name, value))
      (key : t.key name = .string text)
      (large : 2 ^ (P.wordSize - 1) < t.pool.size + (text.strlen + 1)) : Fails env t op .hang

/-- An error of an insertion is one of these when the allocator returns memory and the size of the pool
fits in the word. -/
theorem WriteError.fails {t : Hashtable P κ} {op : Op P (Name κ)} {name : Name κ} {value : Value P}
    {error : Failure} (memory : ∀ count, env.alloc count ≠ 0) (adds : op.adds? = some (name, value))
    (strings : env.dup = none → ∃ text, t.key name = .string text ∧
      t.pool.size + (text.strlen + 1) < 2 ^ P.wordSize)
    (failed : WriteError env t name value error) : Fails env t op error := by
  have enough : ¬ t.ShortOfMemory env := fun ⟨count, _, _, null⟩ => memory count null
  cases failed with
  | duplication pool duplication =>
      obtain ⟨text, key, fits⟩ := strings pool
      cases duplication with
      | memory null => exact absurd null.short enough
      | object other => cases key.symm.trans other
      | word key' large =>
          cases key.symm.trans key'
          exact absurd fits (Nat.not_lt.mpr large)
      | hang key' large => exact .hang adds key' large
  | stashCollision own => exact .stashCollision adds own
  | acceptablePow2 => exact .acceptablePow2
  | sizeOverflow => exact .sizeOverflow
  | tableMemory short => exact absurd short enough

/-- A call on a reachable table fails in these ways only. -/
theorem reachable_call_fails {t : Hashtable P κ} {op : Op P (Name κ)} {error : Failure}
    (returns : env.DupReturns) (memory : ∀ count, env.alloc count ≠ 0) (reachable : Reachable env t)
    (readable : ∀ name, op.name? = some name → t.Readable name)
    (strings : env.dup = none → ∀ name value, op.adds? = some (name, value) →
      ∃ text, t.key name = .string text ∧ t.pool.size + (text.strlen + 1) < 2 ^ P.wordSize)
    (failed : t.apply env op = .error error) : Fails env t op error := by
  have accepted := (apply_spec (returns.grantsCall t op) (reachable.inv returns) readable).of_error failed
  cases op with
  | writeValue name value => exact WriteError.fails memory rfl (fun pool => strings pool _ _ rfl) accepted
  | inc name => exact WriteError.fails memory rfl (fun pool => strings pool _ _ rfl) accepted
  | dec name => exact WriteError.fails memory rfl (fun pool => strings pool _ _ rfl) accepted
  | remove name => exact absurd accepted.null (memory _)
  | readValue | exists_ | fetchValueHashes | nitems | enumNext => exact accepted.elim

section Collision

/-- With one pair of hashes for all keys, all entries lie in two slots and the stash. -/
theorem Inv.used_le {t : Hashtable P κ} (inv : Inv env t) {hashes : Hashkeys P}
    (constant : ∀ key, env.hash key = hashes) : t.used ≤ 2 + stashSize := by
  have shape := inv.representation
  have slots : ((Finset.range (2 ^ t.lgSize)).filter fun i => (t.items i).name ≠ none) ⊆
      {hashToPos_ t.lgSize hashes.hash1, hashToPos_ t.lgSize hashes.hash2} := by
    intro i member
    obtain ⟨inside, live⟩ := Finset.mem_filter.mp member
    obtain ⟨name, named⟩ := Option.ne_none_iff_exists'.mp live
    obtain ⟨key, -, same⟩ := shape.written (.table i) name (Finset.mem_range.mp inside) named
    have place := shape.position i (Finset.mem_range.mp inside) live
    change (t.items i).hashes = env.hash key at same
    rw [same, constant] at place
    exact Finset.mem_insert.mpr (place.imp_right Finset.mem_singleton.mpr)
  have stash : ((Finset.range stashSize).filter fun i => (t.stash.items i).name ≠ none).card ≤ stashSize :=
    (Finset.card_filter_le _ _).trans_eq (Finset.card_range stashSize)
  rw [shape.used_eq]
  exact Nat.add_le_add ((Finset.card_le_card slots).trans Finset.card_le_two) stash

/-- A table that holds the first keys of a family, one doubling for each of them at most. -/
structure Filled (lawful : env.Lawful) (key : Nat → Key κ) (count : Nat) (t : Hashtable P κ) : Prop where
  reachable : Reachable env t
  shows : ∃ map, Shows lawful t map ∧ map.keys.card = count ∧ ∀ index, (map.find (key index)).isSome → index < count
  lgSize_le : t.lgSize ≤ minLgSize + count

/-- A write of the next key that returns adds it. -/
theorem Filled.write {lawful : env.Lawful} {key : Nat → Key κ} {count : Nat} {t t' : Hashtable P κ} {added : Bool}
    (filled : Filled lawful key count t) (apart : ∀ i j, env.equals (key i) (key j) = true → i = j)
    (returned : t.writeValue env (.own (key count)) 0 = .ok (added, t')) : Filled lawful key (count + 1) t' := by
  obtain ⟨⟨initialSize, created, events, new, run⟩, ⟨map, shows, card, only⟩, lgSize⟩ := filled
  have absent : (map.find (key count)).isSome = false :=
    Bool.eq_false_iff.mpr fun held => Nat.lt_irrefl count (only count held)
  have applied : t.apply env ((Op.writeValue (key count) 0).map .own) = .ok (.flag added, t') := by
    rw [Op.map, Hashtable.apply, returned]
    rfl
  refine ⟨⟨initialSize, created, _, new, run.snoc (.call (Op.readable_own t _) applied)⟩,
    ⟨_, ((shows.write (.own (key count)) trivial 0).of_ok returned).2, ?_, fun index held => ?_⟩, ?_⟩
  · rw [FiniteMap.Represents.keys_insert, Finset.card_insert_of_notMem, card]
    rw [Finmap.mem_keys, Finmap.mem_iff, ← Option.isSome_iff_exists]
    exact Bool.eq_false_iff.mp absent
  · rw [FiniteMap.Represents.find_insert] at held
    split at held
    next equal => exact apart count index equal ▸ Nat.lt_succ_self count
    next => exact Nat.lt_succ_of_lt (only index held)
  · have readable : t.Readable (.own (key count)) := trivial
    have outcome := writeValue_outcome lawful.dupReturns shows.inv readable returned
    cases outcome with
    | replaced => exact (Hashtable.setItem_lgSize ..).trans_le (lgSize.trans (Nat.le_succ _))
    | added _ effect => exact effect.lgSize_le.trans (Nat.succ_le_succ lgSize)

variable {env : Env Platform.lp64 κ} {lawful : env.Lawful} {key : Nat → Key κ}

/-- A write of one of the first keys can only fail at the insertion into a full stash. -/
theorem Filled.collides {count : Nat} {t : Hashtable Platform.lp64 κ} {error : Failure}
    (filled : Filled lawful key count t) (handler : env.dup ≠ none) (memory : ∀ count, env.alloc count ≠ 0)
    (few : count ≤ 2 + stashSize) (failed : t.writeValue env (.own (key count)) 0 = .error error) :
    error = .assertion .stashCollision := by
  obtain ⟨map, shows, -, -⟩ := filled.shows
  have bits : t.lgSize ≤ 22 := filled.lgSize_le.trans (Nat.add_le_add_left few minLgSize)
  have slots : 2 ^ t.lgSize ≤ 2 ^ 22 := Nat.pow_le_pow_right Nat.two_pos bits
  have reason := (shows.write (.own (key count)) trivial 0).of_error failed
  cases reason with
  | duplication pool => exact absurd pool handler
  | stashCollision => rfl
  | acceptablePow2 limit =>
      have hash : t.lgSize + 1 ≤ 32 := (Nat.succ_le_succ bits).trans (by decide)
      have word : t.lgSize + 1 < 64 := Nat.lt_of_le_of_lt hash (by decide)
      exact absurd (decide_eq_true (And.intro hash word)) limit
  | sizeOverflow limit =>
      have large : (2 ^ 64 - 1) / (2 * 24) < 2 ^ t.lgSize := limit
      omega
  | tableMemory short =>
      obtain ⟨index, _, _, null⟩ := short
      exact absurd null (memory index)

/-- Writes of keys that share their hashes reach the collision, with at most eighteen keys in the table. -/
theorem exists_collision {hashes : Hashkeys Platform.lp64} {created : Hashtable Platform.lp64 κ} (lawful : env.Lawful)
    (handler : env.dup ≠ none) (memory : ∀ count, env.alloc count ≠ 0) (constant : ∀ key, env.hash key = hashes)
    (apart : ∀ i j, env.equals (key i) (key j) = true → i = j) (new : Hashtable.new env 0 = some created)
    (least : created.lgSize = minLgSize) :
    ∃ t index, Reachable env t ∧
      t.writeValue env (.own (key index)) 0 = .error (.assertion .stashCollision) := by
  have progress (count : Nat) (few : count ≤ 3 + stashSize) : (∃ t index, Reachable env t ∧
      t.writeValue env (.own (key index)) 0 = .error (.assertion .stashCollision)) ∨
        ∃ t, Filled lawful key count t := by
    induction count with
    | zero =>
        refine .inr ⟨created, ⟨0, created, [], new, .nil _⟩, ⟨∅, .new new, rfl, fun index held => ?_⟩,
          Nat.le_of_eq least⟩
        cases held
    | succ count ih =>
        rcases ih (Nat.le_of_succ_le few) with found | ⟨t, filled⟩
        · exact .inl found
        · cases written : t.writeValue env (.own (key count)) 0 with
          | error error =>
              cases filled.collides handler memory (Nat.le_of_succ_le_succ few) written
              exact .inl ⟨t, count, filled.reachable, written⟩
          | ok result => exact .inr ⟨result.2, filled.write apart written⟩
  rcases progress (3 + stashSize) (Nat.le_refl _) with found | ⟨t, filled⟩
  · exact found
  · -- nineteen keys do not fit in two slots and the stash
    obtain ⟨map, shows, card, -⟩ := filled.shows
    have most := shows.inv.used_le constant
    rw [shows.used_eq, card] at most
    exact absurd most (by decide)

end Collision

/-- Nineteen strings with the same two hashes reach the collision on a default platform. -/
theorem reachable_call_fails_colliding :
    ∃ (env : Env Platform.lp64 Empty) (t : Hashtable Platform.lp64 Empty) (op : Op Platform.lp64 (Name Empty)),
      Reachable env t ∧ t.apply env op = .error (.assertion .stashCollision) ∧
        Fails env t op (.assertion .stashCollision) := by
  let strings : Env Platform.lp64 Empty := Env.strings (fun _ => ⟨0, 1⟩) false fun count => 4096 * (count + 1)
  let env : Env Platform.lp64 Empty := { strings with dup := some fun _ key => some key }
  have default : strings.Lawful := Env.strings_lawful _ _ _
  have lawful : env.Lawful := {
    refl := default.refl
    symm := default.symm
    trans := default.trans
    hash := default.hash
    dup := by
      rintro _ ⟨⟩ count key
      exact ⟨key, rfl, default.refl key⟩ }
  let key (index : Nat) : Key Empty := .string (keyName [] index)
  have apart : ∀ i j, env.equals (key i) (key j) = true → i = j := fun i j equal =>
    keyName_injective List.not_mem_nil (Key.string.inj (of_decide_eq_true equal))
  have memory : ∀ count, env.alloc count ≠ 0 := fun count => by simp [env, strings, Env.strings]
  obtain ⟨t, index, reachable, failed⟩ :=
    exists_collision lawful (Option.some_ne_none _) memory (fun _ => rfl) apart rfl rfl
  let op : Op Platform.lp64 (Name Empty) := .writeValue (.own (key index)) 0
  have applied : t.apply env op = .error (.assertion .stashCollision) := by
    rw [Hashtable.apply, failed]
    rfl
  refine ⟨env, t, op, reachable, applied, reachable_call_fails lawful.dupReturns memory reachable ?_ nofun applied⟩
  rintro name ⟨⟩
  trivial

end Coucal
