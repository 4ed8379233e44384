import Coucal.Abstract.Contents

namespace Coucal

open Bytes

variable {P : Platform} {κ : Type} {env : Env P κ}

/-- The pool holds the keys of the entries as they were first written. A name of an empty key is the
shared empty string, and the bytes of two other names are apart. -/
structure PoolLayout (t : Hashtable P κ) (written : Multiset (Entry P κ)) : Prop where
  written_eq : t.entries = written
  stored : ∀ slot name, t.Within slot → (t.item slot).name = some name →
    ∃ text, t.key name = .string text ∧ t.pool.Stored name text
  disjoint : ∀ slot other name name', slot ≠ other → t.Within slot → t.Within other →
    (t.item slot).name = some name → (t.item other).name = some name' →
    ∀ i, Covers i (t.pool.region name) → ¬ Covers i (t.pool.region name')
  used_eq : t.pool.used = (written.map fun entry => entry.key.footprint).sum
  used_le : t.pool.used ≤ t.pool.size
  size_le : t.pool.size ≤ t.pool.capacity
  length_eq : t.pool.bytes.length = t.pool.capacity

/-- The names of two slots lie apart in the pool. -/
theorem Pool.Layout.disjoint {t : Hashtable P κ} (layout : t.pool.Layout t.names) {slot other : Slot}
    {name name' : Name κ} (apart : slot ≠ other) (inside : t.Within slot) (inside' : t.Within other)
    (named : (t.item slot).name = some name) (named' : (t.item other).name = some name') {i : Nat}
    (covered : Covers i (t.pool.region name)) : ¬ Covers i (t.pool.region name') := by
  have regions := layout.apart
  rw [Hashtable.names_clear inside named (Item.null_name (P := P)), Multiset.map_cons] at regions
  refine regions.outside (Multiset.mem_map_of_mem _ (Hashtable.mem_names.mpr ⟨other, ?_, ?_⟩)) covered
  · exact (Hashtable.within_setItem _).mpr inside'
  · rw [Hashtable.item_setItem_of_ne t _ apart.symm]
    exact named'

theorem Inv.poolLayout {t : Hashtable P κ} (inv : Inv env t) (pool : env.dup = none) :
    PoolLayout t t.entries := by
  have ok := (Env.managed_pool pool).mp inv.managed
  refine ⟨rfl, ?_, ?_, ?_, ok.used_le, ok.size_le, ok.length_eq⟩
  · intro slot name inside named
    obtain ⟨text, stored⟩ := ok.stored name (Hashtable.mem_names.mpr ⟨slot, inside, named⟩)
    exact ⟨text, stored.key_eq, stored⟩
  · intro slot other name name' apart inside inside' named named' i
    exact ok.disjoint apart inside inside' named named'
  · rw [ok.used_eq, t.footprint_names]

/-- In each run of a table with the pool, the pool holds the keys that the run has written. -/
theorem run_poolLayout {initialSize : Nat} {created t : Hashtable P κ} {events : List (Event P κ)}
    (pool : env.dup = none) (new : Hashtable.new env initialSize = some created)
    (run : Run env created events t) :
    ∃ written, Contents.Run env 0 events written ∧ PoolLayout t written := by
  obtain ⟨inv, empty, -⟩ := new_spec new
  have returns := Env.dupReturns_of_pool pool
  have contents := Run.contents returns inv run
  rw [empty] at contents
  exact ⟨t.entries, contents, (Run.inv returns inv run).poolLayout pool⟩

/-- Two keys, one of them empty, and a removed key. -/
theorem run_poolLayout_lengths :
    ∃ (t : Hashtable Platform.lp64 Empty) (written : Multiset (Entry Platform.lp64 Empty)),
      Contents.Run Env.lengths 0 [(.writeValue (.string ⟨[], by decide⟩) 5, .flag true),
        (.writeValue (.string ⟨[97, 98], by decide⟩) 6, .flag true),
        (.writeValue (.string ⟨[99], by decide⟩) 7, .flag true),
        (.remove (.string ⟨[97, 98], by decide⟩), .flag true)] written ∧ PoolLayout t written := by
  have answers : (Hashtable.session Env.lengths 0 [.writeValue (.string ⟨[], by decide⟩) 5,
      .writeValue (.string ⟨[97, 98], by decide⟩) 6, .writeValue (.string ⟨[99], by decide⟩) 7,
      .remove (.string ⟨[97, 98], by decide⟩)]).map Prod.fst =
      some [.flag true, .flag true, .flag true, .flag true] := by
    decide +kernel
  obtain ⟨⟨_, t⟩, completed, rfl⟩ := Option.map_eq_some_iff.mp answers
  obtain ⟨created, new, run⟩ := Hashtable.session_run completed
  exact ⟨t, run_poolLayout rfl new run⟩

end Coucal
