import Coucal.Proof.Keys
import Coucal.Proof.Search

namespace Coucal

open Outcome

variable {P : Platform} {κ : Type} {env : Env P κ}

/-- The key of an entry equals a key. -/
def Entry.Equals (env : Env P κ) (key : Key κ) (entry : Entry P κ) : Prop :=
  env.equals entry.key key = true

instance (env : Env P κ) (key : Key κ) : DecidablePred (Entry.Equals env key) :=
  fun entry => inferInstanceAs (Decidable (env.equals entry.key key = true))

/-- Each entry has the hashes of the key that it copies, and under lawful handlers no key has two
entries. -/
structure Env.Keyed (env : Env P κ) (entries : Multiset (Entry P κ)) : Prop where
  hashed : ∀ entry ∈ entries, ∃ key, env.Copies key entry.key ∧ entry.hashes = env.hash key
  distinct : env.Lawful → ∀ key, entries.countP (Entry.Equals env key) ≤ 1

/-- A copy under lawful handlers is an equal key. -/
theorem Env.Copies.equals {key copy : Key κ} (copies : env.Copies key copy) (lawful : env.Lawful) :
    env.equals copy key = true := by
  unfold Env.Copies at copies
  cases handler : env.dup with
  | none =>
      rw [handler] at copies
      rw [copies.1]
      exact lawful.refl key
  | some dup =>
      rw [handler] at copies
      obtain ⟨count, returned⟩ := copies
      obtain ⟨same, returned', equal⟩ := lawful.dup dup handler count key
      rw [returned] at returned'
      cases returned'
      exact equal

namespace Env.Keyed

variable {entries : Multiset (Entry P κ)} {entry : Entry P κ}

theorem zero : env.Keyed 0 :=
  ⟨fun _ member => absurd member (Multiset.notMem_zero _), fun _ _ => by simp⟩

/-- The stored hashes of a lawful entry are the hashes of its key. -/
theorem hash_eq (keyed : env.Keyed entries) (lawful : env.Lawful) (member : entry ∈ entries) :
    entry.hashes = env.hash entry.key := by
  obtain ⟨key, copies, hashes⟩ := keyed.hashed entry member
  rw [hashes, lawful.hash _ _ (copies.equals lawful)]

/-- Under lawful handlers a search with the hashes of a key finds the equal key. -/
theorem matches_iff (keyed : env.Keyed entries) (lawful : env.Lawful) (member : entry ∈ entries)
    {key : Key κ} : entry.Matches env key (env.hash key) ↔ entry.Equals env key := by
  constructor
  · exact And.right
  · intro equal
    exact ⟨(keyed.hash_eq lawful member).trans (lawful.hash _ _ equal), equal⟩

theorem of_cons (keyed : env.Keyed (entry ::ₘ entries)) : env.Keyed entries where
  hashed other member := keyed.hashed other (Multiset.mem_cons_of_mem member)
  distinct lawful key :=
    (Multiset.countP_le_of_le _ (Multiset.le_cons_self _ _)).trans (keyed.distinct lawful key)

/-- The other entries have other keys. -/
theorem apart {other : Entry P κ} (keyed : env.Keyed (entry ::ₘ entries)) (lawful : env.Lawful)
    (member : other ∈ entries) : ¬ other.Equals env entry.key := by
  intro equal
  have count := keyed.distinct lawful entry.key
  rw [Multiset.countP_cons_of_pos _ (show entry.Equals env entry.key from lawful.refl _)] at count
  have positive : 0 < entries.countP (Entry.Equals env entry.key) :=
    Multiset.countP_pos_of_mem member equal
  omega

/-- The value of an entry plays no part. -/
theorem setValue (keyed : env.Keyed (entry ::ₘ entries)) (value : Value P) :
    env.Keyed ({ entry with value } ::ₘ entries) where
  hashed other member := by
    rcases Multiset.mem_cons.mp member with rfl | member
    · exact keyed.hashed entry (Multiset.mem_cons_self _ _)
    · exact keyed.hashed other (Multiset.mem_cons_of_mem member)
  distinct lawful key := by
    have before := keyed.distinct lawful key
    rw [Multiset.countP_cons] at before ⊢
    exact before

/-- A new entry keeps the keys distinct when no entry matches its key. -/
theorem insert (keyed : env.Keyed entries) {key copy : Key κ} {value : Value P}
    (copies : env.Copies key copy)
    (absent : ∀ entry ∈ entries, ¬ entry.Matches env key (env.hash key)) :
    env.Keyed (⟨copy, value, env.hash key⟩ ::ₘ entries) where
  hashed other member := by
    rcases Multiset.mem_cons.mp member with rfl | member
    · exact ⟨key, copies, rfl⟩
    · exact keyed.hashed other member
  distinct lawful other := by
    by_cases same : Entry.Equals env other ⟨copy, value, env.hash key⟩
    · rw [Multiset.countP_cons_of_pos _ same, Multiset.countP_eq_zero.mpr]
      intro entry member equal
      have chained := lawful.trans _ _ _ equal (lawful.symm _ _ same)
      exact absent entry member
        ((keyed.matches_iff lawful member).mpr (lawful.trans _ _ _ chained (copies.equals lawful)))
    · rw [Multiset.countP_cons_of_neg _ same]
      exact keyed.distinct lawful other

end Env.Keyed

/-- The invariant of a table between two calls. -/
structure Inv (env : Env P κ) (t : Hashtable P κ) : Prop where
  lgSize_ge : minLgSize ≤ t.lgSize
  placed : Placed t.lgSize t.items
  stash : t.stash.Ok
  used_eq : t.used = t.live.card
  half : t.used < 2 ^ (t.lgSize - 1)
  managed : env.Managed t.pool t.names
  keyed : env.Keyed t.entries

/-- The table sizes that the search visits are not below the least one. -/
theorem searchPow2_ge (initialSize rounds size : Nat) : size ≤ searchPow2 P initialSize rounds size := by
  induction rounds generalizing size with
  | zero => exact Nat.le_refl _
  | succ rounds ih =>
      rw [searchPow2]
      split
      next => exact (Nat.le_succ size).trans (ih (size + 1))
      next => exact Nat.le_refl _

/-- A new table is empty. -/
theorem new_spec {initialSize : Nat} {created : Hashtable P κ}
    (new : Hashtable.new env initialSize = some created) :
    Inv env created ∧ created.entries = 0 ∧ created.calls = [] ∧
      created.pool = { buffer := 0, bytes := [], size := 0, capacity := 0, used := 0 } := by
  have lower : minLgSize ≤ getPow2 P initialSize := searchPow2_ge _ _ _
  have none : ∀ count, liveIn count (fun _ => Item.null P κ) = 0 :=
    fun count => liveIn_eq_zero fun _ _ => rfl
  unfold Hashtable.new at new
  dsimp only at new
  split at new
  next => cases new
  next =>
    split at new
    next =>
      cases new
      have live : liveIn (2 ^ getPow2 P initialSize) (fun _ => Item.null P κ) +
          liveIn stashSize (fun _ => Item.null P κ) = 0 := by rw [none, none, add_zero]
      refine ⟨⟨lower, fun _ _ named => absurd rfl named, Stash.ok_empty, ?_, Nat.two_pow_pos _, ?_, ?_⟩,
        ?_, rfl, rfl⟩
      · exact (congrArg Multiset.card live).symm
      · simp only [Hashtable.names, Hashtable.live, live, Multiset.filterMap_zero]
        unfold Env.Managed
        split
        next =>
          exact ⟨⟨rfl, Nat.le_refl _, fun _ member => absurd member (Multiset.notMem_zero _),
            Bytes.apart_zero⟩, fun _ => rfl, rfl, Nat.le_refl _⟩
        next => exact fun _ member => absurd member (Multiset.notMem_zero _)
      · simp only [Hashtable.entries, Hashtable.live, live, Multiset.filterMap_zero]
        exact .zero
      · simp only [Hashtable.entries, Hashtable.live, live, Multiset.filterMap_zero]
    next => cases new

end Coucal
