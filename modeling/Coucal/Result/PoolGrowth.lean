import Coucal.Proof.Invariant

namespace Coucal

open Outcome

variable {P : Platform} {κ : Type} {env : Env P κ}

/-- The search ends at a capacity that did not wrap, has room for the key and is above the old one, or an
assertion rejects the key while the pool is as it was. -/
def Hashtable.GrowthEnds (env : Env P κ) (t : Hashtable P κ) (name : Name κ) (text : CString) : Prop :=
  (∃ rounds doublings,
    searchCapacity P ((t.pool.size + (text.strlen + 1)) % 2 ^ P.wordSize) rounds minPoolCapacity =
      .ok (minPoolCapacity * 2 ^ doublings) ∧
    minPoolCapacity * 2 ^ doublings < 2 ^ P.wordSize ∧
    t.pool.size + (text.strlen + 1) ≤ minPoolCapacity * 2 ^ doublings ∧
    t.pool.capacity < minPoolCapacity * 2 ^ doublings) ∨
  ∃ which, t.stageName env name text = .error (.assertion which) ∧
    t.dupNameInternal env name = .error (.assertion which)

theorem minPoolCapacity_mul (doublings : Nat) : minPoolCapacity * 2 ^ doublings = 2 ^ (8 + doublings) :=
  (Nat.pow_add 2 8 doublings).symm

/-- A capacity that did not wrap is at most half of the word. -/
theorem capacity_le_half {doublings : Nat} (fits : minPoolCapacity * 2 ^ doublings < 2 ^ P.wordSize) :
    minPoolCapacity * 2 ^ doublings ≤ 2 ^ (P.wordSize - 1) := by
  rw [minPoolCapacity_mul] at fits ⊢
  have below := (Nat.pow_lt_pow_iff_right Nat.one_lt_two).mp fits
  exact Nat.pow_le_pow_right Nat.two_pos (Nat.le_sub_one_of_lt below)

/-- A search for more than half of the word never ends: it passes through zero. -/
theorem searchCapacity_hangs {needed : Nat} (large : 2 ^ (P.wordSize - 1) < needed) (rounds doublings : Nat)
    (fits : minPoolCapacity * 2 ^ doublings < 2 ^ P.wordSize) :
    searchCapacity P needed rounds (minPoolCapacity * 2 ^ doublings) = .error .hang := by
  induction rounds generalizing doublings with
  | zero => rfl
  | succ rounds ih =>
      have less := (capacity_le_half fits).trans_lt large
      have double : minPoolCapacity * 2 ^ doublings * 2 = minPoolCapacity * 2 ^ (doublings + 1) := by
        rw [Nat.pow_succ, Nat.mul_assoc]
      rw [searchCapacity, if_pos less, double]
      rcases Nat.lt_or_ge (minPoolCapacity * 2 ^ (doublings + 1)) (2 ^ P.wordSize) with fits' | wraps
      · rw [Nat.mod_eq_of_lt fits']
        exact ih (doublings + 1) fits'
      · rw [minPoolCapacity_mul] at fits wraps ⊢
        have below := (Nat.pow_lt_pow_iff_right Nat.one_lt_two).mp fits
        have above := (Nat.pow_le_pow_iff_right Nat.one_lt_two).mp wraps
        have top : 8 + (doublings + 1) = P.wordSize := by omega
        rw [top, Nat.mod_self]
        exact searchCapacity_zero (Nat.zero_lt_of_lt large) rounds

/-- A search for at most half of the word ends. -/
theorem searchCapacity_ends {needed : Nat} (small : needed ≤ 2 ^ (P.wordSize - 1)) :
    ∃ doublings, searchCapacity P needed (P.wordSize + 1) minPoolCapacity =
        .ok (minPoolCapacity * 2 ^ doublings) ∧
      minPoolCapacity * 2 ^ doublings < 2 ^ P.wordSize ∧ needed ≤ minPoolCapacity * 2 ^ doublings := by
  have word := P.word_ge
  have ends : Meets (searchCapacity P needed (P.wordSize + 1) minPoolCapacity) _ _ :=
    searchCapacity_spec (P.wordSize + 1) 0 (by omega) (by omega) (.inl rfl)
  cases found : searchCapacity P needed (P.wordSize + 1) minPoolCapacity with
  | error error =>
      obtain ⟨-, large⟩ := ends.of_error found
      exact absurd small (Nat.not_le.mpr large)
  | ok capacity =>
      obtain ⟨⟨enough, doublings, rfl, -⟩, half⟩ := ends.of_ok found
      refine ⟨doublings, rfl, ?_, enough⟩
      have positive : 0 < minPoolCapacity * 2 ^ doublings := Nat.mul_pos (by decide) (Nat.two_pow_pos _)
      omega

/-- Without memory for a copy of a pooled key the call fails before the search. -/
theorem dupNameInternal_unstaged {t : Hashtable P κ} {name : Name κ} {text : CString}
    (key : t.key name = .string text) (nonempty : 2 ≤ text.strlen + 1) (size_le : t.pool.size ≤ t.pool.capacity)
    (full : t.pool.capacity - t.pool.size < text.strlen + 1) (pooled : t.isPooled name = true)
    (null : env.alloc t.allocs = 0) :
    t.stageName env name text = .error (.assertion .stagingMemory) ∧
      t.dupNameInternal env name = .error (.assertion .stagingMemory) := by
  have staging : t.stageName env name text = .error (.assertion .stagingMemory) := by
    rw [Hashtable.stageName, if_pos pooled, Hashtable.malloc, null]
    rfl
  refine ⟨staging, ?_⟩
  rw [Hashtable.dupNameInternal, key, Key.text, ok_bind, if_neg (by omega), coucalAssert, Outcome.guard,
    if_pos size_le, ok_bind, Hashtable.makeRoom, if_pos full, Hashtable.growPool, staging]
  rfl

/-- A sum that does not wrap is in reach of the search up to half of the word. -/
theorem growthEnds_iff {t : Hashtable P κ} {name : Name κ} {text : CString} (key : t.key name = .string text)
    (nonempty : 2 ≤ text.strlen + 1) (size_le : t.pool.size ≤ t.pool.capacity)
    (fits : t.pool.size + (text.strlen + 1) < 2 ^ P.wordSize)
    (full : t.pool.capacity - t.pool.size < text.strlen + 1) :
    t.GrowthEnds env name text ↔
      t.pool.size + (text.strlen + 1) ≤ 2 ^ (P.wordSize - 1) ∨
        t.isPooled name = true ∧ env.alloc t.allocs = 0 := by
  constructor
  · rintro (⟨_, doublings, -, exact_, enough, -⟩ | ⟨which, rejected, -⟩)
    · exact .inl (enough.trans (capacity_le_half exact_))
    · rw [Hashtable.stageName] at rejected
      split at rejected
      next pooled =>
        cases allocated : t.malloc env .stagingMemory with
        | error error => exact .inr ⟨pooled, ((malloc_spec env t _).of_error allocated).2⟩
        | ok =>
            rw [allocated] at rejected
            cases rejected
      next => cases rejected
  · rintro (small | ⟨pooled, null⟩)
    · obtain ⟨doublings, ends, exact_, enough⟩ := searchCapacity_ends small
      rw [← Nat.mod_eq_of_lt fits] at ends
      exact .inl ⟨_, doublings, ends, exact_, enough, by omega⟩
    · exact .inr ⟨_, dupNameInternal_unstaged key nonempty size_le full pooled null⟩

/-- The first string of a table, with one character. -/
theorem growthEnds_iff_lengths :
    ∃ (t : Hashtable Platform.lp64 Empty) (name : Name Empty), t.key name = .string (CString.read [97]) ∧
      t.GrowthEnds Env.lengths name (CString.read [97]) := by
  obtain ⟨t, new⟩ : ∃ t : Hashtable Platform.lp64 Empty, Hashtable.new Env.lengths 0 = some t := ⟨_, rfl⟩
  obtain ⟨-, -, -, empty⟩ := new_spec new
  refine ⟨t, .own (.string (CString.read [97])), rfl, ?_⟩
  have small : t.pool.size + ((CString.read [97]).strlen + 1) ≤ 2 ^ (Platform.lp64.wordSize - 1) := by
    rw [empty]
    decide
  refine (growthEnds_iff rfl (by decide) ?_ ?_ ?_).mpr (.inl small) <;> rw [empty] <;> decide

/-- Beyond half of the word the call never returns, unless staging has no memory. -/
theorem dupNameInternal_hangs {t : Hashtable P κ} {name : Name κ} {text : CString}
    (key : t.key name = .string text) (nonempty : 2 ≤ text.strlen + 1) (size_le : t.pool.size ≤ t.pool.capacity)
    (fits : t.pool.size + (text.strlen + 1) < 2 ^ P.wordSize)
    (full : t.pool.capacity - t.pool.size < text.strlen + 1) (outside : t.isPooled name = false)
    (large : 2 ^ (P.wordSize - 1) < t.pool.size + (text.strlen + 1)) :
    t.dupNameInternal env name = .error .hang := by
  have least : minPoolCapacity * 2 ^ 0 < 2 ^ P.wordSize :=
    Nat.pow_lt_pow_right (by decide : 1 < 2) (Nat.lt_of_lt_of_le (by decide : 8 < 16) P.word_ge)
  have search := searchCapacity_hangs large (P.wordSize + 1) 0 least
  rw [Nat.pow_zero, Nat.mul_one] at search
  rw [Hashtable.dupNameInternal, key, Key.text, ok_bind, if_neg (by omega), coucalAssert, Outcome.guard,
    if_pos size_le, ok_bind, Hashtable.makeRoom, if_pos full, Hashtable.growPool, Hashtable.stageName,
    if_neg (by rw [outside]; exact Bool.false_ne_true), ok_bind]
  dsimp only
  rw [Nat.mod_eq_of_lt fits, search]
  rfl

/-- A string of one repeated character. -/
def CString.repeated (count : Nat) : CString where
  chars := List.replicate count 97
  noNul member := absurd (List.eq_of_mem_replicate member) (by decide)

theorem CString.repeated_strlen (count : Nat) : (CString.repeated count).strlen = count := List.length_replicate

/-- With a `size_t` of 32 bits a new table never finds a capacity for a string of `2 ^ 31` characters. -/
theorem growth_without_end :
    ∃ (P : Platform) (env : Env P Empty) (t : Hashtable P Empty) (name : Name Empty),
      P.wordSize = 32 ∧ Hashtable.new env 0 = some t ∧ t.key name = .string (CString.repeated (2 ^ 31)) ∧
      t.pool.size + (2 ^ 31 + 1) < 2 ^ P.wordSize ∧ t.pool.capacity - t.pool.size < 2 ^ 31 + 1 ∧
      t.dupNameInternal env name = .error .hang ∧
      ¬ t.GrowthEnds env name (CString.repeated (2 ^ 31)) := by
  let P : Platform := { hashSize := 32, wordSize := 32, intSize := 32, itemSize := 16 }
  let env : Env P Empty := Env.strings (fun _ => ⟨0, 0⟩) false fun count => 4096 * (count + 1)
  obtain ⟨t, new⟩ : ∃ t : Hashtable P Empty, Hashtable.new env 0 = some t := ⟨_, rfl⟩
  obtain ⟨-, -, -, empty⟩ := new_spec new
  have length := CString.repeated_strlen (2 ^ 31)
  generalize CString.repeated (2 ^ 31) = text at length ⊢
  have fits : t.pool.size + (text.strlen + 1) < 2 ^ P.wordSize := by
    rw [empty, length]
    decide
  have full : t.pool.capacity - t.pool.size < text.strlen + 1 := by
    rw [empty, length]
    decide
  have large : 2 ^ (P.wordSize - 1) < t.pool.size + (text.strlen + 1) := by
    rw [empty, length]
    decide
  have endless : t.dupNameInternal env (.own (.string text)) = .error .hang :=
    dupNameInternal_hangs rfl (by omega) (by rw [empty]) fits full rfl large
  rw [length] at fits full
  refine ⟨P, env, t, .own (.string text), rfl, new, rfl, fits, full, endless, ?_⟩
  rintro (⟨_, doublings, -, exact_, enough, -⟩ | ⟨which, -, rejected⟩)
  · exact absurd (enough.trans (capacity_le_half exact_)) (Nat.not_le.mpr large)
  · rw [endless] at rejected
    cases rejected

end Coucal
