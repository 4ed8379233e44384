import Coucal.Construction.System
import Coucal.Proof.Relocation

namespace Coucal

open Bytes Outcome

variable {P : Platform} {κ : Type}

/-- The capacity is the first of the doublings of the least capacity that is not below the need. -/
def FirstCapacity (needed capacity : Nat) : Prop :=
  needed ≤ capacity ∧ ∃ doublings, capacity = minPoolCapacity * 2 ^ doublings ∧
    (doublings = 0 ∨ minPoolCapacity * 2 ^ (doublings - 1) < needed)

/-- A search from zero never ends. -/
theorem searchCapacity_zero {needed : Nat} (positive : 0 < needed) (rounds : Nat) :
    searchCapacity P needed rounds 0 = .error .hang := by
  induction rounds with
  | zero => rfl
  | succ rounds ih => rw [searchCapacity, if_pos positive, Nat.zero_mul, Nat.zero_mod, ih]

/-- The search ends unless the need exceeds half of the word. -/
theorem searchCapacity_spec {needed : Nat} (rounds doublings : Nat) (enough : P.wordSize ≤ rounds + doublings)
    (fits : 8 + doublings < P.wordSize)
    (below : doublings = 0 ∨ minPoolCapacity * 2 ^ (doublings - 1) < needed) :
    Meets (searchCapacity P needed rounds (minPoolCapacity * 2 ^ doublings))
      (fun capacity => FirstCapacity needed capacity ∧ 2 * capacity ≤ 2 ^ P.wordSize)
      fun error => error = .hang ∧ 2 ^ (P.wordSize - 1) < needed := by
  have power : ∀ n, minPoolCapacity * 2 ^ n = 2 ^ (8 + n) := fun n => (Nat.pow_add 2 8 n).symm
  induction rounds generalizing doublings with
  | zero => omega
  | succ rounds ih =>
      rw [searchCapacity]
      split
      next less =>
        have double : minPoolCapacity * 2 ^ doublings * 2 = minPoolCapacity * 2 ^ (doublings + 1) := by
          rw [Nat.pow_succ, Nat.mul_assoc]
        rw [double]
        rcases Nat.lt_or_ge (8 + (doublings + 1)) P.wordSize with fits' | wraps
        · have bound := Nat.pow_lt_pow_right (by decide : 1 < 2) fits'
          rw [Nat.mod_eq_of_lt (by rw [power]; exact bound)]
          exact ih (doublings + 1) (by omega) fits' (.inr less)
        · -- the doubled capacity is the size of the word, and the search goes on from zero
          have top : P.wordSize = 8 + (doublings + 1) := by omega
          rw [power, top, Nat.mod_self, searchCapacity_zero (Nat.zero_lt_of_lt less)]
          refine ⟨rfl, ?_⟩
          rw [← Nat.add_assoc, Nat.add_sub_cancel, ← power]
          exact less
      next reached =>
        refine ⟨⟨Nat.le_of_not_lt reached, doublings, rfl, below⟩, ?_⟩
        rw [power, Nat.mul_comm, ← Nat.pow_succ]
        exact Nat.pow_le_pow_right (by decide) fits

/-- The names of the live items under the two ways to keep keys. -/
def Env.Managed (env : Env P κ) (pool : Pool) (names : Multiset (Name κ)) : Prop :=
  match env.dup with
  | none => pool.Ok names
  | some _ => ∀ name ∈ names, ∃ key, name = .own key

/-- The content of a duplicate. -/
def Env.Copies (env : Env P κ) (key copy : Key κ) : Prop :=
  match env.dup with
  | none => copy = key ∧ ∃ text, key = .string text
  | some dup => ∃ count, dup count key = some copy

/-- A state of a call that has made at most two allocations. -/
def Spent (t s : Hashtable P κ) : Prop := t.allocs ≤ s.allocs ∧ s.allocs ≤ t.allocs + 2

theorem Spent.refl (t : Hashtable P κ) : Spent t t := ⟨Nat.le_refl _, Nat.le_add_right _ _⟩

theorem Spent.of_eq {t s s' : Hashtable P κ} (spent : Spent t s) (allocs : s'.allocs = s.allocs) : Spent t s' := by
  unfold Spent
  rw [allocs]
  exact spent

theorem Spent.from_eq {t t' s : Hashtable P κ} (spent : Spent t' s) (allocs : t'.allocs = t.allocs) : Spent t s := by
  unfold Spent at spent
  rw [allocs] at spent
  exact spent

/-- One of the next three allocations gets NULL. -/
def Hashtable.ShortOfMemory (env : Env P κ) (t : Hashtable P κ) : Prop :=
  ∃ count, t.allocs ≤ count ∧ count ≤ t.allocs + 2 ∧ env.alloc count = 0

theorem Spent.short {env : Env P κ} {t s : Hashtable P κ} (spent : Spent t s) (null : env.alloc s.allocs = 0) :
    t.ShortOfMemory env := ⟨_, spent.1, spent.2, null⟩

/-- A call fails the assertion on one of its allocations, which has got NULL. -/
structure NoMemory (env : Env P κ) (t : Hashtable P κ) (error : Failure) : Prop where
  asserted : error.onMemory = true
  short : t.ShortOfMemory env

/-- The errors of a duplication into the pool: no memory, no string, or a size near the end of the word. -/
inductive DupError (env : Env P κ) (t : Hashtable P κ) (name : Name κ) : Failure → Prop where
  | memory {error : Failure} (null : NoMemory env t error) : DupError env t name error
  | object {value : κ} (key : t.key name = .object value) : DupError env t name .fault
  | word {text : CString} {error : Failure} (key : t.key name = .string text)
      (large : 2 ^ P.wordSize ≤ t.pool.size + (text.strlen + 1))
      (limit : error = .assertion .sizeInGrown ∨ error = .assertion .nameFits ∨ error = .fault) :
      DupError env t name error
  | hang {text : CString} (key : t.key name = .string text)
      (large : 2 ^ (P.wordSize - 1) < t.pool.size + (text.strlen + 1)) : DupError env t name .hang

/-- An error of a duplication depends on the key, the pool and the allocations only. -/
theorem DupError.of_eq {env : Env P κ} {t t' : Hashtable P κ} {name : Name κ} {error : Failure}
    (failed : DupError env t' name error) (key : t'.key name = t.key name) (pool : t'.pool = t.pool)
    (allocs : t'.allocs = t.allocs) : DupError env t name error := by
  cases failed with
  | memory null =>
      have short := null.short
      unfold Hashtable.ShortOfMemory at short
      rw [allocs] at short
      exact .memory ⟨null.asserted, short⟩
  | object same => exact .object (key ▸ same)
  | word same large limit => exact .word (key ▸ same) (pool ▸ large) limit
  | hang same large => exact .hang (key ▸ same) (pool ▸ large)

/-- The error of a release: a compaction of the pool gets no memory. -/
structure ReleaseError (env : Env P κ) (t : Hashtable P κ) (error : Failure) : Prop where
  pool : env.dup = none
  asserted : error = .assertion .compactionMemory
  null : env.alloc t.allocs = 0

/-- The capacity stays when a string fits above the watermark, and otherwise grows to the first one that
holds the bytes below the watermark and the string. -/
def Room (t : Hashtable P κ) (text : CString) (capacity : Nat) : Prop :=
  if text.chars = [] ∨ text.strlen + 1 ≤ t.pool.capacity - t.pool.size then capacity = t.pool.capacity
  else FirstCapacity (t.pool.size + (text.strlen + 1)) capacity

/-- A duplication may rename the items, and returns a name for the copy. -/
structure Duplicated (env : Env P κ) (t : Hashtable P κ) (name copy : Name κ) (t' : Hashtable P κ) :
    Prop where
  repooled : Repooled t t'
  managed : env.Managed t'.pool (copy ::ₘ t'.names)
  copies : env.Copies (t.key name) (t'.key copy)
  calls_eq : t'.calls = if env.dup.isNone then t.calls else .dup (t.key name) (some (t'.key copy)) :: t.calls
  capacity : env.dup = none → ∀ text, t.key name = .string text → Room t text t'.pool.capacity
  spent : Spent t t'

/-- A change of the counter of allocations has no effect on a resize. -/
theorem Resized.of_allocs {t t' : Hashtable P κ} {capacity allocs : Nat}
    (resized : Resized { t with allocs } capacity t') : Resized t capacity t' where
  repooled := ⟨resized.repooled.frame, resized.repooled.table, resized.repooled.stash⟩
  ok := resized.ok
  capacity_eq := resized.capacity_eq
  size_le := resized.size_le
  used_eq := resized.used_eq
  calls_eq := resized.calls_eq

/-- The growth stages every readable pointer to the pool. -/
theorem isPooled_of_readable {t : Hashtable P κ} {address : Nat} (ok : t.pool.Ok t.names)
    (readable : t.Readable (.pooled address)) : t.isPooled (.pooled address) = true := by
  obtain ⟨based, below⟩ := readable
  have inside := Nat.lt_of_lt_of_le below ok.size_le
  have nonzero : t.pool.buffer ≠ 0 := fun null => by
    rw [ok.based null] at inside
    exact absurd inside (Nat.not_lt_zero _)
  simp [Hashtable.isPooled, nonzero, based, inside]

/-- A readable name that the growth does not stage lies outside the pool. -/
theorem key_of_not_pooled {t t' : Hashtable P κ} {name : Name κ} (ok : t.pool.Ok t.names)
    (readable : t.Readable name) (outside : t.isPooled name = false) : t'.key name = t.key name := by
  cases name with
  | own | emptyString => rfl
  | pooled address => exact absurd (isPooled_of_readable ok readable) (Bool.eq_false_iff.mp outside)

/-- The staged name designates the same string in every later state. -/
theorem stageName_spec {env : Env P κ} {t : Hashtable P κ} {name : Name κ} {text : CString}
    (ok : t.pool.Ok t.names) (readable : t.Readable name) (key : t.key name = .string text) :
    Meets (t.stageName env name text)
      (fun result => ∃ allocs, result.2 = { t with allocs } ∧ t.allocs ≤ allocs ∧ allocs ≤ t.allocs + 1 ∧
        ∀ t' : Hashtable P κ, t'.key result.1 = .string text)
      (DupError env t name) := by
  unfold Hashtable.stageName
  split
  next =>
    refine ((malloc_spec env t .stagingMemory).mono (fun _ => id) fun error null => ?_).bind ?_
    · obtain ⟨rfl, null⟩ := null
      exact .memory ⟨rfl, (Spent.refl t).short null⟩
    rintro ⟨_, _⟩ ⟨-, rfl⟩
    exact ⟨_, rfl, Nat.le_succ _, Nat.le_refl _, fun _ => rfl⟩
  next outside =>
    refine ⟨t.allocs, rfl, Nat.le_refl _, Nat.le_succ _, fun t' => ?_⟩
    rw [← key]
    exact key_of_not_pooled ok readable (by simpa using outside)

/-- A growth of the pool keeps the text of the key. -/
theorem growPool_spec {env : Env P κ} {t : Hashtable P κ} {name : Name κ} {text : CString}
    (managed : env.dup = none) (stash : t.stash.Bounded) (ok : t.pool.Ok t.names)
    (readable : t.Readable name) (key : t.key name = .string text) :
    Meets (t.growPool env name text)
      (fun result => ∃ capacity, Resized t capacity result.2 ∧ result.2.key result.1 = .string text ∧
        t.pool.size < capacity ∧ 2 * capacity ≤ 2 ^ P.wordSize ∧
        FirstCapacity ((t.pool.size + (text.strlen + 1)) % 2 ^ P.wordSize) capacity ∧ Spent t result.2)
      (DupError env t name) := by
  unfold Hashtable.growPool
  refine (stageName_spec ok readable key).bind ?_
  rintro ⟨name', _⟩ ⟨allocs, rfl, later, few, staged⟩
  dsimp only at staged ⊢
  have word := P.word_ge
  refine ((searchCapacity_spec (P.wordSize + 1) 0 (by omega) (by omega) (.inl rfl)).mono
    (fun _ => id) ?_).bind ?_
  · rintro error ⟨rfl, half⟩
    exact .hang key (half.trans_le (Nat.mod_le _ _))
  rintro capacity ⟨first, half⟩
  refine Meets.guard ?_ fun grown => ?_
  · intro fails
    refine .word key ?_ (.inl rfl)
    by_contra within
    have needed := first.1
    rw [Nat.mod_eq_of_lt (by omega)] at needed
    omega
  let s : Hashtable P κ := { t with allocs }
  have spent : Spent t s := ⟨later, few.trans (Nat.le_succ _)⟩
  refine ((reallocPool_spec (t := s) managed stash ok (Nat.le_of_lt grown)).self.mono
    (fun _ => id) fun _ failed => .memory ⟨failed.1.1, spent.short failed.1.2⟩).bind ?_
  rintro t' ⟨resized, returned⟩
  have taken := (reallocPool_room (t := s) managed stash ok (Nat.le_of_lt grown) returned).1
  have total : Spent t t' := by
    change t'.allocs = allocs + 1 at taken
    unfold Spent
    omega
  exact ⟨capacity, resized.of_allocs, staged t', grown, half, first, total⟩

theorem makeRoom_spec {env : Env P κ} {t : Hashtable P κ} {name : Name κ} {text : CString}
    (managed : env.dup = none) (stash : t.stash.Bounded) (ok : t.pool.Ok t.names)
    (readable : t.Readable name) (key : t.key name = .string text) :
    Meets (t.makeRoom env name text)
      (fun result => ∃ capacity, Resized t capacity result.2 ∧ result.2.key result.1 = .string text ∧
        (text.strlen + 1 ≤ t.pool.capacity - t.pool.size ∧ capacity = t.pool.capacity ∨
          t.pool.capacity - t.pool.size < text.strlen + 1 ∧ t.pool.size < capacity ∧
            2 * capacity ≤ 2 ^ P.wordSize ∧
            FirstCapacity ((t.pool.size + (text.strlen + 1)) % 2 ^ P.wordSize) capacity) ∧
        (t.pool.size + (text.strlen + 1) < 2 ^ P.wordSize → t.pool.size + (text.strlen + 1) ≤ capacity) ∧
        Spent t result.2)
      (DupError env t name) := by
  unfold Hashtable.makeRoom
  split
  next grows =>
    refine (growPool_spec managed stash ok readable key).imp ?_
    rintro result ⟨capacity, resized, held, grown, half, first, spent⟩
    refine ⟨capacity, resized, held, .inr ⟨grows, grown, half, first⟩, fun small => ?_, spent⟩
    rw [← Nat.mod_eq_of_lt small]
    exact first.1
  next fits =>
    refine ⟨_, ⟨.refl t, ok, rfl, Nat.le_refl _, rfl, rfl⟩, key, .inl ⟨by omega, rfl⟩, fun _ => ?_, .refl t⟩
    have bound := ok.size_le
    dsimp only
    omega

/-- A write inside the block replaces its bytes. -/
theorem writeBytes_spec (bytes : List UInt8) (offset : Nat) (source : List UInt8) :
    Meets (writeBytes bytes offset source)
      (fun result => offset + source.length ≤ bytes.length ∧ result = overwrite bytes offset source)
      fun error => error = .fault ∧ bytes.length < offset + source.length := by
  unfold writeBytes
  split
  next fits => exact ⟨fits, rfl⟩
  next short => exact ⟨rfl, Nat.lt_of_not_le short⟩

theorem Env.copies_string {env : Env P κ} (managed : env.dup = none) (text : CString) :
    env.Copies (.string text) (.string text) := by
  unfold Env.Copies
  rw [managed]
  exact ⟨rfl, text, rfl⟩

/-- The duplicate of an empty string is the shared one. -/
theorem duplicated_emptyString {env : Env P κ} {t : Hashtable P κ} {name : Name κ} (managed : env.dup = none)
    (ok : t.pool.Ok t.names) (key : t.key name = .string CString.empty) :
    Duplicated env t name .emptyString t := by
  refine ⟨.refl t, ?_, key ▸ Env.copies_string managed _, by simp [managed], fun _ other same => ?_, .refl t⟩
  · unfold Env.Managed
    rw [managed]
    exact { ok.toLayout.cons_emptyString with
      based := ok.based
      used_eq := ok.used_eq.trans (by simp [Pool.key, Key.footprint, CString.footprint, CString.empty])
      used_le := ok.used_le }
  · rw [key] at same
    cases same
    unfold Room
    rw [if_pos (.inl rfl)]

/-- The copy of another string goes to the watermark of a pool with room for it. -/
theorem duplicated_append {env : Env P κ} {t t' : Hashtable P κ} {name : Name κ} {text : CString} {capacity : Nat}
    (managed : env.dup = none) (stash : t.stash.Bounded) (key : t.key name = .string text)
    (nonempty : text.chars ≠ []) (resized : Resized t capacity t') (spent : Spent t t') (room : Room t text capacity)
    (within : t'.pool.size + text.terminated.length ≤ t'.pool.bytes.length) :
    Duplicated env t name (.pooled (t'.pool.buffer + t'.pool.size))
      { t' with pool := { t'.pool with
        bytes := overwrite t'.pool.bytes t'.pool.size text.terminated
        size := t'.pool.size + (text.strlen + 1)
        used := t'.pool.used + (text.strlen + 1) } } := by
  have fits : t'.pool.size + (text.strlen + 1) ≤ t'.pool.capacity := by
    rw [← resized.ok.length_eq, ← CString.terminated_length]
    exact within
  have same : ∀ i < t'.pool.size,
      (overwrite t'.pool.bytes t'.pool.size text.terminated)[i]? = t'.pool.bytes[i]? :=
    fun i below => overwrite_before within below
  have written := overwrite_holds within
  have new := Pool.append_stored (κ := κ) nonempty written
  have ok' := resized.ok.append same nonempty written (overwrite_length within) fits
  have appended : Repooled t' { t' with pool := { t'.pool.append
      (overwrite t'.pool.bytes t'.pool.size text.terminated) text with
      used := t'.pool.used + (text.strlen + 1) } } := by
    refine .of_keys (resized.repooled.alike.bounded stash) fun name member => ?_
    obtain ⟨other, before⟩ := resized.ok.stored name member
    have after : (t'.pool.append (overwrite t'.pool.bytes t'.pool.size text.terminated) text).Stored
        name other := before.append same
    exact after.key_eq.trans before.key_eq.symm
  refine ⟨resized.repooled.trans appended, ?_, ?_, ?_, ?_, spent⟩
  · unfold Env.Managed
    rw [managed]
    exact ok'
  · rw [key]
    exact new.key_eq.symm ▸ Env.copies_string managed text
  · rw [if_pos (by simp [managed])]
    exact resized.calls_eq
  · intro _ other same
    rw [key] at same
    cases same
    change Room t text t'.pool.capacity
    rw [resized.capacity_eq]
    exact room

/-- The copy of a string goes to the watermark of the pool. -/
theorem dupNameInternal_spec {env : Env P κ} {t : Hashtable P κ} {name : Name κ}
    (managed : env.dup = none) (stash : t.stash.Bounded) (ok : t.pool.Ok t.names)
    (readable : t.Readable name) :
    Meets (t.dupNameInternal env name) (fun result => Duplicated env t name result.1 result.2)
      (DupError env t name) := by
  unfold Hashtable.dupNameInternal
  cases key : t.key name with
  | object value => exact .object key
  | string text =>
      dsimp only [Key.text]
      rw [ok_bind]
      split
      next empty =>
        have blank : text = CString.empty := CString.ext_chars (List.length_eq_zero_iff.mp (by
          simpa [CString.strlen] using empty))
        exact duplicated_emptyString managed ok (blank ▸ key)
      next long =>
        have nonempty : text.chars ≠ [] := by
          intro none
          exact long (by simp [CString.strlen, none])
        refine Meets.guard (fun fails => absurd ok.size_le fails) fun _ => ?_
        refine (makeRoom_spec managed stash ok readable key).bind ?_
        rintro ⟨name', t'⟩ ⟨capacity, resized, held, room, enough, spent⟩
        change Resized t capacity t' at resized
        have size_le := resized.size_le
        have capacity_eq := resized.capacity_eq
        dsimp only at held ⊢
        refine Meets.guard (fun fails => .word key ?_ (.inr (.inl rfl))) fun _ => ?_
        · by_contra small
          rw [Nat.mod_eq_of_lt (by omega)] at fails
          omega
        rw [held]
        dsimp only
        rw [ok_bind, List.take_of_length_le text.terminated_length.le]
        refine ((writeBytes_spec _ _ _).mono (fun _ => id) ?_).bind ?_
        · rintro error ⟨rfl, short⟩
          refine .word key ?_ (.inr (.inr rfl))
          by_contra small
          rw [resized.ok.length_eq, CString.terminated_length] at short
          omega
        rintro _ ⟨within, rfl⟩
        refine duplicated_append managed stash key nonempty resized spent ?_ within
        have fits := resized.ok.length_eq ▸ CString.terminated_length text ▸ within
        unfold Room
        rcases room with ⟨above, stays⟩ | ⟨short, grown, half, first⟩
        · rw [if_pos (.inr above)]
          exact stays
        · rw [if_neg (not_or.mpr ⟨nonempty, Nat.not_le.mpr short⟩)]
          rw [Nat.mod_eq_of_lt (by omega)] at first
          exact first

theorem Env.managed_pool {env : Env P κ} (handler : env.dup = none) {pool : Pool}
    {names : Multiset (Name κ)} : env.Managed pool names ↔ pool.Ok names := by
  unfold Managed
  rw [handler]

theorem Env.managed_own {env : Env P κ} {dup : Nat → Key κ → Option (Key κ)} (handler : env.dup = some dup)
    {pool : Pool} {names : Multiset (Name κ)} :
    env.Managed pool names ↔ ∀ name ∈ names, ∃ key, name = .own key := by
  unfold Managed
  rw [handler]

/-- A duplication returns a name for the copy in both ways to keep keys. -/
theorem dupName_spec {env : Env P κ} {t : Hashtable P κ} {name : Name κ} (granted : t.Grants env name)
    (stash : t.stash.Bounded) (managed : env.Managed t.pool t.names) (readable : t.Readable name) :
    Meets (t.dupName env name)
      (fun result => ∃ copy, result.1 = some copy ∧ Duplicated env t name copy result.2)
      fun error => env.dup = none ∧ DupError env t name error := by
  unfold Hashtable.dupName
  cases handler : env.dup with
  | none =>
      refine ((dupNameInternal_spec handler stash ((Env.managed_pool handler).mp managed) readable).mono
        (fun _ => id) fun _ error => ⟨rfl, error⟩).bind ?_
      rintro ⟨copy, t'⟩ duplicated
      exact ⟨copy, rfl, duplicated⟩
  | some dup =>
      obtain ⟨copy, returned⟩ := Option.ne_none_iff_exists'.mp (granted dup handler)
      dsimp only
      rw [returned]
      refine ⟨.own copy, rfl, ⟨rfl, fun _ _ => rfl, fun _ => rfl⟩, ?_, ?_, ?_, ?_, Nat.le_refl _, Nat.le_add_right _ _⟩
      · rw [Env.managed_own handler] at managed ⊢
        intro other member
        rcases Multiset.mem_cons.mp member with rfl | member
        · exact ⟨copy, rfl⟩
        · exact managed other member
      · unfold Env.Copies
        rw [handler]
        exact ⟨_, returned⟩
      · simp [handler, Hashtable.key, Pool.key]
      · intro pool
        cases handler.symm.trans pool

/-- A release may rename the other items. -/
structure Released (env : Env P κ) (t : Hashtable P κ) (name : Name κ) (t' : Hashtable P κ) : Prop where
  repooled : Repooled t t'
  managed : env.Managed t'.pool t'.names
  calls_eq : t'.calls = if env.dup.isNone then t.calls else .freeKey name :: t.calls
  capacity_le : t'.pool.capacity ≤ t.pool.capacity

/-- The shared empty string gives nothing back. -/
theorem Pool.Ok.of_emptyString {pool : Pool} {names : Multiset (Name κ)}
    (ok : pool.Ok (.emptyString ::ₘ names)) : pool.Ok names where
  toLayout := ok.of_cons
  based := ok.based
  used_eq := ok.used_eq.trans (by simp [Pool.key, Key.footprint, CString.footprint, CString.empty])
  used_le := ok.used_le

/-- A string of the pool is released once, and the pool may be compacted. -/
theorem freeKeyInternal_spec {env : Env P κ} {t : Hashtable P κ} {name : Name κ}
    (managed : env.dup = none) (stash : t.stash.Bounded) (ok : t.pool.Ok (name ::ₘ t.names)) :
    Meets (t.freeKeyInternal env name) (Released env t name) (ReleaseError env t) := by
  obtain ⟨text, stored⟩ := ok.stored name (Multiset.mem_cons_self _ _)
  cases stored with
  | emptyString =>
      refine ⟨.refl t, (Env.managed_pool managed).mpr ok.of_emptyString, ?_, Nat.le_refl _⟩
      simp [managed]
  | @pooled address _ based nonempty holds fits =>
      have stored : t.pool.Stored (.pooled address : Name κ) text := .pooled based nonempty holds fits
      have erased := ok.erase stored
      have repooled : Repooled t { t with pool := t.pool.erase address } := by
        refine .of_keys stash fun name member => ?_
        obtain ⟨other, before⟩ := ok.of_cons.stored name member
        exact (ok.toLayout.erase_keeps member before).key_eq.trans before.key_eq.symm
      have calls : t.calls = if env.dup.isNone then t.calls else .freeKey (.pooled address) :: t.calls := by
        simp [managed]
      unfold Hashtable.freeKeyInternal
      dsimp only
      refine Meets.guard (fun fails => absurd nonempty (stored.stringAt_eq ▸ fails)) fun _ => ?_
      let s : Hashtable P κ := { t with pool := t.pool.erase address }
      change Meets (if s.pool.used ≠ 0 ∧ s.pool.used < s.pool.size / 2 then _ else .ok s) _ _
      have used_le : s.pool.used ≤ s.pool.size := erased.used_le
      have size_le : s.pool.size ≤ s.pool.capacity := erased.size_le
      split
      next sparse =>
        let capacity := if s.pool.used < s.pool.capacity / 4 then s.pool.capacity / 2 else s.pool.capacity
        have half : capacity = s.pool.capacity / 2 ∧ s.pool.used < s.pool.capacity / 4 ∨
            capacity = s.pool.capacity := by
          simp only [capacity]
          split
          next small => exact .inl ⟨rfl, small⟩
          next => exact .inr rfl
        have bound : s.pool.used < capacity := by omega
        have shrinks : capacity ≤ s.pool.capacity := by omega
        refine Meets.guard (fun fails => absurd bound fails) fun _ => ?_
        refine (compactPool_spec (t := s) managed stash erased (Nat.le_of_lt bound)).mono ?_
          fun _ failed => ⟨managed, failed.1, failed.2⟩
        rintro t' ⟨resized, -⟩
        refine ⟨repooled.trans resized.repooled, (Env.managed_pool managed).mpr resized.ok,
          resized.calls_eq.trans calls, ?_⟩
        rw [resized.capacity_eq]
        exact shrinks
      next => exact ⟨repooled, (Env.managed_pool managed).mpr erased, calls, Nat.le_refl _⟩

/-- A release keeps the other entries in both ways to keep keys. -/
theorem freeKey_spec {env : Env P κ} {t : Hashtable P κ} {name : Name κ} (stash : t.stash.Bounded)
    (managed : env.Managed t.pool (name ::ₘ t.names)) :
    Meets (t.freeKey env name) (Released env t name) (ReleaseError env t) := by
  unfold Hashtable.freeKey
  cases handler : env.dup with
  | none =>
      exact freeKeyInternal_spec handler stash ((Env.managed_pool handler).mp managed)
  | some dup =>
      refine ⟨⟨rfl, fun _ _ => rfl, fun _ => rfl⟩, ?_, by simp [handler], Nat.le_refl _⟩
      rw [Env.managed_own handler] at managed ⊢
      exact fun other member => managed other (Multiset.mem_cons_of_mem member)

end Coucal
