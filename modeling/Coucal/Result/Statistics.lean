import Coucal.Proof.Statistics
import Coucal.Proof.Rearrangement
import Coucal.Proof.Updates

namespace Coucal

open Outcome Recorded

variable {P : Platform} {κ : Type} {env : Env P κ}

/-- The largest size of the stash that some marks show. -/
def peak (marks : List Mark) : Nat := (marks.map Mark.stashSeen).foldr max 0

@[simp] theorem peak_nil : peak [] = 0 := rfl

@[simp] theorem peak_cons (mark : Mark) (marks : List Mark) :
    peak (mark :: marks) = max mark.stashSeen (peak marks) := rfl

@[simp] theorem peak_append (before after : List Mark) :
    peak (before ++ after) = max (peak before) (peak after) := by
  induction before with
  | nil => simp
  | cons mark before ih => simp [ih, max_assoc]

@[simp] theorem peak_moved (moves : Nat) : peak (List.replicate moves .moved) = 0 := by
  induction moves with
  | zero => rfl
  | succ moves ih => simp [List.replicate_succ, ih]

/-- The marks account for the changes between two tables, with the numbers of removals and of replacements. -/
structure Accounted (t t' : Hashtable P κ) (marks : List Mark) (removed replaced : Nat) : Prop where
  used : t'.used + removed = t.used + total Mark.adds marks
  writes : total Mark.writes marks = total Mark.adds marks + replaced
  lgSize : t'.lgSize = t.lgSize + total Mark.rehashes marks
  stashes_le : total Mark.stashes marks ≤ total Mark.moves marks
  size_le : t'.stash.size ≤ max t.stash.size (peak marks)
  peak_le : peak marks ≤ stashSize

/-- The marks that count entries. -/
@[simp] def Mark.ofTable : Mark → Bool
  | .write | .add | .moved | .stashed _ | .rehash => true
  | .poolCompact | .poolRealloc | .copied _ | .malloc _ | .free _ => false

/-- The marks that count the work of the pool. -/
@[simp] def Mark.ofPool : Mark → Bool
  | .poolCompact | .poolRealloc | .copied _ => true
  | .write | .add | .moved | .stashed _ | .rehash | .malloc _ | .free _ => false

theorem peak_eq_zero {marks : List Mark} (others : ∀ mark ∈ marks, mark.ofTable = false) : peak marks = 0 := by
  induction marks with
  | nil => rfl
  | cons mark marks ih =>
      have head : mark.stashSeen = 0 := by
        have other := others mark List.mem_cons_self
        cases mark <;> first | rfl | cases other
      rw [peak_cons, head, ih fun mark member => others mark (List.mem_cons_of_mem _ member)]
      rfl

namespace Accounted

variable {t s t' : Hashtable P κ} {marks marks' : List Mark} {removed replaced removed' replaced' : Nat}

/-- Nothing is counted for a table with the same counters. -/
theorem still (lgSize : t'.lgSize = t.lgSize) (used : t'.used = t.used) (size : t'.stash.size ≤ t.stash.size)
    (others : ∀ mark ∈ marks, mark.ofTable = false) : Accounted t t' marks 0 0 := by
  have none (weight : Mark → Nat) (zero : ∀ mark : Mark, mark.ofTable = false → weight mark = 0) :
      total weight marks = 0 := total_eq_zero fun mark member => zero mark (others mark member)
  have adds := none Mark.adds fun mark other => by cases mark <;> first | rfl | cases other
  have writes := none Mark.writes fun mark other => by cases mark <;> first | rfl | cases other
  have rehashes := none Mark.rehashes fun mark other => by cases mark <;> first | rfl | cases other
  have stashes := none Mark.stashes fun mark other => by cases mark <;> first | rfl | cases other
  constructor
  · rw [used, adds]
  · rw [writes, adds]
  · rw [lgSize, rehashes, Nat.add_zero]
  · rw [stashes]
    exact Nat.zero_le _
  · exact le_max_of_le_left size
  · rw [peak_eq_zero others]
    exact Nat.zero_le _

theorem refl (t : Hashtable P κ) : Accounted t t [] 0 0 := still rfl rfl (Nat.le_refl _) (by simp)

theorem trans (first : Accounted t s marks removed replaced) (second : Accounted s t' marks' removed' replaced') :
    Accounted t t' (marks ++ marks') (removed + removed') (replaced + replaced') := by
  obtain ⟨used, writes, lgSize, stashes, size, top⟩ := first
  obtain ⟨used', writes', lgSize', stashes', size', top'⟩ := second
  constructor
  · rw [total_append]
    omega
  · rw [total_append, total_append]
    omega
  · rw [total_append]
    omega
  · rw [total_append, total_append]
    omega
  · rw [peak_append]
    omega
  · rw [peak_append]
    exact max_le top top'

/-- An entry that a write has added. -/
theorem add (body : Accounted t t' marks 0 0) :
    Accounted t { t' with used := t'.used + 1 } ([.write, .add] ++ marks) 0 0 := by
  obtain ⟨used, writes, lgSize, stashes, size, top⟩ := body
  constructor <;> simp
  · omega
  · omega
  · exact lgSize
  · exact stashes
  · omega
  · exact top

end Accounted

/-- The table can have this many slots, and the size of their block does not wrap. -/
structure Allocatable (P : Platform) (lgSize : Nat) : Prop where
  acceptable : isAcceptablePow2 P lgSize = true
  fits : 2 ^ lgSize * P.itemSize < 2 ^ P.wordSize

namespace Counted

variable {t : Hashtable P κ}

section Pool

/-- The parts of the program that change the pool only. -/
abbrev Still (t t' : Hashtable P κ) (marks : List Mark) : Prop := Accounted t t' marks 0 0

theorem compactPool_still (capacity : Nat) : Records (compactPool env t capacity) (Still t) := by
  unfold compactPool
  refine .tell_bind (.lift_bind fun t' returned => .tell_bind (.pure ?_))
  obtain ⟨_, -, returned⟩ := bind_eq_ok.mp returned
  obtain ⟨⟨_, s⟩, allocated, returned⟩ := bind_eq_ok.mp returned
  obtain ⟨-, rfl⟩ := (malloc_spec env _ _).of_ok allocated
  obtain ⟨⟨_, _⟩, -, returned⟩ := bind_eq_ok.mp returned
  obtain ⟨⟨_, _⟩, -, returned⟩ := bind_eq_ok.mp returned
  cases returned
  refine .still rfl rfl (Nat.le_refl _) ?_
  unfold releasePool
  split <;> simp

theorem reallocPool_still (capacity : Nat) : Records (reallocPool env t capacity) (Still t) := by
  unfold reallocPool
  refine .lift_bind fun _ _ => .ite (fun _ => compactPool_still capacity) fun dense => ?_
  refine .tell_bind (.lift_bind fun t' returned => .tell_bind (.pure ?_))
  have others : ∀ mark ∈ [Mark.poolRealloc, .copied t.pool.capacity] ++ (releasePool t.pool ++
      [.malloc (.pool t'.pool.buffer capacity)] ++ []), mark.ofTable = false := by
    unfold releasePool
    split <;> simp
  unfold Hashtable.reallocPool at returned
  obtain ⟨_, -, returned⟩ := bind_eq_ok.mp returned
  rw [if_neg dense] at returned
  obtain ⟨⟨_, s⟩, allocated, returned⟩ := bind_eq_ok.mp returned
  obtain ⟨-, rfl⟩ := (malloc_spec env _ _).of_ok allocated
  dsimp only at returned
  split at returned
  next =>
    cases returned
    exact .still rfl rfl (Nat.le_refl _) others
  next =>
    obtain ⟨_, -, returned⟩ := bind_eq_ok.mp returned
    obtain ⟨_, -, returned⟩ := bind_eq_ok.mp returned
    cases returned
    exact .still rfl rfl (Nat.le_refl _) others

theorem stageName_counters {name : Name κ} {text : CString} {result : Name κ × Hashtable P κ}
    (returned : t.stageName env name text = .ok result) : ∃ allocs, result.2 = { t with allocs } := by
  unfold Hashtable.stageName at returned
  split at returned
  next =>
    obtain ⟨⟨_, s⟩, allocated, returned⟩ := bind_eq_ok.mp returned
    obtain ⟨-, rfl⟩ := (malloc_spec env _ _).of_ok allocated
    cases returned
    exact ⟨_, rfl⟩
  next =>
    cases returned
    exact ⟨t.allocs, rfl⟩

theorem makeRoom_still (name : Name κ) (text : CString) :
    Records (makeRoom env t name text) fun result => Still t result.2 := by
  unfold makeRoom growPool
  refine .ite (fun _ => ?_) fun _ => .pure (.refl t)
  refine .lift_bind fun result staged => ?_
  obtain ⟨name', s⟩ := result
  obtain ⟨allocs, rfl⟩ := stageName_counters staged
  have start : Still t { t with allocs } ((stagingBlock env t name text).toList.map .malloc) :=
    .still rfl rfl (Nat.le_refl _) (by simp)
  refine .tell_bind (.lift_bind fun capacity _ => .lift_bind fun _ _ => ?_)
  refine (reallocPool_still capacity).bind fun t' marks still => .pure ?_
  rw [List.append_nil]
  exact start.trans still

theorem dupNameInternal_still (name : Name κ) :
    Records (dupNameInternal env t name) fun result => Still t result.2 := by
  unfold dupNameInternal
  refine .lift_bind fun text _ => .ite (fun _ => .pure (.refl t)) fun _ => ?_
  refine .lift_bind fun _ _ => (makeRoom_still name text).bind ?_
  rintro ⟨name', s⟩ marks still
  refine .lift_bind fun _ _ => .lift_bind fun _ _ => .lift_bind fun bytes _ => .tell_bind (.pure ?_)
  refine still.trans (.still ?_ ?_ ?_ ?_)
  · rfl
  · rfl
  · exact Nat.le_refl _
  · rw [List.append_nil]
    exact List.forall_mem_map.mpr fun _ _ => rfl

theorem dupName_still (name : Name κ) : Records (dupName env t name) fun result => Still t result.2 := by
  unfold dupName
  cases handler : env.dup with
  | some =>
      refine .lift fun result returned => ?_
      rw [Hashtable.dupName, handler] at returned
      cases returned
      exact .still rfl rfl (Nat.le_refl _) (by simp)
  | none =>
      refine (dupNameInternal_still name).bind fun result marks still => .pure ?_
      rw [List.append_nil]
      exact still

theorem freeKey_still (name : Name κ) : Records (freeKey env t name) (Still t) := by
  unfold freeKey
  cases handler : env.dup with
  | some =>
      refine .lift fun result returned => ?_
      rw [Hashtable.freeKey, handler] at returned
      cases returned
      exact .still rfl rfl (Nat.le_refl _) (by simp)
  | none =>
      cases name with
      | own => exact .throw
      | emptyString => exact .pure (.refl t)
      | pooled address =>
          unfold freeKeyInternal
          refine .lift_bind fun _ _ => .ite (fun _ => .lift_bind fun _ _ => ?_) fun _ => .pure ?_
          · refine (compactPool_still _).imp fun t' marks still => ?_
            exact ⟨still.used, still.writes, still.lgSize, still.stashes_le, still.size_le, still.peak_le⟩
          · exact .still rfl rfl (Nat.le_refl _) (by simp)

theorem delItem_still (slot : Slot) : Records (delItem env t slot) (Still t) := by
  unfold delItem delName
  split
  next => exact .throw
  next name named =>
    refine (freeKey_still name).imp fun t' marks still => ?_
    have start : Still t ((t.delValue_ env slot).setItem slot
        { (t.delValue_ env slot).item slot with name := none, hashes := Hashkeys.null P }) [] := by
      rw [Hashtable.delValue_eq]
      exact .still (by simp [Hashtable.setValue]) (by simp [Hashtable.setValue]) (by simp [Hashtable.setValue]) (by simp)
    exact start.trans still

end Pool

section Table

/-- The eviction loop records its moves. An item that is left has been moved, unless the loop had no pass. -/
theorem evict_records (lgSize : Nat) (initialHash : Hashkey P) (loops : Nat) (items : Nat → Item P κ)
    (item : Item P κ) (cuckooHash : Hashkey P) :
    Records (evict lgSize initialHash loops items item cuckooHash) fun result marks =>
      ∃ moves, marks = List.replicate moves .moved ∧ (result.2 ≠ none → loops ≠ 0 → moves ≠ 0) := by
  induction loops generalizing items item cuckooHash with
  | zero => exact .pure ⟨0, rfl, fun _ some => absurd rfl some⟩
  | succ loops ih =>
      unfold evict
      refine .ite (fun _ => .pure ⟨0, rfl, fun left _ => absurd rfl left⟩) fun _ => .tell_bind ?_
      have go : ∀ (items : Nat → Item P κ) item hash, Records (evict lgSize initialHash loops items item hash)
          fun result marks => ∃ moves, [Mark.moved] ++ marks = List.replicate moves .moved ∧
            (result.2 ≠ none → loops + 1 ≠ 0 → moves ≠ 0) := by
        intro items item hash
        refine (ih items item hash).imp fun _ marks => ?_
        rintro ⟨moves, rfl, -⟩
        exact ⟨moves + 1, rfl, fun _ _ => Nat.succ_ne_zero moves⟩
      have stop : ∀ result : (Nat → Item P κ) × Option (Item P κ), Records (pure result : Counted _)
          fun result marks => ∃ moves, [Mark.moved] ++ marks = List.replicate moves .moved ∧
            (result.2 ≠ none → loops + 1 ≠ 0 → moves ≠ 0) :=
        fun result => .pure ⟨1, rfl, fun _ _ => Nat.one_ne_zero⟩
      refine .ite (fun _ => .ite (fun _ => stop _) fun _ => go _ _ _) fun _ => ?_
      exact .ite (fun _ => .ite (fun _ => stop _) fun _ => go _ _ _) fun _ => .throw

/-- The parts of the program that place items in the slots of the table or in the stash. -/
structure Placing (t t' : Hashtable P κ) (marks : List Mark) : Prop where
  accounted : Accounted t t' marks 0 0
  lgSize_eq : t'.lgSize = t.lgSize
  pool_eq : t'.pool = t.pool
  marks : ∀ mark ∈ marks, mark.ofTable = true

/-- An insertion says that it has added its item. -/
theorem addItem_placing (item : Item P κ) :
    Records (addItem_ t item) fun result marks => result.1 = true ∧ Placing t result.2 marks := by
  have free : ∀ pos, Placing t { t with items := Function.update t.items pos item } [] :=
    fun pos => ⟨.still rfl rfl (Nat.le_refl _) (by simp), rfl, rfl, by simp⟩
  unfold addItem_
  refine .ite (fun _ => .pure ⟨rfl, free _⟩) fun _ => .ite (fun _ => .pure ⟨rfl, free _⟩) fun _ => ?_
  refine (evict_records _ _ _ _ _ _).bind ?_
  rintro ⟨items, left⟩ _ ⟨moves, rfl, some⟩
  have moved : ∀ mark ∈ List.replicate moves Mark.moved, mark.ofTable = true := by
    intro mark member
    rw [List.eq_of_mem_replicate member]
    rfl
  cases left with
  | none =>
      refine .pure ?_
      rw [List.append_nil]
      exact ⟨rfl, by constructor <;> simp, rfl, rfl, moved⟩
  | some left =>
      refine .lift_bind fun _ room => .tell_bind (.pure ?_)
      have room : t.stash.size < stashSize := guard_eq_ok.mp room
      have moves_ge := some (by simp) (Nat.ne_of_gt (Nat.two_pow_pos _))
      refine ⟨rfl, ?_, rfl, rfl, ?_⟩
      · constructor <;> simp [Stash.insert]
        · omega
        · exact room
      · intro mark member
        rcases List.mem_append.mp member with before | last
        · exact moved mark before
        · rw [List.mem_singleton.mp last]
          rfl

theorem Placing.trans {t s t' : Hashtable P κ} {marks marks' : List Mark} (first : Placing t s marks)
    (second : Placing s t' marks') : Placing t t' (marks ++ marks') :=
  ⟨first.accounted.trans second.accounted, second.lgSize_eq.trans first.lgSize_eq,
    second.pool_eq.trans first.pool_eq, fun mark member =>
      (List.mem_append.mp member).elim (first.marks mark) (second.marks mark)⟩

theorem mergeStash_placing : Records (mergeStash t) (Placing t) := by
  unfold mergeStash
  refine .ite (fun _ => ?_) fun _ => .pure ⟨.refl t, rfl, rfl, by simp⟩
  let cleared : Hashtable P κ := { t with stash := { items := fun _ => Item.null P κ, size := 0, extent := 0 } }
  have start : Placing t cleared [] := ⟨.still rfl rfl (Nat.zero_le _) (by simp), rfl, rfl, by simp⟩
  have loop : Records (forUpTo (mergeEntry t.stash) t.stash.extent cleared) (Placing t) := by
    refine .forUpTo (fun _ => Placing t) start fun index _ s marks before => ?_
    unfold mergeEntry
    refine .ite (fun _ => .pure ?_) fun _ => (addItem_placing _).bind ?_
    · rw [List.append_nil]
      exact before
    · rintro ⟨_, s'⟩ marks' ⟨-, placing⟩
      refine .lift_bind fun _ _ => .pure ?_
      rw [List.append_nil]
      exact before.trans placing
  refine loop.bind fun s marks placing => .lift_bind fun _ _ => .pure ?_
  rw [List.append_nil]
  exact placing

/-- A pass of the relocation loop changes the items only. -/
theorem splitSlot_frame {s s' : Hashtable P κ} {prevPower prevSize index : Nat}
    (passed : Hashtable.splitSlot prevPower prevSize index s = .ok s') : s' = { s with items := s'.items } := by
  have move {pos : Nat} (moved : Hashtable.moveSlot prevSize index pos s = .ok s') : s' = { s with items := s'.items } := by
    unfold Hashtable.moveSlot at moved
    split at moved
    next =>
      obtain ⟨_, -, same⟩ := bind_eq_ok.mp moved
      cases same
      rfl
    next =>
      cases moved
      rfl
  unfold Hashtable.splitSlot at passed
  dsimp only at passed
  split at passed
  next =>
    cases passed
    rfl
  next =>
    split at passed
    next => exact move passed
    next =>
      split at passed
      next => exact move passed
      next => cases passed

/-- A doubling is one rehash, and the block of the items is reallocated. -/
structure Doubled (t t' : Hashtable P κ) (marks : List Mark) : Prop where
  accounted : Accounted t t' marks 0 0
  lgSize_eq : t'.lgSize = t.lgSize + 1
  allocatable : Allocatable P t'.lgSize
  pool_eq : t'.pool = t.pool
  marks_eq : marks = [.rehash, .free (.items (2 ^ t.lgSize * P.itemSize)),
    .malloc (.items (2 ^ (t.lgSize + 1) * P.itemSize))]

/-- A doubling checks the new size first. -/
theorem expand_allocatable {t' : Hashtable P κ} (returned : t.expand env = .ok t') :
    Allocatable P (t.lgSize + 1) := by
  obtain ⟨_, acceptable, returned⟩ := bind_eq_ok.mp returned
  obtain ⟨_, unwrapped, -⟩ := bind_eq_ok.mp returned
  have acceptable : isAcceptablePow2 P (t.lgSize + 1) = true := guard_eq_ok.mp acceptable
  have unwrapped : 2 ^ (t.lgSize - 1) * 2 ≤ (2 ^ P.wordSize - 1) / (2 * P.itemSize) := guard_eq_ok.mp unwrapped
  refine ⟨acceptable, ?_⟩
  have slots : 2 ^ t.lgSize ≤ 2 ^ (t.lgSize - 1) * 2 := by
    rw [← Nat.pow_succ]
    exact Nat.pow_le_pow_right Nat.two_pos (by omega)
  calc 2 ^ (t.lgSize + 1) * P.itemSize = 2 ^ t.lgSize * (2 * P.itemSize) := by rw [Nat.pow_succ, Nat.mul_assoc]
    _ ≤ (2 ^ P.wordSize - 1) / (2 * P.itemSize) * (2 * P.itemSize) := Nat.mul_le_mul_right _ (slots.trans unwrapped)
    _ ≤ 2 ^ P.wordSize - 1 := Nat.div_mul_le_self _ _
    _ < 2 ^ P.wordSize := Nat.sub_lt (Nat.two_pow_pos _) Nat.one_pos

theorem expand_doubled : Records (expand env t) (Doubled t) := by
  unfold expand
  refine .tell_bind (.lift_bind fun t' returned => .tell_bind (.pure ?_))
  let doubled (s : Hashtable P κ) : Prop :=
    s.lgSize = t.lgSize + 1 ∧ s.used = t.used ∧ s.stash = t.stash ∧ s.pool = t.pool
  obtain ⟨lgSize, used, stash, pool⟩ : doubled t' := by
    refine forUpTo_advances (fun _ => doubled) (expand_returned returned) ⟨rfl, rfl, rfl, rfl⟩
      fun index _ s s' before passed => ?_
    rw [splitSlot_frame passed]
    exact before
  refine ⟨?_, lgSize, lgSize ▸ expand_allocatable returned, pool, rfl⟩
  constructor <;> simp [lgSize, used, stash]

/-- The stash is drained when it has entries, and loses some of them. -/
theorem drain_placing (t : Hashtable P κ) : Placing t (if t.stash.size ≠ 0 then t.drainStash else t) [] := by
  have drained (index : Nat) : (t.drainEntries index).lgSize = t.lgSize ∧ (t.drainEntries index).used = t.used ∧
      (t.drainEntries index).stash.size ≤ t.stash.size ∧ (t.drainEntries index).pool = t.pool := by
    induction index with
    | zero => exact ⟨rfl, rfl, Nat.le_refl _, rfl⟩
    | succ index ih =>
        obtain ⟨lgSize, used, size, pool⟩ := ih
        rw [Hashtable.drainEntries, Hashtable.drainEntry]
        dsimp only
        have fewer := (Nat.sub_le (t.drainEntries index).stash.size 1).trans size
        split
        next => exact ⟨lgSize, used, size, pool⟩
        next =>
          split
          next => exact ⟨lgSize, used, fewer, pool⟩
          next =>
            split
            next => exact ⟨lgSize, used, fewer, pool⟩
            next => exact ⟨lgSize, used, size, pool⟩
  split
  next =>
    obtain ⟨lgSize, used, size, pool⟩ := drained t.stash.extent
    exact ⟨.still lgSize used size (by simp), lgSize, pool, by simp⟩
  next => exact ⟨.refl t, rfl, rfl, by simp⟩

end Table

section Calls

/-- A write replaces a value, or adds an entry that the caller counts. -/
theorem write_accounted (name : Name κ) (value : Value P) :
    Records (writeValue_ env t name value) fun result marks =>
      result.1 = false ∧ Accounted t result.2 marks 0 1 ∨
        result.1 = true ∧ Accounted t { result.2 with used := result.2.used + 1 } marks 0 0 := by
  unfold writeValue_
  refine .tell_bind ?_
  split
  next slot _ =>
    refine .pure (.inl ⟨rfl, ?_⟩)
    rw [Hashtable.delValue_eq]
    constructor <;> simp [Hashtable.setValue]
  next =>
    refine .tell_bind ((dupName_still name).bind ?_)
    rintro ⟨copy, s⟩ marks still
    refine (addItem_placing _).imp ?_
    rintro ⟨added, t'⟩ marks' ⟨flag, placing⟩
    refine .inr ⟨flag, ?_⟩
    exact (((drain_placing t).accounted.trans still).trans placing.accounted).add

theorem writeValue_accounted (name : Name κ) (value : Value P) :
    Records (writeValue env t name value) fun result marks =>
      Accounted t result.2 marks 0 (if result.1 then 0 else 1) := by
  unfold writeValue
  refine (write_accounted name value).bind ?_
  rintro ⟨added, s⟩ marks outcome
  rcases outcome with ⟨rfl, replaced⟩ | ⟨rfl, added⟩
  · refine .pure ?_
    rw [List.append_nil]
    exact replaced
  · refine .ite (fun _ => .ite (fun _ => ?_) fun _ => .pure ?_) fun no => absurd rfl no
    · refine expand_doubled.bind fun u marks' doubled => mergeStash_placing.bind fun t' marks'' merged => .pure ?_
      rw [List.append_nil]
      exact added.trans (doubled.accounted.trans merged.accounted)
    · rw [List.append_nil]
      exact added

theorem inc_accounted (name : Name κ) (inc : Value P) :
    Records (inc_ env t name inc) fun result marks => Accounted t result.2 marks 0 0 := by
  unfold inc_
  split
  next slot _ => exact .pure (.still (by simp) (by simp) (by simp) (by simp))
  next =>
    refine (writeValue_accounted name inc).bind ?_
    rintro ⟨added, t'⟩ marks accounted
    refine .lift_bind fun _ flag => .pure ?_
    have added : added = true := guard_eq_ok.mp flag
    subst added
    rw [List.append_nil]
    exact accounted

theorem remove_accounted (name : Name κ) :
    Records (remove env t name) fun result marks => Accounted t result.2 marks (if result.1 then 1 else 0) 0 := by
  have located : Records (remove_ env t name (t.calcHashes env name)) fun result => Still t result.2 := by
    unfold remove_
    split
    next pos _ =>
      refine (delItem_still _).bind fun t' marks still => .pure ?_
      rw [List.append_nil]
      exact still
    next index _ =>
      refine (delItem_still _).bind fun t' marks still => .pure ?_
      refine still.trans (.still ?_ ?_ ?_ ?_)
      exacts [rfl, rfl, Nat.sub_le _ _, by simp]
    next => exact .pure (.refl t)
  unfold remove
  refine located.bind ?_
  rintro ⟨removed, s⟩ marks still
  refine .ite (fun flag => ?_) fun flag => .pure ?_
  · refine .lift_bind fun _ nonzero => .pure ?_
    have nonzero : s.used ≠ 0 := guard_eq_ok.mp nonzero
    obtain ⟨used, writes, lgSize, stashes, size, top⟩ := still
    rw [List.append_nil, if_pos flag]
    refine ⟨?_, writes, lgSize, stashes, size, top⟩
    dsimp only at used ⊢
    omega
  · rw [List.append_nil, if_neg flag]
    exact still

/-- The event removes an entry. -/
def removes (event : Event P κ) : Bool :=
  match event with
  | (.remove _, .flag true) => true
  | _ => false

/-- The event replaces a value. -/
def replaces (event : Event P κ) : Bool :=
  match event with
  | (.writeValue .., .flag false) => true
  | _ => false

/-- The marks of a call account for its event. -/
theorem apply_accounted (op : Op P (Name κ)) :
    Records (apply env t op) fun result marks =>
      Accounted t result.2 marks (if removes (op.map t.key, result.1) then 1 else 0)
        (if replaces (op.map t.key, result.1) then 1 else 0) := by
  cases op with
  | writeValue name value =>
      refine (writeValue_accounted name value).bind ?_
      rintro ⟨added, t'⟩ marks accounted
      refine .pure ?_
      rw [List.append_nil]
      cases added <;> exact accounted
  | remove name =>
      refine (remove_accounted name).bind ?_
      rintro ⟨removed, t'⟩ marks accounted
      refine .pure ?_
      rw [List.append_nil]
      cases removed <;> exact accounted
  | inc name | dec name =>
      refine (inc_accounted name _).bind ?_
      rintro ⟨value, t'⟩ marks accounted
      refine .pure ?_
      rw [List.append_nil]
      exact accounted
  | readValue | exists_ | fetchValueHashes | nitems | enumNext =>
      refine .lift fun result returned => ?_
      cases returned
      exact .refl t

end Calls

end Counted

open Counted

/-- A field of the statistics that sums the weights of the marks. -/
theorem Stats.of_field (field : Stats P → BitVec P.wordSize) (weight : Mark → Nat) (start : field {} = 0)
    (count : ∀ stats mark, field (stats.count mark) = field stats + BitVec.ofNat P.wordSize (weight mark))
    (marks : List Mark) : field (Stats.of marks) = BitVec.ofNat P.wordSize (total weight marks) := by
  have fold (stats : Stats P) :
      field (marks.foldl Stats.count stats) = field stats + BitVec.ofNat P.wordSize (total weight marks) := by
    induction marks generalizing stats with
    | nil => simp
    | cons mark marks ih => rw [List.foldl_cons, ih, count, total_cons, BitVec.ofNat_add, BitVec.add_assoc]
  rw [Stats.of, fold, start]
  exact BitVec.zero_add _

theorem Stats.of_addCount (marks : List Mark) :
    (Stats.of marks : Stats P).addCount = BitVec.ofNat P.wordSize (total Mark.adds marks) :=
  of_field addCount Mark.adds rfl (fun stats mark => by cases mark <;> simp [count]) marks

theorem Stats.of_writeCount (marks : List Mark) :
    (Stats.of marks : Stats P).writeCount = BitVec.ofNat P.wordSize (total Mark.writes marks) :=
  of_field writeCount Mark.writes rfl (fun stats mark => by cases mark <;> simp [count]) marks

theorem Stats.of_rehashCount (marks : List Mark) :
    (Stats.of marks : Stats P).rehashCount = BitVec.ofNat P.wordSize (total Mark.rehashes marks) :=
  of_field rehashCount Mark.rehashes rfl (fun stats mark => by cases mark <;> simp [count]) marks

/-- A mark raises the largest stash to the size that it shows. -/
theorem Stats.count_maxStashSize (stats : Stats P) {mark : Mark} (fits : mark.stashSeen < 2 ^ P.wordSize) :
    (stats.count mark).maxStashSize.toNat = max stats.maxStashSize.toNat mark.stashSeen := by
  cases mark with
  | stashed size =>
      have value : (BitVec.ofNat P.wordSize size).toNat = size := by
        rw [BitVec.toNat_ofNat]
        exact Nat.mod_eq_of_lt fits
      show (if _ then _ else _ : BitVec P.wordSize).toNat = max _ size
      split
      next larger =>
        rw [BitVec.lt_def, value] at larger
        rw [value, max_eq_right (Nat.le_of_lt larger)]
      next smaller =>
        rw [BitVec.lt_def, value] at smaller
        rw [max_eq_left (Nat.le_of_not_lt smaller)]
  | _ => exact (Nat.max_zero _).symm

/-- The largest stash that the statistics have seen, when each size fits in a word. -/
theorem Stats.of_maxStashSize {marks : List Mark} (fits : peak marks < 2 ^ P.wordSize) :
    (Stats.of marks : Stats P).maxStashSize.toNat = peak marks := by
  have fold (marks : List Mark) (fits : peak marks < 2 ^ P.wordSize) (stats : Stats P) :
      (marks.foldl Stats.count stats).maxStashSize.toNat = max stats.maxStashSize.toNat (peak marks) := by
    induction marks generalizing stats with
    | nil => simp
    | cons mark marks ih =>
        rw [peak_cons] at fits
        rw [List.foldl_cons, ih (by omega), count_maxStashSize stats (by omega), peak_cons, max_assoc]
  rw [Stats.of, fold marks fits]
  exact Nat.zero_max _

/-- The marks of a run account for its events. -/
theorem Metered.Run.accounted {t : Hashtable P κ} {events : List (Event P κ)} {state : Metered P κ}
    (run : Metered.Run env ⟨t, []⟩ events state) :
    Accounted t state.table state.marks (events.countP removes) (events.countP replaces) := by
  let invariant (past : List (Event P κ)) (state : Metered P κ) : Prop :=
    Accounted t state.table state.marks (past.countP removes) (past.countP replaces)
  have start : invariant [] ⟨t, []⟩ := .refl t
  refine run.history invariant start ?_
  intro past state event next before step
  cases step with
  | @call _ _ _ _ op reply readable returns =>
      have call := apply_accounted op _ _ returns
      dsimp only [invariant] at before ⊢
      rw [List.countP_append, List.countP_append, List.countP_singleton, List.countP_singleton]
      exact before.trans call

/-- The counters of a table that `coucal_new` has made. -/
theorem new_counters {initialSize : Nat} {created : Hashtable P κ}
    (new : Hashtable.new env initialSize = some created) :
    created.lgSize = getPow2 P initialSize ∧ created.used = 0 ∧ created.stash.size = 0 := by
  unfold Hashtable.new at new
  dsimp only at new
  split at new
  next => cases new
  next =>
    split at new
    next =>
      cases new
      exact ⟨rfl, rfl, rfl⟩
    next => cases new

/-- The statistics of each run account for its calls: the adds are the entries and the removals, the other writes
are the replacements, and the rehashes are the doublings since the creation. The largest stash size is a bound of
the stash that is at most its capacity, and each item that went to the stash was moved before. -/
theorem statistics_account {initialSize : Nat} {created : Hashtable P κ} {events : List (Event P κ)}
    {state : Metered P κ} (new : Hashtable.new env initialSize = some created)
    (run : Metered.Run env ⟨created, []⟩ events state) :
    state.stats.addCount = BitVec.ofNat P.wordSize (state.table.used + events.countP removes) ∧
      state.stats.writeCount = state.stats.addCount + BitVec.ofNat P.wordSize (events.countP replaces) ∧
      (∃ doublings, state.table.lgSize = getPow2 P initialSize + doublings ∧
        state.stats.rehashCount = BitVec.ofNat P.wordSize doublings) ∧
      state.table.stash.size ≤ state.stats.maxStashSize.toNat ∧ state.stats.maxStashSize.toNat ≤ stashSize ∧
      total Mark.stashes state.marks ≤ total Mark.moves state.marks := by
  obtain ⟨used, writes, lgSize, stashes, size, top⟩ := Metered.Run.accounted run
  obtain ⟨initial, empty, none⟩ := new_counters new
  have word : stashSize < 2 ^ P.wordSize :=
    (by decide : stashSize < 2 ^ 16).trans_le (Nat.pow_le_pow_right Nat.two_pos P.word_ge)
  have largest : state.stats.maxStashSize.toNat = peak state.marks := Stats.of_maxStashSize (top.trans_lt word)
  refine ⟨?_, ?_, ⟨_, initial ▸ lgSize, Stats.of_rehashCount _⟩, ?_, largest ▸ top, stashes⟩
  · rw [used, empty, Nat.zero_add]
    exact Stats.of_addCount _
  · have adds : state.stats.addCount = BitVec.ofNat P.wordSize (total Mark.adds state.marks) := Stats.of_addCount _
    rw [adds, ← BitVec.ofNat_add, ← writes]
    exact Stats.of_writeCount _
  · rw [largest]
    rwa [none, Nat.zero_max] at size

/-- A write, a replacement and a removal are two writes, one of them an add. -/
theorem statistics_account_lengths : ∃ state : Metered Platform.lp64 Empty,
    state.table.used = 0 ∧ state.stats.addCount = 1 ∧ state.stats.writeCount = 2 := by
  let key : Key Empty := .string (CString.read [97])
  have answers : (Hashtable.session Env.lengths 0 [.writeValue key 1, .writeValue key 2, .remove key]).map
      (fun result => (result.1, result.2.used)) = some ([.flag true, .flag false, .flag true], 0) := by
    decide +kernel
  obtain ⟨⟨_, t⟩, completed, facts⟩ := Option.map_eq_some_iff.mp answers
  obtain ⟨replies, used⟩ := Prod.mk.inj facts
  cases replies
  obtain ⟨created, new, run⟩ := Hashtable.session_run completed
  obtain ⟨marks, metered⟩ := (run_iff_metered []).mp run
  obtain ⟨adds, writes, -⟩ := statistics_account new metered
  have adds : (⟨t, marks⟩ : Metered Platform.lp64 Empty).stats.addCount = 1 := by
    rw [adds]
    dsimp only at used ⊢
    rw [used]
    rfl
  refine ⟨⟨t, marks⟩, used, adds, ?_⟩
  rw [writes, adds]
  rfl

end Coucal
