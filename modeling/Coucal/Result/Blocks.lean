import Mathlib.Algebra.BigOperators.Group.Multiset.Basic
import Coucal.Library.Ledger
import Coucal.Proof.Ownership
import Coucal.Result.Statistics

namespace Coucal

open Driven Outcome Recorded Ledger

variable {P : Platform} {κ : Type} {env : Env P κ}

/-- An allocation acquires its block, and a release gives it back. -/
@[simp] def Mark.act : Mark → Act Block
  | .malloc block => .acquire block
  | .free block => .release block
  | .write | .add | .moved | .stashed _ | .rehash | .poolCompact | .poolRealloc | .copied _ => .other

theorem replay_malloc (live : Multiset Block) (block : Block) (marks : List Mark) :
    replay Mark.act live (.malloc block :: marks) = replay Mark.act (block ::ₘ live) marks := replay_acquire rfl

theorem replay_free (live : Multiset Block) (block : Block) (marks : List Mark) :
    replay Mark.act (block ::ₘ live) (.free block :: marks) = replay Mark.act live marks := replay_release rfl

/-- The size of a block. -/
def Block.bytes : Block → Nat
  | .table bytes | .items bytes | .pool _ bytes | .staged _ bytes => bytes

/-- The block of the pool, unless its buffer is NULL. -/
def Pool.blocks (pool : Pool) : Multiset Block :=
  if pool.buffer = 0 then 0 else {.pool pool.buffer pool.capacity}

/-- A pool without a buffer has no capacity. -/
def Pool.Backed (pool : Pool) : Prop := pool.buffer = 0 → pool.capacity = 0

/-- The blocks of the items and of the pool. -/
def Hashtable.blocks (t : Hashtable P κ) : Multiset Block :=
  .items (2 ^ t.lgSize * P.itemSize) ::ₘ t.pool.blocks

/-- The marks turn the blocks of a table into those of another one. A larger table has been checked. -/
structure Trades (t t' : Hashtable P κ) (marks : List Mark) : Prop where
  replayed : replay Mark.act t.blocks marks = some t'.blocks
  backed : t.pool.Backed → t'.pool.Backed
  grown : t'.lgSize = t.lgSize ∨ t.lgSize < t'.lgSize ∧ Allocatable P t'.lgSize

namespace Trades

variable {t s t' : Hashtable P κ} {marks marks' : List Mark}

/-- A table with the same blocks needs no allocation. -/
theorem still (lgSize : t'.lgSize = t.lgSize) (buffer : t'.pool.buffer = t.pool.buffer)
    (capacity : t'.pool.capacity = t.pool.capacity) (others : ∀ mark ∈ marks, mark.act = .other) :
    Trades t t' marks := by
  have same : t'.blocks = t.blocks := by
    rw [Hashtable.blocks, Hashtable.blocks, Pool.blocks, Pool.blocks, lgSize, buffer, capacity]
  refine ⟨?_, ?_, .inl lgSize⟩
  · rw [same]
    exact replay_others others
  · unfold Pool.Backed
    rw [buffer, capacity]
    exact id

theorem refl (t : Hashtable P κ) : Trades t t [] := still rfl rfl rfl (by simp)

theorem trans (first : Trades t s marks) (second : Trades s t' marks') : Trades t t' (marks ++ marks') := by
  refine ⟨?_, fun backed => second.backed (first.backed backed), ?_⟩
  · rw [replay_append first.replayed]
    exact second.replayed
  · rcases second.grown with same | ⟨larger, allocatable⟩
    · rw [same]
      exact first.grown
    · refine .inr ⟨?_, allocatable⟩
      rcases first.grown with same | ⟨larger', -⟩
      · rwa [same] at larger
      · exact larger'.trans larger

/-- A trade of the block of the pool. -/
theorem of_pool (lgSize : t'.lgSize = t.lgSize) (nonzero : t'.pool.buffer ≠ 0)
    (replayed : replay Mark.act t.pool.blocks marks = some t'.pool.blocks) : Trades t t' marks := by
  refine ⟨?_, fun _ zero => absurd zero nonzero, .inl lgSize⟩
  have whole := replay_frame replayed {.items (2 ^ t.lgSize * P.itemSize)}
  rw [Multiset.add_comm, Multiset.singleton_add, Multiset.add_comm, Multiset.singleton_add] at whole
  rw [Hashtable.blocks, Hashtable.blocks, lgSize]
  exact whole

end Trades

namespace Counted

variable {t : Hashtable P κ}

section Pool

/-- The release of the pool gives its block back. -/
theorem replay_releasePool (pool : Pool) (others : Multiset Block) :
    replay Mark.act (pool.blocks + others) (releasePool pool) = some others := by
  have alone : replay Mark.act pool.blocks (releasePool pool) = some 0 := by
    unfold Pool.blocks releasePool
    split
    next => rfl
    next => exact replay_free 0 _ []
  have framed := replay_frame alone others
  rwa [Multiset.zero_add] at framed

theorem relocateString_block {old pool pool' : Pool} {name name' : Option (Name κ)}
    (relocated : relocateString old pool name = .ok (pool', name')) :
    pool'.buffer = pool.buffer ∧ pool'.capacity = pool.capacity := by
  unfold relocateString at relocated
  split at relocated
  next =>
    cases relocated
    exact ⟨rfl, rfl⟩
  next =>
    cases relocated
    exact ⟨rfl, rfl⟩
  next =>
    obtain ⟨_, -, relocated⟩ := bind_eq_ok.mp relocated
    obtain ⟨_, -, relocated⟩ := bind_eq_ok.mp relocated
    obtain ⟨_, -, relocated⟩ := bind_eq_ok.mp relocated
    cases relocated
    exact ⟨rfl, rfl⟩

/-- The relocation loop keeps the block. -/
theorem relocateSlot_block {old : Pool} {count : Nat} {state final : Pool × (Nat → Item P κ)}
    (relocated : Outcome.forUpTo (relocateSlot old) count state = .ok final) :
    final.1.buffer = state.1.buffer ∧ final.1.capacity = state.1.capacity := by
  refine forUpTo_advances (fun _ (current : Pool × (Nat → Item P κ)) =>
    current.1.buffer = state.1.buffer ∧ current.1.capacity = state.1.capacity) relocated ⟨rfl, rfl⟩ ?_
  rintro index - current next ⟨buffer, capacity⟩ passed
  obtain ⟨⟨pool, name⟩, moved, same⟩ := bind_eq_ok.mp passed
  obtain ⟨buffer', capacity'⟩ := relocateString_block moved
  cases same
  exact ⟨buffer'.trans buffer, capacity'.trans capacity⟩

theorem compactPool_block {s : Hashtable P κ} {capacity : Nat} (returned : t.compactPool env capacity = .ok s) :
    s.lgSize = t.lgSize ∧ s.pool.buffer ≠ 0 ∧ s.pool.capacity = capacity := by
  obtain ⟨_, -, returned⟩ := bind_eq_ok.mp returned
  obtain ⟨⟨buffer, _⟩, allocated, returned⟩ := bind_eq_ok.mp returned
  obtain ⟨nonzero, rfl⟩ := (malloc_spec env _ _).of_ok allocated
  obtain ⟨⟨middle, _⟩, first, returned⟩ := bind_eq_ok.mp returned
  obtain ⟨⟨pool, _⟩, second, returned⟩ := bind_eq_ok.mp returned
  obtain ⟨buffer_eq, capacity_eq⟩ := relocateSlot_block first
  obtain ⟨buffer_eq', capacity_eq'⟩ := relocateSlot_block second
  cases returned
  have same : pool.buffer = buffer := buffer_eq'.trans buffer_eq
  refine ⟨rfl, ?_, capacity_eq'.trans capacity_eq⟩
  show pool.buffer ≠ 0
  rw [same]
  exact nonzero

/-- A compaction allocates a new block, and then releases the old one. -/
theorem compactPool_trades (capacity : Nat) : Records (compactPool env t capacity) (Trades t) := by
  unfold compactPool
  refine .tell_bind (.lift_bind fun s returned => .tell_bind (.pure ?_))
  obtain ⟨lgSize, nonzero, capacity_eq⟩ := compactPool_block returned
  refine .of_pool lgSize nonzero ?_
  have new : s.pool.blocks = {.pool s.pool.buffer capacity} := by
    rw [Pool.blocks, if_neg nonzero, capacity_eq]
  have released := replay_releasePool t.pool s.pool.blocks
  rw [new, Multiset.add_comm, Multiset.singleton_add] at released
  rw [new, List.append_nil]
  show replay Mark.act t.pool.blocks (.poolCompact :: .malloc (.pool s.pool.buffer capacity) ::
    .copied s.pool.size :: releasePool t.pool) = _
  rw [replay_other rfl, replay_malloc, replay_other rfl]
  exact released

/-- A reallocation releases the old block for the new one. -/
theorem reallocPool_trades (capacity : Nat) : Records (reallocPool env t capacity) (Trades t) := by
  unfold reallocPool
  refine .lift_bind fun _ _ => .ite (fun _ => compactPool_trades capacity) fun dense => ?_
  refine .tell_bind (.lift_bind fun s returned => .tell_bind (.pure ?_))
  have block : s.lgSize = t.lgSize ∧ s.pool.buffer ≠ 0 ∧ s.pool.capacity = capacity := by
    unfold Hashtable.reallocPool at returned
    obtain ⟨_, -, returned⟩ := bind_eq_ok.mp returned
    rw [if_neg dense] at returned
    obtain ⟨⟨_, _⟩, allocated, returned⟩ := bind_eq_ok.mp returned
    obtain ⟨nonzero, rfl⟩ := (malloc_spec env _ _).of_ok allocated
    dsimp only at returned
    split at returned
    next =>
      cases returned
      exact ⟨rfl, nonzero, rfl⟩
    next =>
      obtain ⟨_, -, returned⟩ := bind_eq_ok.mp returned
      obtain ⟨_, -, returned⟩ := bind_eq_ok.mp returned
      cases returned
      exact ⟨rfl, nonzero, rfl⟩
  obtain ⟨lgSize, nonzero, capacity_eq⟩ := block
  refine .of_pool lgSize nonzero ?_
  have released := replay_releasePool t.pool 0
  rw [Multiset.add_zero] at released
  have rest : replay Mark.act 0 [Mark.malloc (.pool s.pool.buffer capacity)] = some s.pool.blocks := by
    rw [Pool.blocks, if_neg nonzero, capacity_eq]
    rfl
  rw [List.append_nil]
  show replay Mark.act t.pool.blocks (.poolRealloc :: .copied t.pool.capacity ::
    (releasePool t.pool ++ [.malloc (.pool s.pool.buffer capacity)])) = _
  rw [replay_other rfl, replay_other rfl, replay_append released]
  exact rest

/-- The room for a name leaves the private copy of the name live. -/
theorem makeRoom_trades (name : Name κ) (text : CString) :
    Records (makeRoom env t name text) fun result marks =>
      let staged := if t.pool.capacity - t.pool.size < text.strlen + 1 then stagingBlock env t name text else none
      replay Mark.act t.blocks marks = some (result.2.blocks + staged.toList) ∧
        (t.pool.Backed → result.2.pool.Backed) ∧
        (result.2.lgSize = t.lgSize ∨ t.lgSize < result.2.lgSize ∧ Allocatable P result.2.lgSize) := by
  unfold makeRoom growPool
  refine .ite (fun short => ?_) fun long => .pure ?_
  · refine .lift_bind ?_
    rintro ⟨name', s⟩ staged
    obtain ⟨allocs, rfl⟩ := stageName_counters staged
    refine .tell_bind (.lift_bind fun capacity _ => .lift_bind fun _ _ => ?_)
    refine (reallocPool_trades capacity).bind fun t' marks trades => .pure ?_
    obtain ⟨replayed, backed, grown⟩ := trades
    refine ⟨?_, backed, grown⟩
    rw [if_pos short, List.append_nil]
    cases stagingBlock env t name text with
    | none =>
        rw [Option.toList_none, List.map_nil, List.nil_append, Multiset.coe_nil, Multiset.add_zero]
        exact replayed
    | some block =>
        rw [Option.toList_some, List.map_singleton, List.singleton_append, replay_malloc]
        have framed := replay_frame replayed {block}
        rw [Multiset.add_comm, Multiset.singleton_add] at framed
        exact framed
  · refine ⟨?_, id, .inl rfl⟩
    rw [if_neg long, Option.toList_none, Multiset.coe_nil, Multiset.add_zero]
    rfl

/-- The private copy of the name is released at the end. -/
theorem dupNameInternal_trades (name : Name κ) :
    Records (dupNameInternal env t name) fun result => Trades t result.2 := by
  unfold dupNameInternal
  refine .lift_bind fun text _ => .ite (fun _ => .pure (.refl t)) fun _ => ?_
  refine .lift_bind fun _ _ => (makeRoom_trades name text).bind ?_
  rintro ⟨name', s⟩ marks ⟨replayed, backed, grown⟩
  refine .lift_bind fun _ _ => .lift_bind fun _ _ => .lift_bind fun bytes _ => .tell_bind (.pure ?_)
  refine ⟨?_, backed, grown⟩
  rw [replay_append replayed, List.append_nil]
  cases (if t.pool.capacity - t.pool.size < text.strlen + 1 then stagingBlock env t name text else none) with
  | none =>
      rw [Option.toList_none, List.map_nil, Multiset.coe_nil, Multiset.add_zero]
      rfl
  | some block =>
      rw [Option.toList_some, List.map_singleton, Multiset.coe_singleton, Multiset.add_comm, Multiset.singleton_add,
        replay_free]
      rfl

theorem dupName_trades (name : Name κ) : Records (dupName env t name) fun result => Trades t result.2 := by
  unfold dupName
  cases handler : env.dup with
  | some =>
      refine .lift fun result returned => ?_
      rw [Hashtable.dupName, handler] at returned
      cases returned
      exact .still rfl rfl rfl (by simp)
  | none =>
      refine (dupNameInternal_trades name).bind fun result marks trades => .pure ?_
      rw [List.append_nil]
      exact trades

theorem freeKey_trades (name : Name κ) : Records (freeKey env t name) (Trades t) := by
  unfold freeKey
  cases handler : env.dup with
  | some =>
      refine .lift fun result returned => ?_
      rw [Hashtable.freeKey, handler] at returned
      cases returned
      exact .still rfl rfl rfl (by simp)
  | none =>
      cases name with
      | own => exact .throw
      | emptyString => exact .pure (.refl t)
      | pooled address =>
          unfold freeKeyInternal
          refine .lift_bind fun _ _ => .ite (fun _ => .lift_bind fun _ _ => ?_) fun _ => .pure ?_
          · exact (compactPool_trades _).imp fun t' marks trades => ⟨trades.replayed, trades.backed, trades.grown⟩
          · exact .still rfl rfl rfl (by simp)

theorem delItem_trades (slot : Slot) : Records (delItem env t slot) (Trades t) := by
  unfold delItem delName
  split
  next => exact .throw
  next name named =>
    refine (freeKey_trades name).imp fun t' marks trades => ?_
    have start : Trades t ((t.delValue_ env slot).setItem slot
        { (t.delValue_ env slot).item slot with name := none, hashes := Hashkeys.null P }) [] := by
      rw [Hashtable.delValue_eq]
      exact .still (by simp [Hashtable.setValue]) (by simp [Hashtable.setValue]) (by simp [Hashtable.setValue]) (by simp)
    exact start.trans trades

end Pool

section Table

/-- The placement of items allocates nothing. -/
theorem Placing.trades {s t' : Hashtable P κ} {marks : List Mark} (placing : Placing s t' marks) :
    Trades s t' marks := by
  refine .still placing.lgSize_eq (by rw [placing.pool_eq]) (by rw [placing.pool_eq]) fun mark member => ?_
  have placed := placing.marks mark member
  cases mark <;> first | rfl | cases placed

/-- A doubling exchanges the block of the items. -/
theorem Doubled.trades {s t' : Hashtable P κ} {marks : List Mark} (doubled : Doubled s t' marks) :
    Trades s t' marks := by
  obtain ⟨-, lgSize, allocatable, pool, rfl⟩ := doubled
  refine ⟨?_, ?_, .inr ⟨lgSize ▸ Nat.lt_succ_self _, allocatable⟩⟩
  · rw [Hashtable.blocks, Hashtable.blocks, lgSize, pool, replay_other rfl, replay_free, replay_malloc]
    rfl
  · rw [pool]
    exact id

theorem writeValue_trades (name : Name κ) (value : Value P) :
    Records (writeValue env t name value) fun result => Trades t result.2 := by
  have write : Records (writeValue_ env t name value) fun result => Trades t result.2 := by
    unfold writeValue_
    refine .tell_bind ?_
    split
    next slot _ =>
      refine .pure ?_
      rw [Hashtable.delValue_eq]
      exact .still (by simp [Hashtable.setValue]) (by simp [Hashtable.setValue]) (by simp [Hashtable.setValue]) (by simp)
    next =>
      refine .tell_bind ((dupName_trades name).bind ?_)
      rintro ⟨copy, s⟩ marks trades
      refine (addItem_placing _).imp ?_
      rintro ⟨added, t'⟩ marks' ⟨-, placing⟩
      have counted : Trades t t ([.write] ++ [.add]) := .still rfl rfl rfl (by simp)
      have whole := ((counted.trans (drain_placing t).trades).trans trades).trans placing.trades
      rw [List.append_nil, List.append_assoc, List.append_assoc] at whole
      exact whole
  unfold writeValue
  refine write.bind ?_
  rintro ⟨added, s⟩ marks trades
  refine .ite (fun _ => .ite (fun _ => ?_) fun _ => .pure ?_) fun _ => .pure ?_
  · refine expand_doubled.bind fun u marks' doubled => mergeStash_placing.bind fun t' marks'' merged => .pure ?_
    rw [List.append_nil]
    have counted : Trades s { s with used := s.used + 1 } [] := .still rfl rfl rfl (by simp)
    exact trades.trans (counted.trans (doubled.trades.trans merged.trades))
  · rw [List.append_nil]
    exact ⟨trades.replayed, trades.backed, trades.grown⟩
  · rw [List.append_nil]
    exact trades

theorem inc_trades (name : Name κ) (inc : Value P) :
    Records (inc_ env t name inc) fun result => Trades t result.2 := by
  unfold inc_
  split
  next slot _ => exact .pure (.still (by simp) (by simp) (by simp) (by simp))
  next =>
    refine (writeValue_trades name inc).bind ?_
    rintro ⟨added, t'⟩ marks trades
    refine .lift_bind fun _ _ => .pure ?_
    rw [List.append_nil]
    exact trades

theorem remove_trades (name : Name κ) : Records (remove env t name) fun result => Trades t result.2 := by
  have located : Records (remove_ env t name (t.calcHashes env name)) fun result => Trades t result.2 := by
    unfold remove_
    split
    next pos _ =>
      refine (delItem_trades _).bind fun t' marks trades => .pure ?_
      rw [List.append_nil]
      exact trades
    next index _ =>
      refine (delItem_trades _).bind fun t' marks trades => .pure ?_
      rw [List.append_nil]
      exact ⟨trades.replayed, trades.backed, trades.grown⟩
    next => exact .pure (.refl t)
  unfold remove
  refine located.bind ?_
  rintro ⟨removed, s⟩ marks trades
  refine .ite (fun _ => .lift_bind fun _ _ => .pure ?_) fun _ => .pure ?_
  · rw [List.append_nil]
    exact ⟨trades.replayed, trades.backed, trades.grown⟩
  · rw [List.append_nil]
    exact trades

end Table

/-- The marks of a call turn the blocks of the table into those of the next one. -/
theorem apply_trades (op : Op P (Name κ)) : Records (apply env t op) fun result => Trades t result.2 := by
  cases op with
  | writeValue name value =>
      refine (writeValue_trades name value).bind fun result marks trades => .pure ?_
      rw [List.append_nil]
      exact trades
  | remove name =>
      refine (remove_trades name).bind fun result marks trades => .pure ?_
      rw [List.append_nil]
      exact trades
  | inc name | dec name =>
      refine (inc_trades name _).bind fun result marks trades => .pure ?_
      rw [List.append_nil]
      exact trades
  | readValue | exists_ | fetchValueHashes | nitems | enumNext =>
      refine .lift fun result returned => ?_
      cases returned
      exact .refl t

end Counted

open Counted

/-- A creation that fails releases what it has allocated. -/
theorem new_failed {structSize initialSize : Nat} {marks : List Mark}
    (failed : Counted.new env structSize initialSize = (none, marks)) : replay Mark.act 0 marks = some 0 := by
  have single (block : Block) : replay Mark.act {block} [.free block] = some 0 := replay_free 0 block []
  unfold Counted.new at failed
  dsimp only at failed
  split at failed
  next =>
    cases failed
    rfl
  next =>
    split at failed
    next => cases failed
    next =>
      cases failed
      by_cases table : env.alloc 0 = 0 <;> by_cases items : env.alloc 1 = 0 <;>
        simp [table, items, replay_malloc, replay_free, single]

/-- A creation that succeeds has allocated the structure and the items. -/
theorem new_created {structSize initialSize : Nat} {created : Hashtable P κ} {marks : List Mark}
    (made : Counted.new env structSize initialSize = (some created, marks)) :
    replay Mark.act 0 marks = some (.table structSize ::ₘ created.blocks) ∧ created.pool.Backed := by
  unfold Counted.new at made
  dsimp only at made
  split at made
  next => cases made
  next acceptable =>
    split at made
    next t new =>
      cases made
      unfold Hashtable.new at new
      dsimp only at new
      rw [if_neg acceptable] at new
      split at new
      next allocated =>
        obtain ⟨table, items⟩ := allocated
        cases new
        refine ⟨?_, fun _ => rfl⟩
        rw [if_pos table, if_pos items]
        exact congrArg some (Multiset.cons_swap _ _ 0)
      next => cases new
    next => cases made

/-- The allocations have no effect on the table. -/
theorem new_counted {structSize initialSize : Nat} {created : Hashtable P κ}
    (new : Hashtable.new env initialSize = some created) :
    ∃ marks, Counted.new env structSize initialSize = (some created, marks) := by
  unfold Counted.new
  dsimp only
  split
  next refused =>
    unfold Hashtable.new at new
    dsimp only at new
    rw [if_pos refused] at new
    cases new
  next =>
    rw [new]
    exact ⟨_, rfl⟩

/-- The deletion of the items succeeds, and keeps the buffer of the pool. -/
theorem delete_returns (t : Hashtable P κ) : ∃ s, t.delete env = .ok s ∧ s.pool = t.pool := by
  have pass (slot : Slot) (s : Hashtable P κ) (pool : s.pool = t.pool) :
      Meets (Hashtable.deleteSlot env slot s) (fun s => s.pool = t.pool) fun _ => False := by
    cases named : (s.item slot).name with
    | none =>
        unfold Hashtable.deleteSlot
        rw [if_pos (by simp [named])]
        exact pool
    | some name =>
        rw [deleteSlot_eq named]
        exact (Hashtable.setItem_pool ..).trans pool
  have deletion : Meets (t.delete env) (fun s => s.pool = t.pool) fun _ => False := by
    unfold Hashtable.delete
    refine (Meets.forUpTo (fun _ s => s.pool = t.pool) rfl fun index _ s => pass (.table index) s).bind fun s pool => ?_
    refine (Meets.forUpTo (fun _ s => s.pool = t.pool) pool fun index _ s => pass (.stash index) s).bind fun s pool => ?_
    exact pool
  cases deleted : t.delete env with
  | error => exact (deletion.of_error deleted).elim
  | ok s => exact ⟨s, rfl, deletion.of_ok deleted⟩

/-- The memory size is the sum of the sizes of the live blocks, in a word. -/
theorem memorySize_eq {t : Hashtable P κ} (structSize : Nat) (backed : t.pool.Backed) :
    t.memorySize structSize = ((Block.table structSize ::ₘ t.blocks).map Block.bytes).sum % 2 ^ P.wordSize := by
  have pool : (t.pool.blocks.map Block.bytes).sum = t.pool.capacity := by
    unfold Pool.blocks
    split
    next zero => exact (backed zero).symm
    next => simp [Block.bytes]
  rw [Hashtable.blocks, Multiset.map_cons, Multiset.map_cons, Multiset.sum_cons, Multiset.sum_cons, pool,
    ← Nat.add_assoc]
  rfl

/-- Each block is released once, and only while it is live. A creation that fails leaves no block. Over each run of a
table the live blocks are the structure, the items and the buffer of the pool, their sizes are the memory size, and
the deletion of the table leaves no block. -/
theorem blocks_released (structSize initialSize : Nat) :
    (∀ marks, Counted.new env structSize initialSize = (none, marks) → replay Mark.act 0 marks = some 0) ∧
      ∀ created marks events state, Counted.new env structSize initialSize = (some created, marks) →
        Metered.Run env ⟨created, marks⟩ events state →
        replay Mark.act 0 state.marks = some (.table structSize ::ₘ state.table.blocks) ∧
          state.table.memorySize structSize =
            ((Block.table structSize ::ₘ state.table.blocks).map Block.bytes).sum % 2 ^ P.wordSize ∧
          ∃ t last, (Counted.delete env structSize state.table).run = .ok (t, last) ∧
            replay Mark.act 0 (state.marks ++ last) = some 0 := by
  refine ⟨fun marks => new_failed, fun created marks events state made run => ?_⟩
  let invariant (state : Metered P κ) : Prop :=
    replay Mark.act 0 state.marks = some (.table structSize ::ₘ state.table.blocks) ∧ state.table.pool.Backed
  obtain ⟨replayed, backed⟩ : invariant state := by
    refine run.preserves invariant (new_created made) fun state event next _ before step => ?_
    obtain ⟨replayed, backed⟩ := before
    cases step with
    | call readable returns =>
        have trades := apply_trades _ _ _ returns
        refine ⟨?_, trades.backed backed⟩
        have framed := replay_frame trades.replayed {Block.table structSize}
        rw [Multiset.add_comm, Multiset.singleton_add, Multiset.add_comm, Multiset.singleton_add] at framed
        exact (replay_append replayed).trans framed
  refine ⟨replayed, memorySize_eq structSize backed, ?_⟩
  obtain ⟨s, deleted, pool⟩ : ∃ s, state.table.delete env = .ok s ∧ s.pool = state.table.pool :=
    delete_returns state.table
  let last : List Mark := releasePool s.pool ++
    [.free (.items (2 ^ state.table.lgSize * P.itemSize)), .free (.table structSize)]
  refine ⟨s, last, ?_, ?_⟩
  · unfold Counted.delete
    rw [deleted]
    simp [last]
  · rw [replay_append replayed]
    have order : Block.table structSize ::ₘ state.table.blocks = state.table.pool.blocks +
        (.items (2 ^ state.table.lgSize * P.itemSize) ::ₘ .table structSize ::ₘ 0) := by
      rw [Hashtable.blocks, Multiset.cons_swap, Multiset.add_comm]
      simp
    rw [order, ← pool, replay_append (replay_releasePool s.pool _), replay_free, replay_free]
    rfl

/-- A structure of 1024 bytes, and a run that moves the pool with a staged copy of a key that lies inside it, doubles
the items, and compacts the pool. -/
theorem blocks_released_lengths : ∃ (state : Metered Platform.lp64 Empty) (t : Hashtable Platform.lp64 Empty)
    (last : List Mark), .malloc (.staged 16384 48) ∈ state.marks ∧ .free (.pool 12288 256) ∈ state.marks ∧
      total Mark.rehashes state.marks = 1 ∧ total Mark.compactions state.marks = 1 ∧
      replay Mark.act 0 state.marks = some (.table 1024 ::ₘ state.table.blocks) ∧
      (Counted.delete Env.lengths 1024 state.table).run = .ok (t, last) ∧
      replay Mark.act 0 (state.marks ++ last) = some 0 := by
  let key (length : Nat) : Key Empty := .string (CString.read (List.replicate length 97))
  let makes := drive fun op => Metered.makes Env.lengths (Op.map Name.own op)
  let filling : List (Op Platform.lp64 (Key Empty)) := [.writeValue (key 40) 1, .writeValue (key 42) 2,
    .writeValue (key 44) 3, .writeValue (key 46) 4, .writeValue (key 48) 5]
  let others : List (Op Platform.lp64 (Key Empty)) := [.writeValue (key 1) 7, .writeValue (key 2) 8,
    .remove (key 40), .remove (key 42), .remove (key 44), .remove (key 46)]
  -- the last key of the pool without its first byte
  let suffix (state : Metered Platform.lp64 Empty) : Op Platform.lp64 (Name Empty) :=
    .writeValue (.pooled (state.table.pool.buffer + 177)) 6
  have facts : ((Counted.new Env.lengths 1024 0).1.bind fun created => (do
      let full ← makes filling ⟨created, (Counted.new Env.lengths 1024 0).2⟩
      let grown ← Metered.makes Env.lengths (suffix full) full
      let state ← makes others grown
      .ok (full.table.pool.size, state)).toOption).map (fun result => (result.1,
        decide (.malloc (.staged 16384 48) ∈ result.2.marks), decide (.free (.pool 12288 256) ∈ result.2.marks),
        total Mark.rehashes result.2.marks, total Mark.compactions result.2.marks)) =
          some (225, true, true, 1, 1) := by
    decide +kernel
  obtain ⟨⟨size, state⟩, completed, facts⟩ := Option.map_eq_some_iff.mp facts
  obtain ⟨created, new, rest⟩ := Option.bind_eq_some_iff.mp completed
  obtain ⟨full, filled, rest⟩ := bind_eq_ok.mp (Outcome.toOption_eq_some.mp rest)
  obtain ⟨grown, written, rest⟩ := bind_eq_ok.mp rest
  obtain ⟨last, made, same⟩ := bind_eq_ok.mp rest
  cases same
  obtain ⟨inside, facts⟩ := Prod.mk.inj facts
  obtain ⟨staged, facts⟩ := Prod.mk.inj facts
  obtain ⟨moved, facts⟩ := Prod.mk.inj facts
  obtain ⟨rehashes, compactions⟩ := Prod.mk.inj facts
  have readable : ∀ name, (suffix full).name? = some name → full.table.Readable name := by
    rintro _ ⟨⟩
    dsimp only at inside
    exact ⟨Nat.le_add_right _ _, by omega⟩
  obtain ⟨_, -, first⟩ := drive_run filled fun _ _ _ => Metered.makes_own
  obtain ⟨_, step⟩ := Metered.makes_step readable written
  obtain ⟨_, -, second⟩ := drive_run made fun _ _ _ => Metered.makes_own
  have run := first.append (.cons step second)
  obtain ⟨replayed, -, final, last, deleted, empty⟩ := (blocks_released 1024 0).2 created _ _ _ (Prod.ext new rfl) run
  exact ⟨_, final, last, of_decide_eq_true staged, of_decide_eq_true moved, rehashes, compactions, replayed, deleted,
    empty⟩

end Coucal
