import Mathlib.Data.Nat.Log
import Coucal.Proof.Calls
import Coucal.Result.Statistics

namespace Coucal

open Driven Outcome Recorded

variable {P : Platform} {κ : Type} {env : Env P κ}

/-- The capacity is zero or a power of two. -/
def Pool.Power (pool : Pool) : Prop := pool.capacity = 0 ∨ ∃ n, pool.capacity = 2 ^ n

/-- The copies that the bytes below the watermark have paid for. -/
def Pool.potential (pool : Pool) : Nat := 3 * pool.size + (2 * pool.size - pool.capacity)

/-- Some new bytes pay for the copies of the marks, five times each. A reallocation doubles the capacity, and a
compaction halves it at most. -/
structure Pool.Pays (pool pool' : Pool) (marks : List Mark) (bytes : Nat) : Prop where
  copies : total Mark.copiedBytes marks + pool'.potential ≤ pool.potential + 5 * bytes
  doublings : total Mark.reallocations marks + Nat.log 2 pool.capacity ≤
    Nat.log 2 pool'.capacity + total Mark.compactions marks
  power : pool'.Power

namespace Pool.Pays

variable {pool middle pool' : Pool} {marks marks' : List Mark} {bytes bytes' : Nat}

theorem refl (power : pool.Power) : pool.Pays pool [] 0 := ⟨by simp, by simp, power⟩

theorem trans (first : pool.Pays middle marks bytes) (second : middle.Pays pool' marks' bytes') :
    pool.Pays pool' (marks ++ marks') (bytes + bytes') := by
  obtain ⟨copies, doublings, -⟩ := first
  obtain ⟨copies', doublings', power⟩ := second
  refine ⟨?_, ?_, power⟩
  · rw [total_append]
    omega
  · rw [total_append, total_append]
    omega

/-- More bytes pay as well. -/
theorem mono (pays : pool.Pays pool' marks bytes) (more : bytes ≤ bytes') : pool.Pays pool' marks bytes' :=
  ⟨pays.copies.trans (by omega), pays.doublings, pays.power⟩

/-- Only the marks of the pool matter. -/
theorem of_filter (pays : pool.Pays pool' (marks.filter Mark.ofPool) bytes) : pool.Pays pool' marks bytes := by
  have same (weight : Mark → Nat) (zero : ∀ mark : Mark, mark.ofPool = false → weight mark = 0) :
      total weight (marks.filter Mark.ofPool) = total weight marks := total_filter zero marks
  obtain ⟨copies, doublings, power⟩ := pays
  rw [same Mark.copiedBytes fun mark other => by cases mark <;> first | rfl | cases other] at copies
  rw [same Mark.reallocations fun mark other => by cases mark <;> first | rfl | cases other] at doublings
  rw [same Mark.compactions fun mark other => by cases mark <;> first | rfl | cases other] at doublings
  exact ⟨copies, doublings, power⟩

/-- The other marks pay for nothing. -/
theorem quiet (power : pool.Power) (others : ∀ mark ∈ marks, mark.ofPool = false) : pool.Pays pool marks 0 := by
  have none : marks.filter Mark.ofPool = [] := List.filter_eq_nil_iff.mpr fun mark member => by
    rw [others mark member]
    exact Bool.false_ne_true
  refine of_filter ?_
  rw [none]
  exact .refl power

end Pool.Pays

/-- A larger power of two is at least the double. -/
theorem Pool.Power.doubles {pool pool' : Pool} (power : pool.Power) (power' : pool'.Power)
    (larger : pool.capacity < pool'.capacity) (two : 2 ≤ pool'.capacity) :
    2 * pool.capacity ≤ pool'.capacity ∧ Nat.log 2 pool.capacity + 1 ≤ Nat.log 2 pool'.capacity := by
  have first : 2 * pool.capacity ≤ pool'.capacity := by
    rcases power with zero | ⟨n, equal⟩
    · omega
    · rcases power' with zero | ⟨m, equal'⟩
      · omega
      · rw [equal, equal'] at larger ⊢
        have less := (Nat.pow_lt_pow_iff_right (by decide)).mp larger
        rw [← Nat.pow_succ']
        exact Nat.pow_le_pow_right Nat.two_pos less
  refine ⟨first, ?_⟩
  by_cases zero : pool.capacity = 0
  · rw [zero, Nat.log_zero_right]
    exact Nat.log_pos (by decide) two
  · rw [← Nat.log_mul_base (by decide) zero, Nat.mul_comm]
    exact Nat.log_mono_right first

/-- Half of the capacity is a power of two too. -/
theorem Pool.Power.halves {pool pool' : Pool} (power : pool.Power)
    (half : pool'.capacity = pool.capacity / 2 ∨ pool'.capacity = pool.capacity) :
    pool'.Power ∧ Nat.log 2 pool.capacity ≤ Nat.log 2 pool'.capacity + 1 := by
  rcases half with half | same
  · refine ⟨?_, ?_⟩
    · unfold Pool.Power at power ⊢
      rcases power with zero | ⟨n, equal⟩
      · exact .inl (by omega)
      · cases n with
        | zero => exact .inl (by omega)
        | succ n => exact .inr ⟨n, by rw [half, equal, Nat.pow_succ, Nat.mul_div_cancel _ Nat.two_pos]⟩
    · rw [half, Nat.log_div_base]
      omega
  · rw [Pool.Power, same]
    exact ⟨power, Nat.le_succ _⟩

namespace Counted

variable {t : Hashtable P κ}

/-- A release of the pool is no work of the pool. -/
@[simp] theorem filter_releasePool (pool : Pool) : (releasePool pool).filter Mark.ofPool = [] := by
  unfold releasePool
  split <;> rfl

/-- A compaction copies the bytes in use. -/
theorem compactPool_pays {capacity : Nat} (managed : env.dup = none) (stash : t.stash.Bounded)
    (ok : t.pool.Ok t.names) (fits : t.pool.used ≤ capacity) :
    Records (compactPool env t capacity) fun t' marks =>
      marks.filter Mark.ofPool = [.poolCompact, .copied t.pool.used] ∧
      t'.pool.size = t.pool.used ∧ t'.pool.capacity = capacity := by
  unfold compactPool
  refine .tell_bind (.lift_bind fun t' returned => .tell_bind (.pure ?_))
  obtain ⟨resized, compact, -⟩ := (compactPool_spec managed stash ok fits).of_ok returned
  have size := compact.trans resized.used_eq
  refine ⟨?_, size, resized.capacity_eq⟩
  rw [size]
  simp [List.filter_cons]

/-- A growth copies the bytes in use, which are at most three quarters of the bytes below the watermark, or the
old block. -/
theorem reallocPool_pays {capacity : Nat} (managed : env.dup = none) (stash : t.stash.Bounded)
    (ok : t.pool.Ok t.names) (fits : t.pool.size ≤ capacity) :
    Records (reallocPool env t capacity) fun t' marks => t'.pool.capacity = capacity ∧
      (4 * t.pool.used ≤ 3 * t.pool.size ∧ marks.filter Mark.ofPool = [.poolCompact, .copied t.pool.used] ∧
          t'.pool.size = t.pool.used ∨
        marks.filter Mark.ofPool = [.poolRealloc, .copied t.pool.capacity] ∧ t'.pool.size = t.pool.size) := by
  unfold reallocPool
  refine .lift_bind fun _ _ => .ite (fun sparse => ?_) fun dense =>
    .tell_bind (.lift_bind fun t' returned => .tell_bind (.pure ?_))
  · refine (compactPool_pays managed stash ok (ok.used_le.trans fits)).imp ?_
    rintro t' marks ⟨marked, size, capacity_eq⟩
    have part := Nat.mod_le (t.pool.size * 3) (2 ^ P.wordSize)
    exact ⟨capacity_eq, .inl ⟨by omega, marked, size⟩⟩
  · have resized := (reallocPool_spec managed stash ok fits).of_ok returned
    have size := (reallocPool_room managed stash ok fits returned).2
    rw [if_neg dense] at size
    refine ⟨resized.capacity_eq, .inr ⟨?_, size⟩⟩
    simp [List.filter_cons]

/-- A pool that is too small gets a new capacity. -/
structure Grows (P : Platform) (pool pool' : Pool) (len : Nat) : Prop where
  short : pool.capacity - pool.size < len
  below : pool.size < pool'.capacity
  half : 2 * pool'.capacity ≤ 2 ^ P.wordSize
  first : FirstCapacity ((pool.size + len) % 2 ^ P.wordSize) pool'.capacity

/-- The ways to make room for a name, with the work of the pool. -/
inductive Made (P : Platform) (pool : Pool) (len : Nat) : Pool → List Mark → Prop where
  | fits : Made P pool len pool []
  | compacted {pool' : Pool} (grows : Grows P pool pool' len) (sparse : 4 * pool.used ≤ 3 * pool.size)
      (size : pool'.size = pool.used) : Made P pool len pool' [.poolCompact, .copied pool.used]
  | moved {pool' : Pool} (grows : Grows P pool pool' len) (size : pool'.size = pool.size) :
      Made P pool len pool' [.poolRealloc, .copied pool.capacity]

theorem makeRoom_made {name : Name κ} {text : CString} (managed : env.dup = none) (stash : t.stash.Bounded)
    (ok : t.pool.Ok t.names) :
    Records (makeRoom env t name text) fun result marks =>
      Made P t.pool (text.strlen + 1) result.2.pool (marks.filter Mark.ofPool) := by
  unfold makeRoom growPool
  refine .ite (fun short => ?_) fun _ => .pure .fits
  refine .lift_bind ?_
  rintro ⟨name', s⟩ staged
  obtain ⟨allocs, rfl⟩ := stageName_counters staged
  refine .tell_bind (.lift_bind fun capacity found => .lift_bind fun _ below => ?_)
  have below : t.pool.size < capacity := guard_eq_ok.mp below
  have word := P.word_ge
  obtain ⟨first, half⟩ := (searchCapacity_spec (P.wordSize + 1) 0 (by omega) (by omega) (.inl rfl)).of_ok found
  refine (reallocPool_pays (t := { t with allocs }) managed stash ok (Nat.le_of_lt below)).bind ?_
  rintro t' marks ⟨capacity_eq, ways⟩
  refine .pure ?_
  have only : ((stagingBlock env t name text).toList.map Mark.malloc ++ (marks ++ [])).filter Mark.ofPool =
      marks.filter Mark.ofPool := by simp
  rw [only]
  have grows : Grows P t.pool t'.pool (text.strlen + 1) :=
    ⟨short, capacity_eq ▸ below, capacity_eq ▸ half, capacity_eq ▸ first⟩
  rcases ways with ⟨sparse, work, size⟩ | ⟨work, size⟩
  · rw [work]
    exact .compacted grows sparse size
  · rw [work]
    exact .moved grows size

/-- A name that is written above the watermark pays for the room. -/
theorem Made.pays {pool pool' final : Pool} {len : Nat} {marks : List Mark} (made : Made P pool len pool' marks)
    (power : pool.Power) (used_le : pool.used ≤ pool.size) (size_le : pool.size ≤ pool.capacity)
    (size : final.size = pool'.size + len) (capacity : final.capacity = pool'.capacity)
    (fits : final.size ≤ final.capacity) : pool.Pays final marks len := by
  have grown {pool' : Pool} (grows : Grows P pool pool' len) (room : final.size ≤ pool'.capacity)
      (above : final.size = pool'.size + len) (capacity : final.capacity = pool'.capacity) :
      2 * pool.capacity ≤ final.capacity ∧ Nat.log 2 pool.capacity + 1 ≤ Nat.log 2 final.capacity ∧ final.Power := by
    obtain ⟨short, below, half, enough, doublings, equal, -⟩ := grows
    have small : pool.size + len < 2 ^ P.wordSize := by omega
    rw [Nat.mod_eq_of_lt small] at enough
    have power' : final.Power := .inr ⟨8 + doublings, by rw [capacity, equal, Nat.pow_add]⟩
    have least : 2 ≤ pool'.capacity := by
      rw [equal]
      exact (by decide : 2 ≤ minPoolCapacity).trans (Nat.le_mul_of_pos_right _ (Nat.two_pow_pos _))
    obtain ⟨double, log⟩ := power.doubles power' (by omega) (by omega)
    exact ⟨double, log, power'⟩
  cases made with
  | fits =>
      refine ⟨?_, by simp [capacity], by rw [Pool.Power, capacity]; exact power⟩
      simp only [Pool.potential, total_nil, size, capacity]
      omega
  | compacted grows sparse compact =>
      obtain ⟨double, log, power'⟩ := grown grows (capacity ▸ fits) size capacity
      refine ⟨?_, ?_, power'⟩
      · simp only [Pool.potential, total_cons, total_nil, Mark.copiedBytes]
        omega
      · simp
        omega
  | moved grows same =>
      obtain ⟨double, log, power'⟩ := grown grows (capacity ▸ fits) size capacity
      have short := grows.short
      refine ⟨?_, ?_, power'⟩
      · simp only [Pool.potential, total_cons, total_nil, Mark.copiedBytes]
        omega
      · simp
        omega

theorem dupNameInternal_pays {name : Name κ} (managed : env.dup = none) (stash : t.stash.Bounded)
    (ok : t.pool.Ok t.names) (power : t.pool.Power) (readable : t.Readable name) :
    Records (dupNameInternal env t name) fun result marks =>
      t.pool.Pays result.2.pool marks (t.key name).footprint := by
  have made : Records (dupNameInternal env t name) fun result marks =>
      result.2 = t ∧ marks = [] ∧ (t.key name).footprint = 0 ∨
        ∃ pool', Made P t.pool (t.key name).footprint pool' (marks.filter Mark.ofPool) ∧
          result.2.pool.size = pool'.size + (t.key name).footprint ∧ result.2.pool.capacity = pool'.capacity := by
    unfold dupNameInternal
    refine .lift_bind fun text held => ?_
    cases key : t.key name with
    | object => rw [key] at held; cases held
    | string other =>
        rw [key] at held
        cases held
        refine .ite (fun empty => .pure (.inl ⟨rfl, rfl, if_pos ?_⟩)) fun long => ?_
        · exact List.length_eq_zero_iff.mp (Nat.succ.inj empty)
        · have bytes : (Key.string text : Key κ).footprint = text.strlen + 1 :=
            CString.footprint_of_nonempty fun none => long (by simp [CString.strlen, none])
          rw [bytes]
          refine .lift_bind fun _ _ => (makeRoom_made managed stash ok).bind ?_
          rintro ⟨name', s⟩ marks made
          refine .lift_bind fun _ _ => .lift_bind fun _ _ => .lift_bind fun _ _ =>
            .tell_bind (.pure (.inr ⟨s.pool, ?_, rfl, rfl⟩))
          have only (blocks : List Block) :
              (marks ++ (blocks.map Mark.free ++ [])).filter Mark.ofPool = marks.filter Mark.ofPool := by simp
          rw [only]
          exact made
  refine made.value.imp ?_
  rintro ⟨copy, t'⟩ marks ⟨outcome, returned⟩
  rw [dupNameInternal_value] at returned
  have duplicated := (dupNameInternal_spec managed stash ok readable).of_ok returned
  have ok' := (Env.managed_pool managed).mp duplicated.managed
  rcases outcome with ⟨rfl, rfl, empty⟩ | ⟨pool', made, size, capacity⟩
  · rw [empty]
    exact .refl power
  · exact .of_filter (made.pays power ok.used_le ok.size_le size capacity ok'.size_le)

/-- The compaction after a release copies less than half of the bytes below the watermark. -/
theorem compaction_pays {pool pool' : Pool} {used : Nat} (power : pool.Power) (sparse : used < pool.size / 2)
    (size : pool'.size = used)
    (capacity : pool'.capacity = if used < pool.capacity / 4 then pool.capacity / 2 else pool.capacity) :
    pool.Pays pool' [.poolCompact, .copied used] 0 := by
  have half : pool'.capacity = pool.capacity / 2 ∧ used < pool.capacity / 4 ∨ pool'.capacity = pool.capacity := by
    split at capacity
    next small => exact .inl ⟨capacity, small⟩
    next => exact .inr capacity
  obtain ⟨power', log⟩ := power.halves (half.imp_left And.left)
  refine ⟨?_, by simpa using log, power'⟩
  simp only [Pool.potential, total_cons, total_nil, Mark.copiedBytes]
  omega

theorem freeKey_pays {name : Name κ} (managed : env.dup = none) (stash : t.stash.Bounded)
    (ok : t.pool.Ok (name ::ₘ t.names)) (power : t.pool.Power) :
    Records (freeKey env t name) fun t' marks => t.pool.Pays t'.pool marks 0 := by
  rw [freeKey, managed]
  obtain ⟨text, stored⟩ := ok.stored name (Multiset.mem_cons_self _ _)
  cases name with
  | own => exact .throw
  | emptyString => exact .pure (.refl power)
  | pooled address =>
      have erased := ok.erase stored
      unfold freeKeyInternal
      refine .lift_bind fun _ _ => .ite (fun sparse => .lift_bind fun _ below => ?_) fun _ => .pure ?_
      · obtain ⟨nonzero, sparse⟩ := sparse
        have below := guard_eq_ok.mp below
        refine (compactPool_pays (t := { t with pool := t.pool.erase address }) managed stash erased
          (Nat.le_of_lt below)).imp ?_
        rintro t' marks ⟨work, size, capacity⟩
        refine .of_filter ?_
        rw [work]
        exact compaction_pays power sparse size capacity
      · exact ⟨by simp [Pool.potential], by simp, power⟩

theorem dupName_pays {name : Name κ} (managed : env.dup = none) (stash : t.stash.Bounded)
    (ok : t.pool.Ok t.names) (power : t.pool.Power) (readable : t.Readable name) :
    Records (dupName env t name) fun result marks => t.pool.Pays result.2.pool marks (t.key name).footprint := by
  rw [dupName, managed]
  refine (dupNameInternal_pays managed stash ok power readable).bind fun result marks pays => .pure ?_
  rw [List.append_nil]
  exact pays

theorem Placing.pays {s t' : Hashtable P κ} {marks : List Mark} (placing : Placing s t' marks)
    (power : s.pool.Power) : s.pool.Pays t'.pool marks 0 := by
  rw [placing.pool_eq]
  refine .quiet power fun mark member => ?_
  have placed := placing.marks mark member
  cases mark <;> first | rfl | cases placed

/-- A write pays for the copies with the bytes of a new key. -/
theorem write_pays {name : Name κ} {value : Value P} (managed : env.dup = none) (inv : Inv env t)
    (power : t.pool.Power) (readable : t.Readable name) :
    Records (writeValue_ env t name value) fun result marks =>
      t.pool.Pays result.2.pool marks (if result.1 then (t.key name).footprint else 0) := by
  unfold writeValue_
  refine .tell_bind ?_
  split
  next slot _ =>
    have one : t.pool.Pays t.pool [.write] 0 := .quiet power (by simp)
    refine .pure ?_
    rw [Hashtable.delValue_eq]
    simpa [Hashtable.setValue] using one
  next =>
    have drained := drain_spec inv.placed inv.stash
    generalize (if t.stash.size ≠ 0 then t.drainStash else t) = d at drained
    have pool : d.pool = t.pool := by rw [drained.frame]
    have key : d.key name = t.key name := by rw [Hashtable.key, pool]; rfl
    have held : d.Readable name := by
      cases name with
      | own | emptyString => trivial
      | pooled => rw [Hashtable.Readable, pool]; exact readable
    have ok : d.pool.Ok d.names := by
      rw [pool, names_of_live drained.live]
      exact (Env.managed_pool managed).mp inv.managed
    refine .tell_bind ((dupName_pays managed drained.stashOk.toBounded ok (pool ▸ power) held).bind ?_)
    rintro ⟨copy, s⟩ marks pays
    refine (addItem_placing _).imp ?_
    rintro ⟨added, t'⟩ marks' ⟨flag, placing⟩
    have start : t.pool.Pays t.pool ([.write] ++ [.add]) 0 := .quiet power (by simp)
    rw [pool, key] at pays
    have whole := (start.trans pays).trans (placing.pays pays.power)
    rw [if_pos flag]
    simpa [List.append_assoc] using whole

/-- A write pays for the copies when the item count grows. -/
theorem writeValue_pays {name : Name κ} {value : Value P} (managed : env.dup = none) (inv : Inv env t)
    (power : t.pool.Power) (readable : t.Readable name) :
    Records (writeValue env t name value) fun result marks =>
      t.pool.Pays result.2.pool marks (if t.used < result.2.used then (t.key name).footprint else 0) := by
  have flagged : Records (writeValue env t name value) fun result marks =>
      t.pool.Pays result.2.pool marks (if result.1 then (t.key name).footprint else 0) := by
    unfold writeValue
    refine (write_pays managed inv power readable).bind ?_
    rintro ⟨added, s⟩ marks pays
    refine .ite (fun flag => ?_) fun _ => .pure ?_
    · refine .ite (fun _ => ?_) fun _ => .pure ?_
      · refine expand_doubled.bind fun u marks' doubled => mergeStash_placing.bind fun t' marks'' merged => .pure ?_
        have quiet : s.pool.Pays u.pool marks' 0 := by
          rw [doubled.pool_eq, doubled.marks_eq]
          exact .quiet pays.power (by simp)
        rw [List.append_nil]
        exact pays.trans (quiet.trans (merged.pays quiet.power))
      · rw [List.append_nil]
        exact pays
    · rw [List.append_nil]
      exact pays
  refine flagged.value.imp ?_
  rintro ⟨added, t'⟩ marks ⟨pays, returned⟩
  rw [writeValue_value] at returned
  have outcome : WriteOutcome env t name value added t' := (writeValue_spec
    (fun _ => (Env.dupReturns_of_pool managed).grants t name) inv readable).of_ok returned
  cases outcome with
  | replaced => exact pays.mono (Nat.zero_le _)
  | added _ effect =>
      have grows : t.used < t'.used := effect.used_eq inv ▸ Nat.lt_succ_self t.used
      rw [if_pos grows]
      exact pays

theorem inc_pays {name : Name κ} {inc : Value P} (managed : env.dup = none) (inv : Inv env t)
    (power : t.pool.Power) (readable : t.Readable name) :
    Records (inc_ env t name inc) fun result marks =>
      t.pool.Pays result.2.pool marks (if t.used < result.2.used then (t.key name).footprint else 0) := by
  unfold inc_
  split
  next slot _ =>
    refine .pure (.mono ?_ (Nat.zero_le _))
    rw [Hashtable.setItem_pool]
    exact .refl power
  next =>
    refine (writeValue_pays managed inv power readable).bind ?_
    rintro ⟨added, t'⟩ marks pays
    refine .lift_bind fun _ _ => .pure ?_
    rw [List.append_nil]
    exact pays

/-- A deletion of an item clears its slot, and then releases its name. -/
theorem delItem_eq {slot : Slot} {name : Name κ} (named : (t.item slot).name = some name) :
    delItem env t slot = freeKey env { t.setItem slot (Item.null P κ) with
      calls := env.releases (t.item slot).value ++ t.calls } name := by
  let calls := env.releases (t.item slot).value ++ t.calls
  unfold delItem delName
  rw [Hashtable.delValue_eq]
  have held : ({ t.setValue slot 0 with calls } : Hashtable P κ).item slot = { t.item slot with value := 0 } := by
    cases slot <;> exact Function.update_self ..
  have cleared : ({ t.setValue slot 0 with calls } : Hashtable P κ).setItem slot (Item.null P κ) =
      { t.setItem slot (Item.null P κ) with calls } := by
    cases slot <;> simp [Hashtable.setValue, Hashtable.setItem]
  rw [held]
  dsimp only
  rw [named]
  exact congrArg (freeKey env · name) cleared

theorem delItem_pays {slot : Slot} (managed : env.dup = none) (inv : Inv env t) (power : t.pool.Power)
    (inside : t.Within slot) (named : (t.item slot).name ≠ none) :
    Records (delItem env t slot) fun t' marks => t.pool.Pays t'.pool marks 0 := by
  obtain ⟨name, named⟩ := Option.ne_none_iff_exists'.mp named
  rw [delItem_eq named]
  have pool : (t.setItem slot (Item.null P κ)).pool = t.pool := Hashtable.setItem_pool ..
  have ok : (t.setItem slot (Item.null P κ)).pool.Ok (name ::ₘ (t.setItem slot (Item.null P κ)).names) := by
    rw [pool, ← Hashtable.names_clear inside named Item.null_name]
    exact (Env.managed_pool managed).mp inv.managed
  have freed := freeKey_pays (t := { t.setItem slot (Item.null P κ) with
    calls := env.releases (t.item slot).value ++ t.calls }) managed
    (Hashtable.bounded_clear inv.stash.toBounded Item.null_name) ok (pool ▸ power)
  rw [pool] at freed
  exact freed

theorem remove_pays {name : Name κ} (managed : env.dup = none) (inv : Inv env t) (power : t.pool.Power) :
    Records (remove env t name) fun result marks => t.pool.Pays result.2.pool marks 0 := by
  have located : Records (remove_ env t name (t.calcHashes env name)) fun result marks =>
      t.pool.Pays result.2.pool marks 0 := by
    unfold remove_
    cases found : t.locate env name (t.calcHashes env name) with
    | none => exact .pure (.refl power)
    | some slot =>
        have inside := (Hashtable.locate_some inv.stash.toBounded found).1
        have named := Hashtable.locate_named found
        cases slot with
        | table pos | stash index =>
            refine (delItem_pays managed inv power inside named).bind fun t' marks pays => .pure ?_
            rw [List.append_nil]
            exact pays
  unfold remove
  refine located.bind ?_
  rintro ⟨removed, s⟩ marks pays
  refine .ite (fun _ => .lift_bind fun _ _ => .pure ?_) fun _ => .pure ?_
  · rw [List.append_nil]
    exact pays
  · rw [List.append_nil]
    exact pays

end Counted

/-- The bytes of the key that a call writes into the pool: it has added an entry when the item count is larger. -/
def written (t : Hashtable P κ) (op : Op P (Key κ)) (t' : Hashtable P κ) : Nat :=
  if t.used < t'.used then (op.name?.map Key.footprint).getD 0 else 0

/-- The bytes that a call writes pay for its copies. -/
theorem Counted.apply_pays {t : Hashtable P κ} {op : Op P (Name κ)} (managed : env.dup = none) (inv : Inv env t)
    (power : t.pool.Power) (readable : ∀ name, op.name? = some name → t.Readable name) :
    Records (apply env t op) fun result marks =>
      t.pool.Pays result.2.pool marks (written t (op.map t.key) result.2) := by
  cases op with
  | writeValue name value =>
      refine (writeValue_pays managed inv power (readable name rfl)).bind ?_
      rintro ⟨added, t'⟩ marks pays
      refine .pure ?_
      rw [List.append_nil]
      exact pays
  | remove name =>
      refine (remove_pays managed inv power).bind ?_
      rintro ⟨removed, t'⟩ marks pays
      refine .pure ?_
      rw [List.append_nil]
      exact pays.mono (Nat.zero_le _)
  | inc name | dec name =>
      refine (inc_pays managed inv power (readable name rfl)).bind ?_
      rintro ⟨value, t'⟩ marks pays
      refine .pure ?_
      rw [List.append_nil]
      exact pays
  | readValue | exists_ | fetchValueHashes | nitems | enumNext =>
      refine .lift fun result returned => ?_
      cases returned
      exact (Pool.Pays.refl power).mono (Nat.zero_le _)

/-- A table with the marks of its past, and the bytes of the keys that its calls have written. -/
structure Charged (P : Platform) (κ : Type) where
  metered : Metered P κ
  written : Nat

namespace Charged

/-- A step of a table that counts adds the bytes that its call writes. -/
inductive Step (env : Env P κ) : Charged P κ → Event P κ → Charged P κ → Prop where
  | call {state next : Metered P κ} {event : Event P κ} {bytes : Nat} (step : Metered.Step env state event next) :
      Step env ⟨state, bytes⟩ event ⟨next, bytes + Coucal.written state.table event.1 next.table⟩

abbrev Run (env : Env P κ) := Transition.Run (Step env)

/-- Each run of a table that counts adds up the bytes that its calls write. -/
theorem exists_run {state next : Metered P κ} {events : List (Event P κ)} (run : Metered.Run env state events next)
    (bytes : Nat) : ∃ bytes', Run env ⟨state, bytes⟩ events ⟨next, bytes'⟩ := by
  obtain ⟨⟨_, bytes'⟩, charged, rfl⟩ : ∃ last : Charged P κ,
      Run env ⟨state, bytes⟩ events last ∧ last.metered = next := by
    refine run.simulate (fun state (charged : Charged P κ) => charged.metered = state) ?_ rfl
    rintro _ _ _ ⟨_, bytes⟩ - rfl step
    exact ⟨_, .call step, rfl⟩
  exact ⟨bytes', charged⟩

/-- A call with a key of the caller changes a table that adds up the bytes. -/
def makes (env : Env P κ) (op : Op P (Key κ)) (state : Charged P κ) : Result (Charged P κ) := do
  let next ← state.metered.makes env (op.map .own)
  .ok ⟨next, state.written + Coucal.written state.metered.table op next.table⟩

theorem makes_step {op : Op P (Key κ)} {state next : Charged P κ} (made : makes env op state = .ok next) :
    ∃ reply, Step env state (op, reply) next := by
  obtain ⟨metered, counted, rest⟩ := bind_eq_ok.mp made
  cases rest
  obtain ⟨reply, step⟩ := Metered.makes_own counted
  exact ⟨reply, .call step⟩

end Charged

/-- Over each run, the compactions and the reallocations of the pool copy at most five times the bytes of the keys
that the run has written, and the reallocations are at most the compactions and the doublings up to the capacity. -/
theorem pool_copies_linear {initialSize : Nat} {created : Hashtable P κ} {events : List (Event P κ)}
    {state : Charged P κ} (pool : env.dup = none) (new : Hashtable.new env initialSize = some created)
    (run : Charged.Run env ⟨⟨created, []⟩, 0⟩ events state) :
    total Mark.copiedBytes state.metered.marks ≤ 5 * state.written ∧
      total Mark.reallocations state.metered.marks ≤
        Nat.log 2 state.metered.table.pool.capacity + total Mark.compactions state.metered.marks := by
  obtain ⟨inv, -, -, empty⟩ := new_spec new
  let invariant (state : Charged P κ) : Prop :=
    Inv env state.metered.table ∧ created.pool.Pays state.metered.table.pool state.metered.marks state.written
  have start : invariant ⟨⟨created, []⟩, 0⟩ := ⟨inv, .refl (.inl (by rw [empty]))⟩
  obtain ⟨-, copies, doublings, -⟩ : invariant state := by
    refine run.preserves invariant start ?_
    rintro _ event _ - ⟨inv, pays⟩ ⟨step⟩
    obtain ⟨_, -, effect⟩ := step.table.effect (Env.dupReturns_of_pool pool) inv
    refine ⟨effect.inv inv, ?_⟩
    cases step with
    | call readable returns =>
        exact pays.trans (Counted.apply_pays pool inv pays.power readable _ _ returns)
  have free : created.pool.potential = 0 := by
    rw [empty]
    rfl
  have none : Nat.log 2 created.pool.capacity = 0 := by
    rw [empty]
    exact Nat.log_zero_right 2
  rw [free] at copies
  exact ⟨by omega, by omega⟩

/-- Three keys of a hundred bytes move the pool once, the removal of two of them compacts it, and an increment of the
third one writes nothing. -/
theorem pool_copies_linear_lengths : ∃ state : Charged Platform.lp64 Empty,
    state.written = 308 ∧ total Mark.compactions state.metered.marks = 1 ∧
      total Mark.reallocations state.metered.marks = 2 ∧ total Mark.copiedBytes state.metered.marks = 359 ∧
      total Mark.copiedBytes state.metered.marks ≤ 5 * state.written ∧
      total Mark.reallocations state.metered.marks ≤
        Nat.log 2 state.metered.table.pool.capacity + total Mark.compactions state.metered.marks := by
  let key (length : Nat) : Key Empty := .string (CString.read (List.replicate length 97))
  let ops : List (Op Platform.lp64 (Key Empty)) := [.writeValue (key 100) 1, .writeValue (key 101) 2,
    .writeValue (key 102) 3, .remove (key 100), .remove (key 101), .inc (key 102), .inc (key 1)]
  have facts : ((Hashtable.new Env.lengths 0).bind fun created =>
      (drive (Charged.makes Env.lengths) ops ⟨⟨created, []⟩, 0⟩).toOption).map
        (fun state => (state.written, total Mark.compactions state.metered.marks,
          total Mark.reallocations state.metered.marks, total Mark.copiedBytes state.metered.marks)) =
            some (308, 1, 2, 359) := by
    decide +kernel
  obtain ⟨state, completed, facts⟩ := Option.map_eq_some_iff.mp facts
  obtain ⟨created, new, rest⟩ := Option.bind_eq_some_iff.mp completed
  obtain ⟨events, -, run⟩ := drive_run (Outcome.toOption_eq_some.mp rest) fun _ _ _ => Charged.makes_step
  obtain ⟨written, facts⟩ := Prod.mk.inj facts
  obtain ⟨compactions, facts⟩ := Prod.mk.inj facts
  obtain ⟨reallocations, copied⟩ := Prod.mk.inj facts
  exact ⟨state, written, compactions, reallocations, copied, pool_copies_linear rfl new run⟩

end Coucal
