import Coucal.Proof.Calls

namespace Coucal

variable {P : Platform} {κ : Type} {env : Env P κ}

/-- The bytes of the live nonempty keys, with their terminators. -/
def Hashtable.liveBytes (t : Hashtable P κ) : Nat := (t.entries.map fun entry => entry.key.footprint).sum

/-- A write or a removal. The state has the table and the largest number of live bytes so far. -/
inductive PeakStep (env : Env P κ) : Hashtable P κ × Nat → Op P (Name κ) → Hashtable P κ × Nat → Prop where
  | write {t t' : Hashtable P κ} {name : Name κ} {value : Value P} {added : Bool} (peak : Nat)
      (readable : t.Readable name) (returns : t.writeValue env name value = .ok (added, t')) :
      PeakStep env (t, peak) (.writeValue name value) (t', max peak t'.liveBytes)
  | remove {t t' : Hashtable P κ} {name : Name κ} {removed : Bool} (peak : Nat)
      (returns : t.remove env name = .ok (removed, t')) :
      PeakStep env (t, peak) (.remove name) (t', max peak t'.liveBytes)

/-- The largest capacity that is in proportion to the live bytes. -/
def proportion (peak : Nat) : Nat := max minPoolCapacity (4 * peak)

/-- A write is modest unless it makes the pool grow, for a new key that does not fit above the watermark.
Then the bytes below the watermark and the key fit in a capacity that is in proportion to the live bytes
with the key. The bytes below the watermark include those of removed keys. -/
def Modest (env : Env P κ) (t : Hashtable P κ) (peak : Nat) : Op P (Name κ) → Prop
  | .writeValue name _ => ∀ text, t.key name = .string text → text.chars ≠ [] →
      t.locate env name (t.calcHashes env name) = none →
      t.pool.capacity - t.pool.size < text.strlen + 1 →
      ∃ doublings, t.pool.size + (text.strlen + 1) ≤ minPoolCapacity * 2 ^ doublings ∧
        minPoolCapacity * 2 ^ doublings ≤ proportion (max peak (t.liveBytes + (text.strlen + 1)))
  | _ => True

/-- A modest step. -/
def ModestStep (env : Env P κ) (state : Hashtable P κ × Nat) (op : Op P (Name κ)) (next : Hashtable P κ × Nat) :
    Prop :=
  PeakStep env state op next ∧ Modest env state.1 state.2 op

/-- The first capacity for a need is the least one. -/
theorem FirstCapacity.le_iff {needed capacity bound : Nat} (first : FirstCapacity needed capacity) :
    capacity ≤ bound ↔
      ∃ doublings, needed ≤ minPoolCapacity * 2 ^ doublings ∧ minPoolCapacity * 2 ^ doublings ≤ bound := by
  obtain ⟨enough, doublings, rfl, least⟩ := first
  constructor
  · intro below
    exact ⟨doublings, enough, below⟩
  · rintro ⟨other, enough', below⟩
    refine Nat.le_trans (Nat.mul_le_mul_left _ (Nat.pow_le_pow_right (by decide) ?_)) below
    rcases least with rfl | less
    · exact Nat.zero_le other
    · have powers : 2 ^ (doublings - 1) < 2 ^ other :=
        Nat.lt_of_mul_lt_mul_left (less.trans_le enough')
      have exponents := (Nat.pow_lt_pow_iff_right (by decide : 1 < 2)).mp powers
      omega

theorem proportion_mono {peak peak' : Nat} (larger : peak ≤ peak') : proportion peak ≤ proportion peak' :=
  max_le_max_left _ (Nat.mul_le_mul_left 4 larger)

/-- A new key in the pool adds its bytes to the live ones. -/
theorem Inserted.liveBytes {t t' : Hashtable P κ} {name : Name κ} {value : Value P}
    (effect : Inserted env t name value t') (pool : env.dup = none) :
    ∃ text, t.key name = .string text ∧ t'.liveBytes = t.liveBytes + text.footprint := by
  obtain ⟨copy, copies, entries, -⟩ := effect.copied
  unfold Env.Copies at copies
  rw [pool] at copies
  obtain ⟨rfl, text, key⟩ := copies
  refine ⟨text, key, ?_⟩
  unfold Hashtable.liveBytes
  rw [entries, Multiset.map_cons, Multiset.sum_cons, key, Nat.add_comm]
  rfl

/-- A step from a state in proportion leads to such a state exactly when it is modest. -/
theorem PeakStep.bounded_iff {t t' : Hashtable P κ} {peak peak' : Nat} {op : Op P (Name κ)} (pool : env.dup = none)
    (inv : Inv env t) (bounded : t.pool.capacity ≤ proportion peak)
    (step : PeakStep env (t, peak) op (t', peak')) :
    t'.pool.capacity ≤ proportion peak' ↔ Modest env t peak op := by
  have stays {bytes : Nat} (same : t'.pool.capacity ≤ t.pool.capacity) :
      t'.pool.capacity ≤ proportion (max peak bytes) :=
    same.trans (bounded.trans (proportion_mono (Nat.le_max_left _ _)))
  cases step with
  | @write _ _ name value added _ readable returns =>
      have outcome := writeValue_outcome (Env.dupReturns_of_pool pool) inv readable returns
      cases outcome with
      | @replaced slot _ found stored =>
          refine iff_of_true (stays (Nat.le_of_eq ?_)) fun text _ _ missing => ?_
          · exact congrArg Pool.capacity (Hashtable.setItem_pool ..)
          · cases found.symm.trans missing
      | added missing effect =>
          obtain ⟨text, key, bytes⟩ := effect.liveBytes pool
          have room := effect.capacity pool text key
          unfold Room at room
          split at room
          next fits =>
            refine iff_of_true (stays (Nat.le_of_eq room)) fun other key' nonempty _ short => ?_
            cases key.symm.trans key'
            exact absurd (fits.resolve_left nonempty) (Nat.not_le.mpr short)
          next grows =>
            obtain ⟨nonempty, short⟩ := not_or.mp grows
            rw [CString.footprint_of_nonempty nonempty] at bytes
            rw [room.le_iff, bytes]
            constructor
            · intro fits other key' _ _ _
              cases key.symm.trans key'
              exact fits
            · intro modest
              exact modest text key nonempty missing (Nat.lt_of_not_le short)
  | @remove _ _ name removed _ returns =>
      refine iff_of_true (stays ?_) trivial
      have outcome := (remove_spec inv).of_ok returns
      cases outcome with
      | absent => exact Nat.le_refl _
      | removed _ _ effect => exact effect.capacity_le

theorem PeakStep.inv {state next : Hashtable P κ × Nat} {op : Op P (Name κ)} (pool : env.dup = none)
    (inv : Inv env state.1) (step : PeakStep env state op next) : Inv env next.1 := by
  cases step with
  | write _ readable returns =>
      exact (writeValue_outcome (Env.dupReturns_of_pool pool) inv readable returns).inv inv
  | remove _ returns => exact ((remove_spec inv).of_ok returns).inv inv

/-- The live bytes are the used bytes of the pool. -/
theorem Inv.liveBytes_eq {t : Hashtable P κ} (inv : Inv env t) (pool : env.dup = none) :
    t.liveBytes = t.pool.used := by
  rw [((Env.managed_pool pool).mp inv.managed).used_eq, t.footprint_names]
  rfl

/-- Writes and removals of keys of the caller, with the largest number of used bytes. -/
def replayPeak (env : Env P κ) (t : Hashtable P κ) (peak : Nat) :
    List (Key κ × Option (Value P)) → Result (Hashtable P κ × Nat)
  | [] => .ok (t, peak)
  | (key, some value) :: rest => do
      let (_, t) ← t.writeValue env (.own key) value
      replayPeak env t (max peak t.pool.used) rest
  | (key, none) :: rest => do
      let (_, t) ← t.remove env (.own key)
      replayPeak env t (max peak t.pool.used) rest

/-- The call of each element of the list. -/
def peakOp : Key κ × Option (Value P) → Op P (Name κ)
  | (key, some value) => .writeValue (.own key) value
  | (key, none) => .remove (.own key)

theorem replayPeak_run {calls : List (Key κ × Option (Value P))} {t t' : Hashtable P κ} {peak peak' : Nat}
    (pool : env.dup = none) (inv : Inv env t) (replayed : replayPeak env t peak calls = .ok (t', peak')) :
    Transition.Run (PeakStep env) (t, peak) (calls.map peakOp) (t', peak') := by
  induction calls generalizing t peak with
  | nil =>
      cases replayed
      exact .nil _
  | cons call calls ih =>
      obtain ⟨key, value⟩ := call
      have readable : t.Readable (.own key) := trivial
      cases value with
      | some value =>
          obtain ⟨⟨added, next⟩, returns, rest⟩ := Outcome.bind_eq_ok.mp replayed
          have step := PeakStep.write peak readable returns
          have after := step.inv pool inv
          dsimp only at rest
          rw [← after.liveBytes_eq pool] at rest
          exact .cons step (ih after rest)
      | none =>
          obtain ⟨⟨removed, next⟩, returns, rest⟩ := Outcome.bind_eq_ok.mp replayed
          have step := PeakStep.remove peak returns
          have after := step.inv pool inv
          dsimp only at rest
          rw [← after.liveBytes_eq pool] at rest
          exact .cons step (ih after rest)

/-- The capacity is in proportion after each of the calls. -/
def replayBounded (env : Env P κ) (t : Hashtable P κ) (peak : Nat) : List (Key κ × Option (Value P)) → Bool
  | [] => true
  | call :: calls =>
      match replayPeak env t peak [call] with
      | .error _ => false
      | .ok (t, peak) => decide (t.pool.capacity ≤ proportion peak) && replayBounded env t peak calls

theorem replayPeak_cons (t : Hashtable P κ) (peak : Nat) (call : Key κ × Option (Value P))
    (calls : List (Key κ × Option (Value P))) :
    replayPeak env t peak (call :: calls) =
      replayPeak env t peak [call] >>= fun state => replayPeak env state.1 state.2 calls := by
  obtain ⟨key, value⟩ := call
  cases value with
  | some value => cases returned : t.writeValue env (.own key) value <;> simp [replayPeak, returned]
  | none => cases returned : t.remove env (.own key) <;> simp [replayPeak, returned]

/-- Calls that keep the capacity in proportion are modest. -/
theorem replayBounded_run {calls : List (Key κ × Option (Value P))} {t : Hashtable P κ} {peak : Nat}
    (pool : env.dup = none) (inv : Inv env t) (start : t.pool.capacity ≤ proportion peak)
    (bounded : replayBounded env t peak calls = true) :
    ∃ t' peak', replayPeak env t peak calls = .ok (t', peak') ∧
      Transition.Run (ModestStep env) (t, peak) (calls.map peakOp) (t', peak') := by
  induction calls generalizing t peak with
  | nil => exact ⟨t, peak, rfl, .nil _⟩
  | cons call calls ih =>
      unfold replayBounded at bounded
      split at bounded
      next => cases bounded
      next s peak' one =>
        obtain ⟨fits, rest⟩ := Bool.and_eq_true_iff.mp bounded
        have fits := of_decide_eq_true fits
        cases replayPeak_run pool inv one with
        | cons step last =>
            cases last
            obtain ⟨final, highest, replayed, run⟩ := ih (step.inv pool inv) fits rest
            refine ⟨final, highest, ?_, .cons ⟨step, (step.bounded_iff pool inv start).mp fits⟩ run⟩
            rw [replayPeak_cons, one]
            exact replayed

/-- The pool of a new table has no capacity. -/
theorem new_bounded {initialSize : Nat} {created : Hashtable P κ} (new : Hashtable.new env initialSize = some created) :
    Inv env created ∧ created.pool.capacity ≤ proportion 0 := by
  obtain ⟨inv, -, -, empty⟩ := new_spec new
  refine ⟨inv, ?_⟩
  rw [empty]
  exact Nat.zero_le _

/-- A run of modest steps leads to a capacity that is in proportion to the live bytes, and the next step
keeps it so exactly when it is modest. -/
theorem capacity_bounded_iff {initialSize : Nat} {created t : Hashtable P κ} {peak : Nat}
    {ops : List (Op P (Name κ))} (pool : env.dup = none) (new : Hashtable.new env initialSize = some created)
    (run : Transition.Run (ModestStep env) (created, 0) ops (t, peak)) :
    t.pool.capacity ≤ proportion peak ∧
      ∀ op t' peak', PeakStep env (t, peak) op (t', peak') →
        (t'.pool.capacity ≤ proportion peak' ↔ Modest env t peak op) := by
  obtain ⟨final, bounded⟩ := run.preserves
    (fun state => Inv env state.1 ∧ state.1.pool.capacity ≤ proportion state.2) (new_bounded new)
    fun state op next _ before step =>
      ⟨step.1.inv pool before.1, (step.1.bounded_iff pool before.1 before.2).mpr step.2⟩
  exact ⟨bounded, fun op t' peak' step => step.bounded_iff pool final bounded⟩

/-- Three strings of a hundred characters make the pool grow beyond its least capacity, the removal of two of them
compacts it to half of that, and all these calls are modest. -/
theorem capacity_bounded_iff_lengths :
    ∃ (created t : Hashtable Platform.lp64 Empty) (ops : List (Op Platform.lp64 (Name Empty))),
      Hashtable.new Env.lengths 0 = some created ∧ ops.length = 6 ∧
        Transition.Run (ModestStep Env.lengths) (created, 0) ops (t, 306) ∧ t.pool.size = 105 ∧
        t.pool.capacity ≤ proportion 306 ∧
        ∀ op t' peak', PeakStep Env.lengths (t, 306) op (t', peak') →
          (t'.pool.capacity ≤ proportion peak' ↔ Modest Env.lengths t 306 op) := by
  let key (length : Nat) : Key Empty := .string (CString.read (List.replicate length 97))
  let calls : List (Key Empty × Option (Value Platform.lp64)) := [(key 100, some 1), (key 101, some 2),
    (key 102, some 3), (key 100, none), (key 101, none), (key 1, some 4)]
  have facts : ((Hashtable.new Env.lengths 0).bind fun created => (replayPeak Env.lengths created 0 calls).toOption.map
      fun result => (replayBounded Env.lengths created 0 calls, result.1.pool.size, result.2)) =
        some (true, 105, 306) := by
    decide +kernel
  obtain ⟨created, new, facts⟩ := Option.bind_eq_some_iff.mp facts
  obtain ⟨⟨t, peak⟩, replayed, facts⟩ := Option.map_eq_some_iff.mp facts
  obtain ⟨bounded, facts⟩ := Prod.mk.inj facts
  obtain ⟨size, rfl⟩ := Prod.mk.inj facts
  obtain ⟨inv, start⟩ := new_bounded new
  obtain ⟨final, highest, same, run⟩ := replayBounded_run rfl inv start bounded
  cases (Outcome.toOption_eq_some.mp replayed).symm.trans same
  exact ⟨created, t, calls.map peakOp, new, rfl, run, size, capacity_bounded_iff rfl new run⟩

/-- A string of a hundred characters, written and removed over and over, makes the pool grow out of
proportion with the third write. -/
theorem capacity_out_of_proportion :
    ∃ (created t : Hashtable Platform.lp64 Empty) (key : Key Empty),
      Hashtable.new Env.lengths 0 = some created ∧
      Transition.Run (PeakStep Env.lengths) (created, 0)
        [.writeValue (.own key) 1, .remove (.own key), .writeValue (.own key) 1, .remove (.own key),
          .writeValue (.own key) 1] (t, 101) ∧ ¬ t.pool.capacity ≤ max 256 (4 * 101) := by
  let key : Key Empty := .string (CString.read (List.replicate 100 97))
  have answers : ((Hashtable.new Env.lengths 0).bind fun created => (replayPeak Env.lengths created 0
      [(key, some 1), (key, none), (key, some 1), (key, none), (key, some 1)]).toOption.map
        fun result => (result.1.pool.capacity, result.2)) = some (512, 101) := by
    decide +kernel
  obtain ⟨created, new, answers⟩ := Option.bind_eq_some_iff.mp answers
  obtain ⟨⟨t, peak⟩, replayed, facts⟩ := Option.map_eq_some_iff.mp answers
  obtain ⟨capacity, rfl⟩ := Prod.mk.inj facts
  dsimp only at capacity
  refine ⟨created, t, key, new, ?_, by rw [capacity]; decide⟩
  cases run : replayPeak Env.lengths created 0
    [(key, some 1), (key, none), (key, some 1), (key, none), (key, some 1)] with
  | error =>
      rw [run] at replayed
      cases replayed
  | ok result =>
      rw [run] at replayed
      cases replayed
      exact replayPeak_run rfl (new_spec new).1 run

end Coucal
