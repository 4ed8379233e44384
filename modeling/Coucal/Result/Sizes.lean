import Mathlib.Order.Bounds.Defs
import Coucal.Result.Blocks

namespace Coucal

open Outcome Recorded

variable {P : Platform} {κ : Type} {env : Env P κ}

/-- The sizes that hold a number of items. -/
def sizesFor (initialSize : Nat) : Set Nat := {lgSize | minLgSize ≤ lgSize ∧ initialSize ≤ 2 ^ lgSize}

theorem isAcceptablePow2_iff {lgSize : Nat} :
    isAcceptablePow2 P lgSize = true ↔ lgSize ≤ P.hashSize ∧ lgSize < P.wordSize := by
  simp [isAcceptablePow2]

/-- The search passes over the sizes that are acceptable and too small, and no others. -/
theorem searchPow2_stops {initialSize rounds size : Nat} (enough : P.hashSize < size + rounds) :
    ¬ (isAcceptablePow2 P (searchPow2 P initialSize rounds size) = true ∧
        2 ^ searchPow2 P initialSize rounds size < initialSize) ∧
      ∀ passed, size ≤ passed → passed < searchPow2 P initialSize rounds size → 2 ^ passed < initialSize := by
  induction rounds generalizing size with
  | zero =>
      simp only [searchPow2]
      refine ⟨fun stopped => ?_, fun passed above below => absurd below (Nat.not_lt_of_le above)⟩
      have acceptable := (isAcceptablePow2_iff.mp stopped.1).1
      omega
  | succ rounds ih =>
      rw [searchPow2]
      by_cases small : isAcceptablePow2 P size = true ∧ 2 ^ size < initialSize
      · rw [if_pos small]
        have next : P.hashSize < size + 1 + rounds := by omega
        obtain ⟨stops, passes⟩ := ih next
        refine ⟨stops, fun passed above below => ?_⟩
        rcases Nat.eq_or_lt_of_le above with rfl | above
        · exact small.2
        · exact passes passed above below
      · rw [if_neg small]
        exact ⟨small, fun passed above below => absurd below (Nat.not_lt_of_le above)⟩

/-- The size of a new table is the least one for its items, unless no acceptable size holds them. -/
theorem getPow2_least (initialSize : Nat) :
    (isAcceptablePow2 P (getPow2 P initialSize) = true ↔
        ∃ lgSize ∈ sizesFor initialSize, isAcceptablePow2 P lgSize = true) ∧
      (isAcceptablePow2 P (getPow2 P initialSize) = true → IsLeast (sizesFor initialSize) (getPow2 P initialSize)) := by
  obtain ⟨stops, passes⟩ : ¬ (isAcceptablePow2 P (getPow2 P initialSize) = true ∧
        2 ^ getPow2 P initialSize < initialSize) ∧
      ∀ passed, minLgSize ≤ passed → passed < getPow2 P initialSize → 2 ^ passed < initialSize :=
    searchPow2_stops (by omega)
  have lower : minLgSize ≤ getPow2 P initialSize := searchPow2_ge _ _ _
  have above : getPow2 P initialSize ∈ lowerBounds (sizesFor initialSize) := by
    intro lgSize inside
    by_contra below
    have small := passes lgSize inside.1 (Nat.lt_of_not_le below)
    exact absurd inside.2 (Nat.not_le_of_lt small)
  have holds (acceptable : isAcceptablePow2 P (getPow2 P initialSize) = true) :
      getPow2 P initialSize ∈ sizesFor initialSize := by
    refine ⟨lower, ?_⟩
    by_contra small
    exact stops ⟨acceptable, Nat.lt_of_not_le small⟩
  refine ⟨⟨fun acceptable => ⟨_, holds acceptable, acceptable⟩, ?_⟩, fun acceptable => ⟨holds acceptable, above⟩⟩
  rintro ⟨lgSize, inside, acceptable⟩
  have least : getPow2 P initialSize ≤ lgSize := above inside
  rw [isAcceptablePow2_iff] at acceptable ⊢
  omega

/-- A creation fails when no acceptable size holds the items, or when one of the two blocks is missing. -/
theorem new_eq_some {initialSize : Nat} :
    (∃ created, Hashtable.new env initialSize = some created) ↔
      isAcceptablePow2 P (getPow2 P initialSize) = true ∧ env.alloc 0 ≠ 0 ∧ env.alloc 1 ≠ 0 := by
  unfold Hashtable.new
  dsimp only
  by_cases acceptable : isAcceptablePow2 P (getPow2 P initialSize) = true
  · rw [if_neg (not_not.mpr acceptable)]
    by_cases allocated : env.alloc 0 ≠ 0 ∧ env.alloc 1 ≠ 0
    · rw [if_pos allocated]
      exact ⟨fun _ => ⟨acceptable, allocated⟩, fun _ => ⟨_, rfl⟩⟩
    · rw [if_neg allocated]
      simp [allocated]
  · rw [if_pos acceptable]
    simp [acceptable]

/-- A run of a table has traded its blocks. -/
theorem Run.trades {t t' : Hashtable P κ} {events : List (Event P κ)} (run : Run env t events t') :
    ∃ marks, Trades t t' marks := by
  obtain ⟨marks, metered⟩ := (run_iff_metered []).mp run
  refine ⟨marks, metered.preserves (fun state => Trades t state.table state.marks) (.refl t) ?_⟩
  intro state event next _ before step
  cases step with
  | call readable returns => exact before.trans (Counted.apply_trades _ _ _ returns)

/-- A table can be created exactly when an acceptable size holds the items and both blocks are allocated, and it has
the least such size. Over each run the size is acceptable. Between any two states of a run it does not fall, and when
it rises the size in bytes of the block of items does not wrap. -/
theorem slots_fit (initialSize : Nat) :
    ((∃ created, Hashtable.new env initialSize = some created) ↔
        (∃ lgSize ∈ sizesFor initialSize, isAcceptablePow2 P lgSize = true) ∧ env.alloc 0 ≠ 0 ∧ env.alloc 1 ≠ 0) ∧
      ∀ created past s events t, Hashtable.new env initialSize = some created → Run env created past s →
        Run env s events t →
        IsLeast (sizesFor initialSize) created.lgSize ∧ isAcceptablePow2 P t.lgSize = true ∧ s.lgSize ≤ t.lgSize ∧
          (s.lgSize < t.lgSize → 2 ^ t.lgSize * P.itemSize < 2 ^ P.wordSize) := by
  obtain ⟨reachable, least⟩ := getPow2_least (P := P) initialSize
  refine ⟨new_eq_some.trans (and_congr_left fun _ => reachable), fun created past s events t new run rest => ?_⟩
  obtain ⟨acceptable, -⟩ := new_eq_some.mp ⟨created, new⟩
  have initial := (new_counters new).1
  obtain ⟨_, whole⟩ := Run.trades (run.append rest)
  obtain ⟨_, trades⟩ := Run.trades rest
  refine ⟨initial ▸ least acceptable, ?_, ?_⟩
  · rcases whole.grown with same | ⟨-, allocatable⟩
    · rw [same, initial]
      exact acceptable
    · exact allocatable.acceptable
  · rcases trades.grown with same | ⟨larger, allocatable⟩
    · exact ⟨Nat.le_of_eq same.symm, fun larger => absurd larger (same ▸ Nat.lt_irrefl _)⟩
    · exact ⟨Nat.le_of_lt larger, fun _ => allocatable.fits⟩

/-- A table for twenty items has 32 slots, the sixteenth of 20 keys doubles it, and the removal of all keys leaves it
as it is. -/
theorem slots_fit_lengths : ∃ created t : Hashtable Platform.lp64 Empty,
    IsLeast (sizesFor 20) created.lgSize ∧ t.used = 0 ∧ t.lgSize = 6 ∧ created.lgSize ≤ t.lgSize ∧
      2 ^ t.lgSize * 24 < 2 ^ 64 := by
  let key (length : Nat) : Key Empty := .string (CString.read (List.replicate length 97))
  let writes : List (Op Platform.lp64 (Key Empty)) := (List.range 20).map fun length => .writeValue (key (length + 1)) 1
  let removes : List (Op Platform.lp64 (Key Empty)) := (List.range 20).map fun length => .remove (key (length + 1))
  have answers : (Hashtable.session Env.lengths 20 (writes ++ removes)).map
      (fun result => (result.2.used, result.2.lgSize)) = some (0, 6) := by
    decide +kernel
  obtain ⟨⟨_, t⟩, completed, facts⟩ := Option.map_eq_some_iff.mp answers
  obtain ⟨empty, doubled⟩ := Prod.mk.inj facts
  obtain ⟨created, new, run⟩ := Hashtable.session_run completed
  obtain ⟨least, -, keeps, fits⟩ := (slots_fit 20).2 created [] created _ t new (.nil created) run
  have five : created.lgSize = 5 := (new_counters new).1
  dsimp only at doubled
  exact ⟨created, t, least, empty, doubled, keeps, fits (by omega)⟩

end Coucal
