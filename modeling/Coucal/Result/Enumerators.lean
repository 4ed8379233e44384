import Coucal.Proof.Cursor
import Coucal.Proof.Handlers

namespace Coucal

variable {P : Platform} {κ : Type} {env : Env P κ}

/-- A table with the indices of any number of enumerators, and the largest `lg_size` so far. -/
structure Enumerators (P : Platform) (κ : Type) where
  table : Hashtable P κ
  index : Nat → Nat
  largest : Nat

/-- `coucal_enum_new` starts each enumerator with index zero. -/
def Enumerators.start (t : Hashtable P κ) : Enumerators P κ := ⟨t, fun _ => 0, t.lgSize⟩

/-- A move is a call on the table, or `coucal_enum_next` of one enumerator with its result. -/
inductive Move (P : Platform) (κ : Type) where
  | call (event : Event P κ)
  | next (enumerator : Nat) (found : Option Slot)

/-- The enumerator returns an entry in this move. -/
def Move.returns (enumerator : Nat) : Move P κ → Bool
  | .next other (some _) => other = enumerator
  | .next _ none | .call _ => false

/-- The calls and the enumerators take turns in any order. -/
inductive Moves (env : Env P κ) : Enumerators P κ → Move P κ → Enumerators P κ → Prop where
  | call {state : Enumerators P κ} {event : Event P κ} {t : Hashtable P κ}
      (step : Step env state.table event t) :
      Moves env state (.call event) ⟨t, state.index, max state.largest t.lgSize⟩
  | next {state : Enumerators P κ} {enumerator index : Nat} {found : Option Slot}
      (moved : state.table.enumNext (state.index enumerator) = (index, found)) :
      Moves env state (.next enumerator found)
        { state with index := Function.update state.index enumerator index }

/-- What holds after each interleaving of moves. -/
structure Enumerators.Safe (env : Env P κ) (moves : List (Move P κ)) (state : Enumerators P κ) : Prop where
  live : ∀ enumerator slot, (state.table.enumNext (state.index enumerator)).2 = some slot →
    state.table.Below slot ∧ state.table.Within slot ∧ (state.table.item slot).name ≠ none
  advances : ∀ move next, Moves env state move next → ∀ enumerator,
    state.index enumerator ≤ next.index enumerator
  returned_le : ∀ enumerator, moves.countP (Move.returns enumerator) ≤ 2 ^ state.largest + stashSize

/-- Each result advances the index of its enumerator, and the index stays inside the largest bounds so
far. -/
structure Enumerators.Bounded (env : Env P κ) (moves : List (Move P κ)) (state : Enumerators P κ) : Prop where
  reachable : Reachable env state.table
  size_le : state.table.lgSize ≤ state.largest
  returned_le : ∀ enumerator, moves.countP (Move.returns enumerator) ≤ state.index enumerator
  index_le : ∀ enumerator, state.index enumerator ≤ 2 ^ state.largest + stashSize

theorem Move.countP_next (moves : List (Move P κ)) (found : Option Slot) (enumerator other : Nat) :
    (moves ++ [Move.next enumerator found]).countP (Move.returns other) =
      moves.countP (Move.returns other) + if enumerator = other then found.isSome.toNat else 0 := by
  rw [List.countP_append, List.countP_singleton]
  cases found <;> simp [Move.returns]

theorem Moves.bounded {moves : List (Move P κ)} {state next : Enumerators P κ} {move : Move P κ}
    (bounded : state.Bounded env moves) (step : Moves env state move next) :
    next.Bounded env (moves ++ [move]) := by
  cases step with
  | call step =>
      refine ⟨bounded.reachable.step step, le_max_right _ _, fun enumerator => ?_, fun enumerator => ?_⟩
      · rw [List.countP_append]
        exact bounded.returned_le enumerator
      · refine (bounded.index_le enumerator).trans (Nat.add_le_add_right ?_ _)
        exact Nat.pow_le_pow_right Nat.two_pos (le_max_left _ _)
  | @next enumerator index found moved =>
      obtain ⟨later, bound⟩ := state.table.enumNext_advances (state.index enumerator)
      rw [moved] at later bound
      refine ⟨bounded.reachable, bounded.size_le, fun other => ?_, fun other => ?_⟩
      · rw [Move.countP_next]
        dsimp only
        rcases eq_or_ne enumerator other with rfl | apart
        · rw [if_pos rfl, Function.update_self]
          exact (Nat.add_le_add_right (bounded.returned_le enumerator) _).trans later
        · rw [if_neg apart, Function.update_of_ne apart.symm]
          exact bounded.returned_le other
      · dsimp only
        rcases eq_or_ne enumerator other with rfl | apart
        · rw [Function.update_self]
          refine bound.trans (max_le (bounded.index_le enumerator) (Nat.add_le_add ?_ ?_))
          · exact Nat.pow_le_pow_right Nat.two_pos bounded.size_le
          · exact bounded.reachable.roomy.extent_le
        · rw [Function.update_of_ne apart.symm]
          exact bounded.index_le other

theorem Enumerators.Bounded.safe {moves : List (Move P κ)} {state : Enumerators P κ}
    (bounded : state.Bounded env moves) : state.Safe env moves := by
  refine ⟨fun enumerator slot found => ?_, fun move next step enumerator => ?_, fun enumerator => ?_⟩
  · obtain ⟨below, named, -⟩ := (state.table.enumNext_moves (state.index enumerator)).1 slot found
    exact ⟨below, below.within bounded.reachable.roomy.extent_le, named⟩
  · cases step with
    | call => exact Nat.le_refl _
    | @next other index found moved =>
        dsimp only
        rcases eq_or_ne enumerator other with rfl | apart
        · obtain ⟨later, -⟩ := state.table.enumNext_advances (state.index enumerator)
          rw [moved] at later
          rw [Function.update_self]
          exact (Nat.le_add_right _ _).trans later
        · rw [Function.update_of_ne apart]
  · exact (bounded.returned_le enumerator).trans (bounded.index_le enumerator)

/-- Each interleaving of calls and enumerators is safe, whatever the handlers return. -/
theorem enumerators_stay_safe {t : Hashtable P κ} {moves : List (Move P κ)} {state : Enumerators P κ}
    (reachable : Reachable env t) (run : Transition.Run (Moves env) (.start t) moves state) :
    state.Safe env moves := by
  have start : (Enumerators.start t).Bounded env [] :=
    ⟨reachable, Nat.le_refl _, fun _ => Nat.le_refl _, fun _ => Nat.zero_le _⟩
  exact (run.history (fun past state => state.Bounded env past) start
    fun _ _ _ _ bounded step => step.bounded bounded).safe

/-- An enumerator returns an entry before a write that evicts it, and a second entry after the write. -/
theorem enumerators_stay_safe_lengths :
    ∃ (t : Hashtable Platform.lp64 Empty) (event : Event Platform.lp64 Empty)
      (state : Enumerators Platform.lp64 Empty),
      Transition.Run (Moves Env.lengths) (.start t)
        [.next 0 (some (.table 0)), .call event, .next 0 (some (.table 1))] state ∧
      state.Safe Env.lengths [.next 0 (some (.table 0)), .call event, .next 0 (some (.table 1))] := by
  let op : Op Platform.lp64 (Name Empty) := .writeValue (.own (.string (CString.read [99]))) 3
  have answers : (Hashtable.session Env.lengths 0 [.writeValue (.string (CString.read [97])) 1,
      .writeValue (.string (CString.read [98])) 2]).bind (fun result =>
        (result.2.apply Env.lengths op).toOption.map fun added =>
          (result.2.enumNext 0, added.2.enumNext 1)) =
      some ((1, some (.table 0)), 2, some (.table 1)) := by
    decide +kernel
  obtain ⟨⟨_, t⟩, completed, answers⟩ := Option.bind_eq_some_iff.mp answers
  obtain ⟨⟨reply, t'⟩, added, found⟩ := Option.map_eq_some_iff.mp answers
  obtain ⟨first, second⟩ := Prod.mk.inj found
  obtain ⟨created, new, run⟩ := Hashtable.session_run completed
  have readable : ∀ name, op.name? = some name → t.Readable name := by
    rintro _ ⟨⟩
    trivial
  have step := Step.call readable (Outcome.toOption_eq_some.mp added)
  have moves : Transition.Run (Moves Env.lengths) (.start t)
      [.next 0 (some (.table 0)), .call (op.map t.key, reply), .next 0 (some (.table 1))] _ :=
    .cons (.next first) (.cons (.call step) (.cons (.next second) (.nil _)))
  exact ⟨t, _, _, moves, enumerators_stay_safe ⟨0, created, _, new, run⟩ moves⟩

end Coucal
