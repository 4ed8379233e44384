import Coucal.Proof.Addition

namespace Coucal

open Outcome

variable {P : Platform} {κ : Type}

/-- A drain moves entries from the stash to free table slots, and the entries that stay have no free
candidate slot. -/
structure Drained (t t' : Hashtable P κ) : Prop where
  frame : t' = { t with items := t'.items, stash := t'.stash }
  placed : Placed t.lgSize t'.items
  fills : Fills t.items t'.items
  live : t'.live = t.live
  stashOk : t'.stash.Ok
  blocked : ∀ i, (t'.stash.items i).name ≠ none → Blocked t.lgSize t'.items (t'.stash.items i)

/-- The drain loop has this state before an index. -/
structure Draining (t : Hashtable P κ) (index : Nat) (s : Hashtable P κ) : Prop where
  frame : s = { t with items := s.items, stash := s.stash }
  placed : Placed t.lgSize s.items
  fills : Fills t.items s.items
  live : s.live = t.live
  extent : s.stash.extent = t.stash.extent
  rest : ∀ i, index ≤ i → s.stash.items i = t.stash.items i
  size_eq : s.stash.size = (liveIn stashSize s.stash.items).card
  blocked : ∀ i < index, (s.stash.items i).name ≠ none → Blocked t.lgSize s.items (s.stash.items i)

/-- A stash entry moves to a free candidate slot. -/
theorem unstash_step {t s : Hashtable P κ} {index pos : Nat} (state : Draining t index s)
    (inside : index < stashSize) (named : (s.stash.items index).name ≠ none)
    (candidate : pos = hashToPos_ t.lgSize (s.stash.items index).hashes.hash1 ∨
      pos = hashToPos_ t.lgSize (s.stash.items index).hashes.hash2)
    (free : (s.items pos).name = none) : Draining t (index + 1) (s.unstash index pos) := by
  have lgSize_eq : s.lgSize = t.lgSize := by rw [state.frame]
  have fills : Fills s.items (s.unstash index pos).items := Fills.update s.items pos named
  have bound : pos < 2 ^ t.lgSize := by rcases candidate with rfl | rfl <;> exact hashToPos_lt _ _
  have left : liveIn stashSize s.stash.items =
      s.stash.items index ::ₘ liveIn stashSize (s.unstash index pos).stash.items :=
    liveIn_clear inside named rfl
  have filled : liveIn (2 ^ t.lgSize) (s.unstash index pos).items =
      s.stash.items index ::ₘ liveIn (2 ^ t.lgSize) s.items := liveIn_fill bound free named
  refine ⟨?_, state.placed.update fun _ => candidate, state.fills.trans fills, ?_, state.extent, ?_, ?_, ?_⟩
  · conv_lhs => rw [Hashtable.unstash, state.frame]
    rfl
  · have total := state.live
    simp only [Hashtable.live, lgSize_eq, left] at total
    change liveIn (2 ^ s.lgSize) _ + _ = _
    rw [lgSize_eq, filled, Multiset.cons_add, ← Multiset.add_cons, total]
    rfl
  · intro i above
    have apart : i ≠ index := by omega
    exact (Function.update_of_ne apart _ _).trans (state.rest i (by omega))
  · have count := congrArg Multiset.card left
    rw [Multiset.card_cons, ← state.size_eq] at count
    change s.stash.size - 1 = _
    omega
  · intro i below occupied
    by_cases same : i = index
    · subst same
      have cleared : (s.unstash i pos).stash.items i = Item.null P κ := Function.update_self ..
      exact absurd (by rw [cleared]; rfl) occupied
    · have unchanged : (s.unstash index pos).stash.items i = s.stash.items i :=
        Function.update_of_ne same _ _
      rw [unchanged] at occupied ⊢
      exact (state.blocked i (by omega) occupied).fills fills

/-- An entry that stays has no free candidate slot. -/
theorem drainEntry_step {t s : Hashtable P κ} {index : Nat} (state : Draining t index s)
    (inside : index < stashSize) : Draining t (index + 1) (s.drainEntry index) := by
  have lgSize_eq : s.lgSize = t.lgSize := by rw [state.frame]
  have stays (kept : (s.stash.items index).name ≠ none → Blocked t.lgSize s.items (s.stash.items index)) :
      Draining t (index + 1) s := by
    refine { state with
      rest := fun i above => state.rest i (Nat.le_of_succ_le above)
      blocked := ?_ }
    intro i below named
    rcases Nat.lt_succ_iff_lt_or_eq.mp below with earlier | rfl
    · exact state.blocked i earlier named
    · exact kept named
  unfold Hashtable.drainEntry
  simp only [Hashtable.isFree, Hashtable.hashToPos, Option.isNone_iff_eq_none, lgSize_eq]
  split
  next free => exact stays fun named => absurd free named
  next named =>
    split
    next free => exact unstash_step state inside named (.inl rfl) free
    next occupied1 =>
      split
      next free => exact unstash_step state inside named (.inr rfl) free
      next occupied2 => exact stays fun _ => ⟨occupied1, occupied2⟩

theorem drainEntries_spec {t : Hashtable P κ} (placed : Placed t.lgSize t.items) (ok : t.stash.Ok)
    (index : Nat) (within : index ≤ t.stash.extent) : Draining t index (t.drainEntries index) := by
  induction index with
  | zero =>
      exact ⟨rfl, placed, Fills.refl _, rfl, rfl, fun _ _ => rfl, ok.size_eq,
        fun i below => absurd below (Nat.not_lt_zero i)⟩
  | succ index ih =>
      exact drainEntry_step (ih (Nat.le_of_succ_le within)) (Nat.lt_of_lt_of_le within ok.extent_le)

/-- The drain leaves no entry with a free candidate slot. -/
theorem drainStash_spec {t : Hashtable P κ} (placed : Placed t.lgSize t.items) (ok : t.stash.Ok) :
    Drained t t.drainStash := by
  have state := drainEntries_spec placed ok t.stash.extent (Nat.le_refl _)
  have above : ∀ i, t.stash.extent ≤ i → ((t.drainEntries t.stash.extent).stash.items i).name = none := by
    intro i outside
    rw [state.rest i outside]
    exact ok.above i outside
  refine ⟨?_, state.placed, state.fills, state.live, ?_, ?_⟩
  · conv_lhs => rw [Hashtable.drainStash, state.frame]
    rfl
  · exact Stash.Bounded.trim ⟨by rw [state.extent]; exact ok.extent_le, by rw [state.extent]; exact above⟩
      state.size_eq
  · intro i named
    have below : i < t.stash.extent := by
      by_contra outside
      exact named (above i (Nat.le_of_not_lt outside))
    exact state.blocked i below named

/-- A cell holds no item, or one at a candidate position. -/
def CandidateAt (lgSize pos : Nat) (item : Item P κ) : Prop :=
  item.name ≠ none →
    pos = hashToPos_ lgSize item.hashes.hash1 ∨ pos = hashToPos_ lgSize item.hashes.hash2

/-- The relocation loop has this state before an index: each earlier slot kept its item or moved it up
by the old size, and no later slot changed. -/
structure Splitting (t : Hashtable P κ) (index : Nat) (s : Hashtable P κ) : Prop where
  frame : s = { t with lgSize := t.lgSize + 1, allocs := t.allocs + 1, items := s.items }
  live : liveIn (2 ^ (t.lgSize + 1)) s.items = liveIn (2 ^ t.lgSize) t.items
  rest : ∀ i, index ≤ i → i < 2 ^ t.lgSize →
    s.items i = t.items i ∧ (s.items (i + 2 ^ t.lgSize)).name = none
  split : ∀ i < index,
    s.items i = t.items i ∧ (s.items (i + 2 ^ t.lgSize)).name = none ∨
      (s.items i).name = none ∧ s.items (i + 2 ^ t.lgSize) = t.items i
  placed : ∀ i < index, CandidateAt (t.lgSize + 1) i (s.items i) ∧
    CandidateAt (t.lgSize + 1) (i + 2 ^ t.lgSize) (s.items (i + 2 ^ t.lgSize))

/-- A slot that keeps its item at a candidate position advances the loop. -/
theorem Splitting.keep {t s : Hashtable P κ} {index : Nat} (state : Splitting t index s)
    (inside : index < 2 ^ t.lgSize) (candidate : CandidateAt (t.lgSize + 1) index (t.items index)) :
    Splitting t (index + 1) s := by
  obtain ⟨same, upper⟩ := state.rest index (Nat.le_refl _) inside
  refine ⟨state.frame, state.live, fun i above => state.rest i (Nat.le_of_succ_le above), ?_, ?_⟩
  · intro i below
    rcases Nat.lt_succ_iff_lt_or_eq.mp below with earlier | rfl
    · exact state.split i earlier
    · exact .inl ⟨same, upper⟩
  · intro i below
    rcases Nat.lt_succ_iff_lt_or_eq.mp below with earlier | rfl
    · exact state.placed i earlier
    · exact ⟨same ▸ candidate, fun named => absurd upper named⟩

/-- A slot whose item moves to the upper half advances the loop. -/
theorem Splitting.move {t s : Hashtable P κ} {index : Nat} (state : Splitting t index s)
    (inside : index < 2 ^ t.lgSize) (named : (t.items index).name ≠ none)
    (candidate : CandidateAt (t.lgSize + 1) (index + 2 ^ t.lgSize) (t.items index)) :
    Splitting t (index + 1) { s with
      items := Function.update (Function.update s.items (index + 2 ^ t.lgSize) (s.items index)) index
        (Item.null P κ) } := by
  obtain ⟨same, upper⟩ := state.rest index (Nat.le_refl _) inside
  have size : 2 ^ (t.lgSize + 1) = 2 ^ t.lgSize + 2 ^ t.lgSize := by rw [Nat.pow_succ]; omega
  have positive := Nat.two_pow_pos t.lgSize
  have unchanged : ∀ i < 2 ^ t.lgSize, i ≠ index →
      Function.update (Function.update s.items (index + 2 ^ t.lgSize) (s.items index)) index (Item.null P κ) i =
          s.items i ∧
        Function.update (Function.update s.items (index + 2 ^ t.lgSize) (s.items index)) index (Item.null P κ)
            (i + 2 ^ t.lgSize) = s.items (i + 2 ^ t.lgSize) :=
    fun i below apart => ⟨move_other apart (by omega), move_other (by omega) (by omega)⟩
  refine ⟨?_, ?_, ?_, ?_, ?_⟩
  · conv_lhs => rw [state.frame]
  · exact (liveIn_move (by omega) (by omega) (by omega) (same.symm ▸ named) upper).trans state.live
  · intro i above below
    obtain ⟨first, second⟩ := unchanged i below (by omega)
    obtain ⟨rest, free⟩ := state.rest i (Nat.le_of_succ_le above) below
    exact ⟨first.trans rest, by dsimp only; rw [second]; exact free⟩
  · intro i below
    rcases Nat.lt_succ_iff_lt_or_eq.mp below with earlier | rfl
    · obtain ⟨first, second⟩ := unchanged i (by omega) (by omega)
      dsimp only
      rw [first, second]
      exact state.split i earlier
    · refine .inr ⟨?_, (move_target (by omega)).trans same⟩
      dsimp only
      rw [move_source]
      rfl
  · intro i below
    rcases Nat.lt_succ_iff_lt_or_eq.mp below with earlier | rfl
    · obtain ⟨first, second⟩ := unchanged i (by omega) (by omega)
      dsimp only
      rw [first, second]
      exact state.placed i earlier
    · dsimp only
      rw [move_source, move_target (by omega), same]
      exact ⟨fun named => absurd rfl named, candidate⟩

/-- The position of the hash that placed an item decides whether the item moves up. -/
theorem moveSlot_step {t s : Hashtable P κ} {index : Nat} {hash : Hashkey P}
    (state : Splitting t index s) (inside : index < 2 ^ t.lgSize) (named : (t.items index).name ≠ none)
    (placed : hashToPos_ t.lgSize hash = index)
    (own : hash = (t.items index).hashes.hash1 ∨ hash = (t.items index).hashes.hash2) :
    Meets (Hashtable.moveSlot (2 ^ t.lgSize) index (hashToPos_ (t.lgSize + 1) hash) s)
      (Splitting t (index + 1)) fun _ => False := by
  have candidate : CandidateAt (t.lgSize + 1) (hashToPos_ (t.lgSize + 1) hash) (t.items index) := by
    rintro -
    rcases own with rfl | rfl
    · exact .inl rfl
    · exact .inr rfl
  unfold Hashtable.moveSlot
  split
  next moves =>
    rw [hashToPos_moves placed moves] at candidate ⊢
    apply Meets.guard (fun fails => (fails (Nat.le_add_left _ _)).elim)
    intro _
    exact state.move inside named candidate
  next stays =>
    have stays : hashToPos_ (t.lgSize + 1) hash = index := by simpa using stays
    rw [stays] at candidate
    exact state.keep inside candidate

/-- Each item of a placed table finds the hash that placed it. -/
theorem splitSlot_step {t s : Hashtable P κ} {index : Nat} (placed : Placed t.lgSize t.items)
    (state : Splitting t index s) (inside : index < 2 ^ t.lgSize) :
    Meets (Hashtable.splitSlot t.lgSize (2 ^ t.lgSize) index s) (Splitting t (index + 1))
      fun _ => False := by
  have lgSize_eq : s.lgSize = t.lgSize + 1 := by rw [state.frame]
  obtain ⟨same, -⟩ := state.rest index (Nat.le_refl _) inside
  unfold Hashtable.splitSlot
  simp only [Hashtable.isFree, Hashtable.hashToPos, Option.isNone_iff_eq_none, lgSize_eq, same]
  split
  next free => exact state.keep inside fun named => absurd free named
  next named =>
    split
    next first => exact moveSlot_step state inside named first (.inl rfl)
    next notFirst =>
      split
      next second => exact moveSlot_step state inside named second (.inr rfl)
      next notSecond =>
        rcases placed index inside named with first | second
        · exact absurd first.symm notFirst
        · exact absurd second.symm notSecond

/-- A doubling splits each slot in two. -/
structure Expanded (t t' : Hashtable P κ) : Prop where
  frame : t' = { t with lgSize := t.lgSize + 1, allocs := t.allocs + 1, items := t'.items }
  placed : Placed (t.lgSize + 1) t'.items
  live : liveIn (2 ^ (t.lgSize + 1)) t'.items = liveIn (2 ^ t.lgSize) t.items
  split : ∀ i < 2 ^ t.lgSize,
    t'.items i = t.items i ∧ (t'.items (i + 2 ^ t.lgSize)).name = none ∨
      (t'.items i).name = none ∧ t'.items (i + 2 ^ t.lgSize) = t.items i

/-- The table of a doubling before its items move. The upper half is clear. -/
def Hashtable.doubled (t : Hashtable P κ) : Hashtable P κ :=
  { t with
    lgSize := t.lgSize + 1
    allocs := t.allocs + 1
    items := fun i => if 2 ^ t.lgSize ≤ i ∧ i < 2 ^ t.lgSize * 2 then Item.null P κ else t.items i }

theorem splitting_start (t : Hashtable P κ) : Splitting t 0 t.doubled := by
  have double : 2 ^ (t.lgSize + 1) = 2 ^ t.lgSize * 2 := Nat.pow_succ ..
  refine ⟨rfl, ?_, ?_, fun i below => absurd below (Nat.not_lt_zero i),
    fun i below => absurd below (Nat.not_lt_zero i)⟩
  · unfold liveIn
    rw [Slots.total_extend (by omega : 2 ^ t.lgSize ≤ 2 ^ (t.lgSize + 1))]
    · apply Slots.total_congr
      intro i below
      dsimp only [Hashtable.doubled]
      rw [if_neg (by omega)]
    · intro i above below
      dsimp only [Hashtable.doubled]
      rw [if_pos (by omega)]
      rfl
  · intro i _ below
    dsimp only [Hashtable.doubled]
    rw [if_neg (by omega), if_pos (by omega)]
    exact ⟨rfl, rfl⟩

/-- The state of the relocation loop after the slots below an index. -/
theorem splitSlots_spec {t : Hashtable P κ} (placed : Placed t.lgSize t.items) {index : Nat}
    (inside : index ≤ 2 ^ t.lgSize) :
    Meets (forUpTo (Hashtable.splitSlot t.lgSize (2 ^ t.lgSize)) index t.doubled) (Splitting t index)
      fun _ => False :=
  Meets.forUpTo (Splitting t) (splitting_start t) fun _ below _ state =>
    splitSlot_step placed state (Nat.lt_of_lt_of_le below inside)

/-- The items lie at candidate positions of the doubled table. -/
theorem Splitting.expanded {t s : Hashtable P κ} (state : Splitting t (2 ^ t.lgSize) s) : Expanded t s := by
  have double : 2 ^ (t.lgSize + 1) = 2 ^ t.lgSize * 2 := Nat.pow_succ ..
  refine ⟨state.frame, ?_, state.live, state.split⟩
  intro i inside named
  by_cases below : i < 2 ^ t.lgSize
  · exact (state.placed i below).1 named
  · obtain ⟨lower, rfl⟩ := Nat.exists_eq_add_of_le' (Nat.le_of_not_lt below)
    exact (state.placed lower (by omega)).2 named

/-- The errors of a doubling: a size limit, or no memory. -/
inductive ExpandError (env : Env P κ) (t : Hashtable P κ) : Failure → Prop where
  | acceptablePow2 (limit : ¬ isAcceptablePow2 P (t.lgSize + 1)) : ExpandError env t (.assertion .acceptablePow2)
  | sizeOverflow (limit : (2 ^ P.wordSize - 1) / (2 * P.itemSize) < 2 ^ t.lgSize) :
      ExpandError env t (.assertion .sizeOverflow)
  | tableMemory (null : env.alloc t.allocs = 0) : ExpandError env t (.assertion .tableMemory)

/-- The doubling loses no item, and no position assertion fails. -/
theorem expand_spec {env : Env P κ} {t : Hashtable P κ} (positive : 0 < t.lgSize)
    (placed : Placed t.lgSize t.items) : Meets (t.expand env) (Expanded t) (ExpandError env t) := by
  unfold Hashtable.expand
  dsimp only
  rw [doubled_half positive]
  apply Meets.guard .acceptablePow2
  intro _
  apply Meets.guard fun fails => .sizeOverflow (Nat.lt_of_not_le fails)
  intro _
  refine ((malloc_spec env _ _).mono (fun _ => id) fun error failed => ?_).bind ?_
  · obtain ⟨rfl, null⟩ := failed
    exact .tableMemory null
  rintro ⟨address, _⟩ ⟨-, rfl⟩
  dsimp only
  exact (splitSlots_spec placed (Nat.le_refl _)).mono (fun _ => Splitting.expanded) fun _ => False.elim

end Coucal
