import Coucal.Proof.Addition

namespace Coucal

variable {P : Platform} {κ : Type}

/-- The items of the table, and of the stash below its extent. -/
def Hashtable.stored (t : Hashtable P κ) : Multiset (Item P κ) :=
  liveIn (2 ^ t.lgSize) t.items + liveIn t.stash.extent t.stash.items

/-- An insertion adds its item to the stored ones. Each item of the table is at a candidate slot, each
entry of the stash stays at its place, and at most one entry joins it. -/
structure Conserved (t : Hashtable P κ) (item : Item P κ) (t' : Hashtable P κ) : Prop where
  lgSize_eq : t'.lgSize = t.lgSize
  stored_eq : t'.stored = item ::ₘ t.stored
  placed : Placed t'.lgSize t'.items
  stashed : ∀ i < t.stash.extent, (t.stash.items i).name ≠ none →
    i < t'.stash.extent ∧ t'.stash.items i = t.stash.items i
  fills : ∀ pos, (t.items pos).name ≠ none → (t'.items pos).name ≠ none
  size_le : t.stash.size ≤ t'.stash.size ∧ t'.stash.size ≤ t.stash.size + 1
  counted : t'.stash.Counted

theorem Exchanged.conserved {t : Hashtable P κ} {item : Item P κ}
    {exchange : (Nat → Item P κ) × Option (Item P κ)} (counted : t.stash.Counted)
    (exchanged : Exchanged t item exchange) : Conserved t item (t.exchange exchange) := by
  obtain ⟨items, left⟩ := exchange
  have live := exchanged.live
  cases left with
  | none =>
      refine ⟨rfl, ?_, exchanged.placed, fun i below _ => ⟨below, rfl⟩, exchanged.fills,
        ⟨Nat.le_refl _, Nat.le_succ _⟩, counted⟩
      simp only [Option.elim_none, zero_add] at live
      simp only [Hashtable.exchange, Hashtable.stored, Option.elim_none, live, Multiset.cons_add]
  | some left =>
      have room := exchanged.room left rfl
      have named := exchanged.named left rfl
      refine ⟨rfl, ?_, exchanged.placed, ?_, exchanged.fills, ⟨Nat.le_succ _, Nat.le_refl _⟩,
        counted.insert room named⟩
      · simp only [Option.elim_some, Multiset.singleton_add] at live
        simp only [Hashtable.exchange, Hashtable.stored, Option.elim_some, t.stash.liveIn_insert named,
          Multiset.add_cons]
        rw [← Multiset.cons_add, live, Multiset.cons_add]
      · intro i below occupied
        refine ⟨?_, t.stash.insert_of_named left below occupied⟩
        change i < if _ then _ else _
        split
        next => exact Nat.lt_succ_of_lt below
        next => exact below

/-- An insertion into a placed table of any load conserves the items. -/
theorem addItem_conserves {t t' : Hashtable P κ} {item : Item P κ} {added : Bool}
    (placed : Placed t.lgSize t.items) (counted : t.stash.Counted) (named : item.name ≠ none)
    (returned : t.addItem_ item = .ok (added, t')) : Conserved t item t' := by
  obtain ⟨exchange, exchanged, same⟩ := (addItem_exchanges placed named).of_ok returned
  cases same
  exact exchanged.conserved counted

/-- In a full table of one slot the new item sends one item to the stash. -/
theorem addItem_conserves_full :
    ∃ (t t' : Hashtable Platform.lp64 Empty) (item : Item Platform.lp64 Empty),
      t.addItem_ item = .ok (true, t') ∧ t'.stash.size = 1 ∧ Conserved t item t' := by
  let item : Item Platform.lp64 Empty := ⟨some .emptyString, 0, ⟨1, 2⟩⟩
  let t : Hashtable Platform.lp64 Empty :=
    { lgSize := 0, items := fun _ => item, used := 1,
      stash := { items := fun _ => Item.null _ _, size := 0, extent := 0 },
      pool := { buffer := 0, bytes := [], size := 0, capacity := 0, used := 0 }, calls := [], allocs := 0 }
  have placed : Placed t.lgSize t.items := by
    intro i inside _
    have first : i = 0 := Nat.lt_one_iff.mp inside
    exact .inl (first.trans (Nat.lt_one_iff.mp (hashToPos_lt 0 _)).symm)
  have counted : t.stash.Counted := ⟨Nat.zero_le _, rfl⟩
  have answers : (t.addItem_ item).toOption.map (fun result => (result.1, result.2.stash.size)) =
      some (true, 1) := by
    decide +kernel
  cases run : t.addItem_ item with
  | error =>
      rw [run] at answers
      cases answers
  | ok result =>
      obtain ⟨added, t'⟩ := result
      rw [run] at answers
      obtain ⟨rfl, size⟩ := Prod.mk.inj (Option.some_inj.mp answers)
      exact ⟨t, t', item, run, size, addItem_conserves placed counted (Option.some_ne_none _) run⟩

end Coucal
