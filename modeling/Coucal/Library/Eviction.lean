import Mathlib.Data.Finset.Card
import Mathlib.Logic.Function.Basic
import Mathlib.Logic.Relation
import Mathlib.Tactic.Common

namespace Eviction

/-- Each item has two candidate slots. -/
structure Candidates (S A : Type) where
  first : A → S
  second : A → S

variable {S A : Type} [DecidableEq S]

/-- The slot is a candidate of the item. -/
def Candidates.At (c : Candidates S A) (item : A) (slot : S) : Prop :=
  slot = c.first item ∨ slot = c.second item

/-- An item that leaves a candidate slot goes to its other candidate. -/
def Candidates.other (c : Candidates S A) (item : A) (slot : S) : S :=
  if slot = c.first item then c.second item else c.first item

/-- Leaving twice returns to the first slot. -/
theorem Candidates.other_other (c : Candidates S A) {item : A} {slot : S} (at_ : c.At item slot) :
    c.other item (c.other item slot) = slot := by
  unfold other
  rcases at_ with rfl | rfl <;> split_ifs <;> simp_all

/-- A walk carries one item that aims at a slot. -/
structure Walk (S A : Type) where
  table : S → Option A
  item : A
  aim : S

/-- One walk reaches another after a number of evictions, each of an allowed item from its slot. -/
inductive Evicts (c : Candidates S A) (allowed : A → S → Prop) : Nat → Walk S A → Walk S A → Prop where
  | refl (walk : Walk S A) : Evicts c allowed 0 walk walk
  | step {table : S → Option A} {item kicked : A} {aim : S} {count : Nat} {final : Walk S A}
      (occupied : table aim = some kicked) (allows : allowed kicked aim)
      (rest : Evicts c allowed count
        ⟨Function.update table aim (some item), kicked, c.other kicked aim⟩ final) :
      Evicts c allowed (count + 1) ⟨table, item, aim⟩ final

theorem Evicts.trans {c : Candidates S A} {allowed : A → S → Prop} {m n : Nat}
    {first middle last : Walk S A} (head : Evicts c allowed m first middle)
    (tail : Evicts c allowed n middle last) : Evicts c allowed (m + n) first last := by
  induction head with
  | refl => simpa using tail
  | step occupied allows _ ih =>
      rw [Nat.add_right_comm]
      exact .step occupied allows (ih tail)

/-- An occupied slot leads to the other candidate of its item. -/
def Next (c : Candidates S A) (table : S → Option A) (slot next : S) : Prop :=
  ∃ item, table slot = some item ∧ c.other item slot = next

/-- The slots that a chain of occupied slots leads to. -/
def Reaches (c : Candidates S A) (table : S → Option A) : S → S → Prop :=
  Relation.ReflTransGen (Next c table)

/-- The chain from a slot visits a list of occupied slots before it first meets the target. -/
inductive Path (c : Candidates S A) (table : S → Option A) (target : S) : List S → S → Prop where
  | here : Path c table target [] target
  | next {slot : S} {item : A} {visited : List S} (occupied : table slot = some item)
      (before : slot ≠ target) (rest : Path c table target visited (c.other item slot)) :
      Path c table target (slot :: visited) slot

/-- A chain visits one list of slots. -/
theorem Path.unique {c : Candidates S A} {table : S → Option A} {target slot : S}
    {visited visited' : List S} (first : Path c table target visited slot)
    (second : Path c table target visited' slot) : visited = visited' := by
  induction first generalizing visited' with
  | here =>
      cases second with
      | here => rfl
      | next _ before _ => exact absurd rfl before
  | next occupied before _ ih =>
      cases second with
      | here => exact absurd rfl before
      | next occupied' _ rest' =>
          rw [occupied] at occupied'
          cases occupied'
          rw [ih rest']

/-- Each visited slot starts the rest of the chain. -/
theorem Path.suffix {c : Candidates S A} {table : S → Option A} {target slot u : S}
    {visited : List S} (path : Path c table target visited slot) (member : u ∈ visited) :
    ∃ rest, Path c table target rest u ∧ rest.length ≤ visited.length := by
  induction path with
  | here => simp at member
  | @next slot item visited occupied before rest ih =>
      rcases List.mem_cons.mp member with rfl | member
      · exact ⟨_, .next occupied before rest, Nat.le_refl _⟩
      · obtain ⟨tail, path, short⟩ := ih member
        exact ⟨tail, path, by simp only [List.length_cons]; omega⟩

/-- A chain visits no slot twice. -/
theorem Path.nodup {c : Candidates S A} {table : S → Option A} {target slot : S}
    {visited : List S} (path : Path c table target visited slot) : visited.Nodup := by
  induction path with
  | here => exact List.nodup_nil
  | @next slot item visited occupied before rest ih =>
      refine List.nodup_cons.mpr ⟨?_, ih⟩
      intro member
      obtain ⟨tail, path, short⟩ := rest.suffix member
      have same := path.unique (.next occupied before rest)
      rw [same, List.length_cons] at short
      omega

/-- A chain visits occupied slots that its start reaches, other than the target. -/
theorem Path.facts {c : Candidates S A} {table : S → Option A} {target slot u : S}
    {visited : List S} (path : Path c table target visited slot) (member : u ∈ visited) :
    u ≠ target ∧ Reaches c table slot u ∧ (table u).isSome := by
  induction path with
  | here => simp at member
  | @next slot item visited occupied before rest ih =>
      rcases List.mem_cons.mp member with rfl | member
      · exact ⟨before, .refl, by simp [occupied]⟩
      · obtain ⟨other, reaches, some⟩ := ih member
        exact ⟨other, .head ⟨item, occupied, rfl⟩ reaches, some⟩

/-- A chain reaches its target. -/
theorem Path.reaches {c : Candidates S A} {table : S → Option A} {target slot : S}
    {visited : List S} (path : Path c table target visited slot) : Reaches c table slot target := by
  induction path with
  | here => exact .refl
  | next occupied _ _ ih => exact .head ⟨_, occupied, rfl⟩ ih

/-- A chain depends only on the slots that it visits. -/
theorem Path.congr {c : Candidates S A} {table table' : S → Option A} {target slot : S}
    {visited : List S} (path : Path c table target visited slot)
    (same : ∀ u ∈ visited, table' u = table u) : Path c table' target visited slot := by
  induction path with
  | here => exact .here
  | next occupied before _ ih =>
      have unchanged := same _ List.mem_cons_self
      exact .next (unchanged.trans occupied) before
        (ih fun u member => same u (List.mem_cons_of_mem _ member))

/-- A reachable target has a chain. -/
theorem Reaches.path {c : Candidates S A} {table : S → Option A} {slot target : S}
    (reaches : Reaches c table slot target) : ∃ visited, Path c table target visited slot := by
  induction reaches using Relation.ReflTransGen.head_induction_on with
  | refl => exact ⟨[], .here⟩
  | @head slot _ one _ ih =>
      obtain ⟨item, occupied, rfl⟩ := one
      obtain ⟨visited, path⟩ := ih
      by_cases same : slot = target
      · subst same
        exact ⟨[], .here⟩
      · exact ⟨slot :: visited, .next occupied same path⟩

/-- The walk follows a chain to its end and changes only the visited slots. -/
theorem Path.walk {c : Candidates S A} {table : S → Option A} {target slot : S} {visited : List S}
    (path : Path c table target visited slot) (allowed : A → S → Prop)
    (allows : ∀ u ∈ visited, ∀ item, table u = some item → ∀ v, allowed item v) (carried : A) :
    ∃ final, Evicts c allowed visited.length ⟨table, carried, slot⟩ final ∧ final.aim = target ∧
      ∀ u, u ∉ visited → final.table u = table u := by
  induction visited generalizing table slot carried with
  | nil =>
      cases path
      exact ⟨_, .refl _, rfl, fun _ _ => rfl⟩
  | cons head visited ih =>
      have distinct := path.nodup
      cases path with
      | next occupied before rest =>
          have fresh : head ∉ visited := (List.nodup_cons.mp distinct).1
          have unchanged : ∀ u ∈ visited, Function.update table head (some carried) u = table u := by
            intro u member
            have notHead : u ≠ head := fun same => fresh (by rw [← same]; exact member)
            exact Function.update_of_ne notHead _ _
          obtain ⟨final, walked, aimed, outside⟩ := ih (rest.congr unchanged) (by
            intro u member item stored
            rw [unchanged u member] at stored
            exact allows u (List.mem_cons_of_mem _ member) item stored) _
          refine ⟨final, .step occupied (allows head List.mem_cons_self _ occupied head) walked,
            aimed, ?_⟩
          intro u notVisited
          have ⟨notHead, notTail⟩ : u ≠ head ∧ u ∉ visited := by simpa using notVisited
          rw [outside u notTail, Function.update_of_ne notHead]

/-- A set of occupied slots is closed when each of its items has both candidates in the set. -/
def Closed (c : Candidates S A) (table : S → Option A) (region : Finset S) : Prop :=
  ∀ u ∈ region, ∃ item, table u = some item ∧ c.At item u ∧ c.other item u ∈ region

/-- A chain stays inside a closed set. -/
theorem Closed.reaches {c : Candidates S A} {table : S → Option A} {region : Finset S} {slot u : S}
    (closed : Closed c table region) (inside : slot ∈ region) (reaches : Reaches c table slot u) :
    u ∈ region := by
  induction reaches with
  | refl => exact inside
  | tail _ one ih =>
      obtain ⟨item, occupied, rfl⟩ := one
      obtain ⟨stored, occupied', -, next⟩ := closed _ ih
      rw [occupied] at occupied'
      cases occupied'
      exact next

/-- Inside a finite closed set the carried item is next in line for eviction from the slot where it
started, after at most two visits to each slot. -/
theorem Closed.returns {c : Candidates S A} {table : S → Option A} {region : Finset S}
    (closed : Closed c table region) (allowed : A → S → Prop)
    (allows : ∀ u ∈ region, ∀ item, table u = some item → ∀ v, allowed item v)
    {slot : S} (inside : slot ∈ region) (carried : A) :
    ∃ steps final, steps + 1 ≤ 2 * region.card ∧
      Evicts c allowed steps ⟨table, carried, slot⟩ final ∧ final.aim = slot ∧
      final.table slot = some carried ∧ ∀ u ∉ region, final.table u = table u := by
  classical
  induction size : region.card using Nat.strong_induction_on
    generalizing region table slot carried with
  | _ n ih =>
  obtain ⟨kicked, occupied, at_, next⟩ := closed slot inside
  let moved := Function.update table slot (some carried)
  have positive : 0 < region.card := Finset.card_pos.mpr ⟨slot, inside⟩
  by_cases cycle : Reaches c table (c.other kicked slot) slot
  · -- the chain comes back to the slot and evicts the carried item there
    obtain ⟨visited, path⟩ := cycle.path
    have unchanged : ∀ u ∈ visited, moved u = table u := fun u member =>
      Function.update_of_ne (path.facts member).1 _ _
    have within : ∀ u ∈ visited, u ∈ region := fun u member =>
      closed.reaches next (path.facts member).2.1
    obtain ⟨final, walked, aimed, outside⟩ := (path.congr unchanged).walk allowed (by
      intro u member item stored
      rw [unchanged u member] at stored
      exact allows u (within u member) item stored) kicked
    have short : visited.length ≤ region.card - 1 := by
      rw [← Finset.card_erase_of_mem inside, ← List.toFinset_card_of_nodup path.nodup]
      apply Finset.card_le_card
      intro u member
      have listed := List.mem_toFinset.mp member
      exact Finset.mem_erase.mpr ⟨(path.facts listed).1, within u listed⟩
    have notVisited : slot ∉ visited := fun member => (path.facts member).1 rfl
    refine ⟨visited.length + 1, final, by omega,
      .step occupied (allows slot inside kicked occupied slot) walked, aimed, ?_, ?_⟩
    · rw [outside slot notVisited]
      exact Function.update_self ..
    · intro u away
      have notSlot : u ≠ slot := fun same => away (by rw [same]; exact inside)
      rw [outside u fun member => away (within u member)]
      exact Function.update_of_ne notSlot _ _
  · -- the chain enters a smaller closed set, returns the evicted item, and puts it back
    let region' := region.filter fun u => Reaches c table (c.other kicked slot) u
    have notInside : slot ∉ region' := fun member => cycle (Finset.mem_filter.mp member).2
    have smaller : region'.card < region.card := by
      apply Finset.card_lt_card
      refine Finset.ssubset_iff_subset_ne.mpr ⟨Finset.filter_subset _ _, ?_⟩
      intro same
      exact notInside (by rw [same]; exact inside)
    have unchanged : ∀ u ∈ region', moved u = table u := by
      intro u member
      have notSlot : u ≠ slot := fun same => notInside (by rw [← same]; exact member)
      exact Function.update_of_ne notSlot _ _
    have closed' : Closed c moved region' := by
      intro u member
      obtain ⟨inRegion, reaches⟩ := Finset.mem_filter.mp member
      obtain ⟨item, stored, at_, next⟩ := closed u inRegion
      exact ⟨item, (unchanged u member).trans stored, at_,
        Finset.mem_filter.mpr ⟨next, reaches.tail ⟨item, stored, rfl⟩⟩⟩
    have start : c.other kicked slot ∈ region' := Finset.mem_filter.mpr ⟨next, .refl⟩
    obtain ⟨steps, middle, bound, walked, aimed, again, outside⟩ := ih region'.card (size ▸ smaller) closed' (by
      intro u member item stored
      rw [unchanged u member] at stored
      exact allows u (Finset.mem_filter.mp member).1 item stored) start kicked rfl
    obtain ⟨middleTable, displaced, middleAim⟩ := middle
    dsimp only at aimed again outside
    subst aimed
    have last : Evicts c allowed 1 ⟨middleTable, displaced, c.other kicked slot⟩
        ⟨Function.update middleTable (c.other kicked slot) (some displaced), kicked,
          c.other kicked (c.other kicked slot)⟩ :=
      .step again (allows slot inside kicked occupied _) (.refl _)
    rw [c.other_other at_] at last
    have apart : slot ≠ c.other kicked slot := fun same => notInside (by rw [same]; exact start)
    refine ⟨(steps + 1) + 1, _, by omega,
      .step occupied (allows slot inside kicked occupied slot) (walked.trans last), rfl, ?_, ?_⟩
    · dsimp only
      rw [Function.update_of_ne apart, outside slot notInside]
      exact Function.update_self ..
    · intro u away
      have notStart : u ≠ c.other kicked slot := fun same => away (same ▸ next)
      have notRegion : u ∉ region' := fun member => away (Finset.mem_filter.mp member).1
      dsimp only
      rw [Function.update_of_ne notStart, outside u notRegion]
      exact Function.update_of_ne (fun same => away (by rw [same]; exact inside)) _ _

/-- Slots visited on the way to a free slot are counted among the occupied slots. -/
theorem Path.card_le {c : Candidates S A} {table : S → Option A} {target slot : S}
    {visited : List S} (path : Path c table target visited slot) (occupied region : Finset S)
    (complete : ∀ u, (table u).isSome → u ∈ occupied) (within : region ⊆ occupied)
    (apart : ∀ u ∈ visited, u ∉ region) : region.card + visited.length ≤ occupied.card := by
  rw [← List.toFinset_card_of_nodup path.nodup, ← Finset.card_union_of_disjoint]
  · apply Finset.card_le_card
    apply Finset.union_subset within
    intro u member
    exact complete u (path.facts (List.mem_toFinset.mp member)).2.2
  · rw [Finset.disjoint_right]
    intro u member
    exact apart u (List.mem_toFinset.mp member)

/-- A new item reaches a free slot that a chain from one of its candidates leads to. The number of
evictions is at most twice the number of occupied slots. -/
theorem reaches_free (c : Candidates S A) (allowed : A → S → Prop) (table : S → Option A)
    (placed : ∀ u item, table u = some item → c.At item u)
    (allows : ∀ u item, table u = some item → ∀ v, allowed item v)
    (occupied : Finset S) (complete : ∀ u, (table u).isSome ↔ u ∈ occupied) (item : A)
    (again : c.first item ≠ c.second item → allowed item (c.first item)) {free : S}
    (vacant : table free = none)
    (reaches : Reaches c table (c.first item) free ∨ Reaches c table (c.second item) free) :
    ∃ steps final, steps ≤ 2 * occupied.card ∧
      Evicts c allowed steps ⟨table, item, c.first item⟩ final ∧ final.table final.aim = none := by
  classical
  by_cases direct : ∃ end_, table end_ = none ∧ Reaches c table (c.first item) end_
  · obtain ⟨end_, vacant, reaches⟩ := direct
    obtain ⟨visited, path⟩ := reaches.path
    obtain ⟨final, walked, aimed, outside⟩ :=
      path.walk allowed (fun u _ stored here => allows u stored here) item
    have short := path.card_le occupied ∅ (fun u => (complete u).mp) (Finset.empty_subset _) (by simp)
    have notVisited : end_ ∉ visited := fun member => (path.facts member).1 rfl
    refine ⟨visited.length, final, by simp at short; omega, walked, ?_⟩
    rw [aimed, outside end_ notVisited, vacant]
  · -- every slot that the first candidate leads to is occupied, so the item comes back to it
    have full : ∀ u, Reaches c table (c.first item) u → u ∈ occupied := by
      intro u reaches
      refine (complete u).mp ?_
      by_contra none
      exact direct ⟨u, by simpa using none, reaches⟩
    let region := occupied.filter fun u => Reaches c table (c.first item) u
    have closed : Closed c table region := by
      intro u member
      obtain ⟨inOccupied, reached⟩ := Finset.mem_filter.mp member
      obtain ⟨stored, here⟩ := Option.isSome_iff_exists.mp ((complete u).mpr inOccupied)
      have onward : Reaches c table (c.first item) (c.other stored u) :=
        reached.tail ⟨stored, here, rfl⟩
      exact ⟨stored, here, placed u stored here, Finset.mem_filter.mpr ⟨full _ onward, onward⟩⟩
    have start : c.first item ∈ region := Finset.mem_filter.mpr ⟨full _ .refl, .refl⟩
    have reaches := reaches.resolve_left fun reaches => direct ⟨free, vacant, reaches⟩
    have differ : c.first item ≠ c.second item := by
      intro same
      exact direct ⟨free, vacant, by rw [same]; exact reaches⟩
    obtain ⟨steps, middle, bound, walked, aimed, back, outside⟩ :=
      closed.returns allowed (fun u _ stored here => allows u stored here) start item
    obtain ⟨middleTable, displaced, middleAim⟩ := middle
    dsimp only at aimed back outside
    subst aimed
    have last : Evicts c allowed 1 ⟨middleTable, displaced, c.first item⟩
        ⟨Function.update middleTable (c.first item) (some displaced), item,
          c.other item (c.first item)⟩ := .step back (again differ) (.refl _)
    have turned : c.other item (c.first item) = c.second item := if_pos rfl
    rw [turned] at last
    obtain ⟨visited, path⟩ := reaches.path
    have apart : ∀ u ∈ visited, u ∉ region := by
      intro u visits member
      obtain ⟨tail, suffix, -⟩ := path.suffix visits
      exact direct ⟨free, vacant, (Finset.mem_filter.mp member).2.trans suffix.reaches⟩
    have unchanged : ∀ u, u ∉ region →
        Function.update middleTable (c.first item) (some displaced) u = table u := by
      intro u away
      have notStart : u ≠ c.first item := fun same => away (by rw [same]; exact start)
      rw [Function.update_of_ne notStart, outside u away]
    obtain ⟨final, finished, aimed, outside'⟩ :=
      (path.congr fun u member => unchanged u (apart u member)).walk allowed (by
        intro u member stored here
        rw [unchanged u (apart u member)] at here
        exact allows u stored here) item
    have short := path.card_le occupied region (fun u => (complete u).mp)
      (Finset.filter_subset _ _) apart
    have notVisited : free ∉ visited := fun member => (path.facts member).1 rfl
    have notRegion : free ∉ region := by
      intro member
      have some := (complete free).mpr (Finset.mem_filter.mp member).1
      simp [vacant] at some
    refine ⟨steps + 1 + visited.length, final, by omega, (walked.trans last).trans finished, ?_⟩
    rw [aimed, outside' free notVisited, unchanged free notRegion, vacant]

end Eviction
