import Coucal.Library.Eviction
import Coucal.Proof.Stash

namespace Coucal

open Outcome

variable {P : Platform} {κ : Type}

/-- The hash that an evicted item uses next. -/
def nextHash (lgSize : Nat) (item : Item P κ) (pos : Nat) : Hashkey P :=
  if pos = hashToPos_ lgSize item.hashes.hash1 then item.hashes.hash2 else item.hashes.hash1

theorem nextHash_candidate (lgSize : Nat) (item : Item P κ) (pos : Nat) :
    nextHash lgSize item pos = item.hashes.hash1 ∨ nextHash lgSize item pos = item.hashes.hash2 := by
  unfold nextHash
  split <;> simp

/-- The loop places its item in a free slot. -/
theorem evict_free {lgSize loops : Nat} {initial hash : Hashkey P} {items : Nat → Item P κ}
    {item : Item P κ} (free : (items (hashToPos_ lgSize hash)).name = none) :
    evict lgSize initial (loops + 1) items item hash =
      .ok (Function.update items (hashToPos_ lgSize hash) item, none) := by
  simp [evict, free]

/-- The loop exchanges its item with the occupant of a slot, and goes on with the other hash of that one. -/
theorem evict_kicks {lgSize loops : Nat} {initial hash : Hashkey P} {items : Nat → Item P κ}
    {item : Item P κ} (occupied : (items (hashToPos_ lgSize hash)).name ≠ none) :
    evict lgSize initial (loops + 1) items item hash =
      let pos := hashToPos_ lgSize hash
      let kicked := items pos
      let next := nextHash lgSize kicked pos
      if pos = hashToPos_ lgSize kicked.hashes.hash1 ∨ pos = hashToPos_ lgSize kicked.hashes.hash2 then
        if next = initial then .ok (Function.update items pos item, some kicked)
        else evict lgSize initial loops (Function.update items pos item) kicked next
      else .error (.assertion .unexpectedPosition) := by
  rw [evict]
  simp only [Option.isNone_iff_eq_none, occupied, if_false, nextHash]
  by_cases first : hashToPos_ lgSize hash = hashToPos_ lgSize (items (hashToPos_ lgSize hash)).hashes.hash1
  · simp only [if_pos first, if_pos (Or.inl first)]
  · simp only [first, false_or, if_false]

/-- In a placed table the occupant is at one of its positions. -/
theorem evict_occupied {lgSize loops : Nat} {initial hash : Hashkey P} {items : Nat → Item P κ}
    {item : Item P κ} (placed : Placed lgSize items)
    (occupied : (items (hashToPos_ lgSize hash)).name ≠ none) :
    evict lgSize initial (loops + 1) items item hash =
      let pos := hashToPos_ lgSize hash
      let next := nextHash lgSize (items pos) pos
      if next = initial then .ok (Function.update items pos item, some (items pos))
      else evict lgSize initial loops (Function.update items pos item) (items pos) next := by
  rw [evict_kicks occupied]
  exact if_pos (placed _ (hashToPos_lt lgSize hash) occupied)

/-- The outcome of the loop keeps the placement and exchanges the carried item for the one that is
left. -/
structure Evicted (lgSize : Nat) (items : Nat → Item P κ) (item : Item P κ)
    (result : (Nat → Item P κ) × Option (Item P κ)) : Prop where
  placed : Placed lgSize result.1
  fills : Fills items result.1
  named : ∀ left, result.2 = some left → left.name ≠ none
  live : result.2.elim 0 (fun left => {left}) + liveIn (2 ^ lgSize) result.1 =
    item ::ₘ liveIn (2 ^ lgSize) items

/-- The loop never fails on a placed table, whatever its load. -/
theorem evict_spec {lgSize : Nat} {hash : Hashkey P} (initial : Hashkey P) (loops : Nat) {items : Nat → Item P κ}
    {item : Item P κ} (placed : Placed lgSize items) (named : item.name ≠ none)
    (candidate : hash = item.hashes.hash1 ∨ hash = item.hashes.hash2) :
    Meets (evict lgSize initial loops items item hash) (Evicted lgSize items item) fun _ => False := by
  induction loops generalizing items item hash with
  | zero =>
      refine ⟨placed, Fills.refl items, ?_, ?_⟩
      · rintro left ⟨⟩
        exact named
      · exact Multiset.singleton_add _ _
  | succ loops ih =>
      have inside := hashToPos_lt lgSize hash
      have placed' : Placed lgSize (Function.update items (hashToPos_ lgSize hash) item) :=
        placed.update fun _ => by rcases candidate with rfl | rfl <;> simp
      have fills' : Fills items (Function.update items (hashToPos_ lgSize hash) item) :=
        Fills.update items _ named
      by_cases free : (items (hashToPos_ lgSize hash)).name = none
      · rw [evict_free free]
        refine ⟨placed', fills', fun left equal => absurd equal (by simp), ?_⟩
        simp only [Option.elim_none, zero_add]
        exact liveIn_fill inside free named
      · rw [evict_occupied placed free]
        have exchanged := liveIn_swap inside free named
        dsimp only
        split
        next =>
          refine ⟨placed', fills', ?_, ?_⟩
          · rintro left ⟨⟩
            exact free
          · exact (Multiset.singleton_add _ _).trans exchanged
        next =>
          have continued := ih placed' free (nextHash_candidate lgSize _ (hashToPos_ lgSize hash))
          refine continued.imp fun result evicted => ?_
          exact ⟨evicted.placed, fills'.trans evicted.fills, evicted.named, evicted.live.trans exchanged⟩

/-- Both candidate slots of an item are occupied. -/
def Blocked (lgSize : Nat) (items : Nat → Item P κ) (item : Item P κ) : Prop :=
  (items (hashToPos_ lgSize item.hashes.hash1)).name ≠ none ∧
    (items (hashToPos_ lgSize item.hashes.hash2)).name ≠ none

theorem Blocked.fills {lgSize : Nat} {items items' : Nat → Item P κ} {item : Item P κ}
    (blocked : Blocked lgSize items item) (fills : Fills items items') : Blocked lgSize items' item :=
  ⟨fills _ blocked.1, fills _ blocked.2⟩

/-- Each item can lie at the positions of its two hashes. -/
def candidates (lgSize : Nat) : Eviction.Candidates Nat (Item P κ) where
  first item := hashToPos_ lgSize item.hashes.hash1
  second item := hashToPos_ lgSize item.hashes.hash2

/-- The occupant of a table slot. -/
def occupant (lgSize : Nat) (items : Nat → Item P κ) (pos : Nat) : Option (Item P κ) :=
  if pos < 2 ^ lgSize ∧ (items pos).name ≠ none then some (items pos) else none

theorem occupant_eq_some {lgSize pos : Nat} {items : Nat → Item P κ} {item : Item P κ} :
    occupant lgSize items pos = some item ↔
      pos < 2 ^ lgSize ∧ items pos = item ∧ item.name ≠ none := by
  unfold occupant
  constructor
  · intro equal
    split at equal
    next holds =>
      cases equal
      exact ⟨holds.1, rfl, holds.2⟩
    next => simp at equal
  · rintro ⟨inside, rfl, named⟩
    exact if_pos ⟨inside, named⟩

theorem occupant_eq_none {lgSize pos : Nat} {items : Nat → Item P κ} (inside : pos < 2 ^ lgSize) :
    occupant lgSize items pos = none ↔ (items pos).name = none := by
  simp [occupant, inside]

theorem occupant_update {lgSize pos : Nat} {items : Nat → Item P κ} {item : Item P κ}
    (inside : pos < 2 ^ lgSize) (named : item.name ≠ none) :
    occupant lgSize (Function.update items pos item) =
      Function.update (occupant lgSize items) pos (some item) := by
  funext i
  by_cases same : i = pos
  · subst same
    simp [occupant, inside, named]
  · simp [occupant, Function.update_of_ne same]

theorem hashToPos_nextHash (lgSize : Nat) (item : Item P κ) (pos : Nat) :
    hashToPos_ lgSize (nextHash lgSize item pos) = (candidates lgSize).other item pos := by
  unfold nextHash Eviction.Candidates.other candidates
  dsimp only
  split <;> rfl

/-- The loop follows a walk of evictions, unless the hash test stops it on the way. -/
theorem evict_follows {lgSize : Nat} (initial : Hashkey P) {allowed : Item P κ → Nat → Prop}
    {count : Nat} {start final : Eviction.Walk Nat (Item P κ)}
    (walk : Eviction.Evicts (candidates lgSize) allowed count start final) {loops : Nat}
    (enough : count ≤ loops) {items : Nat → Item P κ} {hash : Hashkey P}
    (table : start.table = occupant lgSize items) (aim : start.aim = hashToPos_ lgSize hash)
    (placed : Placed lgSize items) (named : start.item.name ≠ none)
    (candidate : hash = start.item.hashes.hash1 ∨ hash = start.item.hashes.hash2) :
    (∃ items' left pos, evict lgSize initial loops items start.item hash = .ok (items', some left) ∧
      allowed left pos ∧ nextHash lgSize left pos = initial ∧
      (pos = hashToPos_ lgSize left.hashes.hash1 ∨ pos = hashToPos_ lgSize left.hashes.hash2) ∧
      (items' pos).name ≠ none) ∨
    ∃ items' hash', evict lgSize initial loops items start.item hash =
        evict lgSize initial (loops - count) items' final.item hash' ∧
      final.table = occupant lgSize items' ∧ final.aim = hashToPos_ lgSize hash' := by
  induction walk generalizing loops items hash with
  | refl => exact .inr ⟨items, hash, rfl, table, aim⟩
  | @step table' item kicked pos count final occupied allows rest ih =>
      dsimp only at table aim named candidate ⊢
      subst table aim
      obtain ⟨inside, stored, kickedNamed⟩ := occupant_eq_some.mp occupied
      subst stored
      obtain ⟨loops, rfl⟩ := Nat.exists_eq_add_of_le' (Nat.lt_of_lt_of_le (Nat.succ_pos count) enough)
      have placed' : Placed lgSize (Function.update items (hashToPos_ lgSize hash) item) :=
        placed.update fun _ => by rcases candidate with rfl | rfl <;> simp
      rw [evict_occupied placed kickedNamed]
      dsimp only
      split
      next stops =>
        left
        refine ⟨_, _, hashToPos_ lgSize hash, rfl, allows, stops, placed _ inside kickedNamed, ?_⟩
        rw [Function.update_self]
        exact named
      next =>
        have continued := ih (by omega : _ ≤ loops) (occupant_update inside named).symm
          (hashToPos_nextHash lgSize _ _).symm placed' kickedNamed (nextHash_candidate lgSize _ _)
        simpa only [Nat.add_sub_add_right] using continued

/-- The slots that a chain of occupied slots leads to from the candidate slots of an item. -/
def reachableSlots (lgSize : Nat) (items : Nat → Item P κ) (item : Item P κ) : Set Nat :=
  {slot | Eviction.Reaches (candidates lgSize) (occupant lgSize items)
      (hashToPos_ lgSize item.hashes.hash1) slot ∨
    Eviction.Reaches (candidates lgSize) (occupant lgSize items)
      (hashToPos_ lgSize item.hashes.hash2) slot}

/-- A chain leads from table slots to table slots only. -/
theorem reachableSlots_lt {lgSize slot : Nat} {items : Nat → Item P κ} {item : Item P κ}
    (reached : slot ∈ reachableSlots lgSize items item) : slot < 2 ^ lgSize := by
  have inside : ∀ start, start < 2 ^ lgSize →
      Eviction.Reaches (candidates lgSize) (occupant lgSize items) start slot → slot < 2 ^ lgSize := by
    intro start first reaches
    rcases Relation.ReflTransGen.cases_tail reaches with rfl | ⟨previous, -, stored, -, rfl⟩
    · exact first
    · rw [← hashToPos_nextHash]
      exact hashToPos_lt lgSize _
  rcases reached with reaches | reaches
  · exact inside _ (hashToPos_lt lgSize _) reaches
  · exact inside _ (hashToPos_lt lgSize _) reaches

/-- A chain goes on from an occupied slot to each candidate of its item. -/
theorem reachableSlots_next {lgSize slot : Nat} {items : Nat → Item P κ} {item : Item P κ}
    (placed : Placed lgSize items) (reached : slot ∈ reachableSlots lgSize items item)
    (occupied : (items slot).name ≠ none) :
    hashToPos_ lgSize (items slot).hashes.hash1 ∈ reachableSlots lgSize items item ∧
      hashToPos_ lgSize (items slot).hashes.hash2 ∈ reachableSlots lgSize items item := by
  have inside := reachableSlots_lt reached
  have stored : occupant lgSize items slot = some (items slot) :=
    occupant_eq_some.mpr ⟨inside, rfl, occupied⟩
  have onward : (candidates lgSize).other (items slot) slot ∈ reachableSlots lgSize items item := by
    rcases reached with reaches | reaches
    · exact .inl (reaches.tail ⟨_, stored, rfl⟩)
    · exact .inr (reaches.tail ⟨_, stored, rfl⟩)
  unfold Eviction.Candidates.other candidates at onward
  dsimp only at onward
  rcases placed slot inside occupied with first | second
  · rw [if_pos first] at onward
    exact ⟨first ▸ reached, onward⟩
  · split at onward
    next first => exact ⟨first ▸ reached, onward⟩
    next => exact ⟨onward, second ▸ reached⟩

/-- Inside a closed set of occupied slots the loop leaves an item whose candidate slots are
occupied. -/
theorem evict_closed {lgSize : Nat} {hash : Hashkey P} {region : Set Nat} (initial : Hashkey P) (loops : Nat)
    {items : Nat → Item P κ} {item : Item P κ} (placed : Placed lgSize items)
    (closed : ∀ u ∈ region, (items u).name ≠ none ∧
      hashToPos_ lgSize (items u).hashes.hash1 ∈ region ∧
      hashToPos_ lgSize (items u).hashes.hash2 ∈ region)
    (named : item.name ≠ none)
    (within : hashToPos_ lgSize item.hashes.hash1 ∈ region ∧ hashToPos_ lgSize item.hashes.hash2 ∈ region)
    (candidate : hash = item.hashes.hash1 ∨ hash = item.hashes.hash2) :
    Meets (evict lgSize initial loops items item hash)
      (fun result => ∃ left, result.2 = some left ∧ Blocked lgSize result.1 left) fun _ => True := by
  induction loops generalizing items item hash with
  | zero => exact ⟨item, rfl, (closed _ within.1).1, (closed _ within.2).1⟩
  | succ loops ih =>
      have aimed : hashToPos_ lgSize hash ∈ region := by
        rcases candidate with rfl | rfl
        · exact within.1
        · exact within.2
      obtain ⟨occupied, first, second⟩ := closed _ aimed
      have fills := Fills.update items (hashToPos_ lgSize hash) named
      have placed' : Placed lgSize (Function.update items (hashToPos_ lgSize hash) item) :=
        placed.update fun _ => by rcases candidate with rfl | rfl <;> simp
      rw [evict_occupied placed occupied]
      dsimp only
      split
      next => exact ⟨_, rfl, fills _ (closed _ first).1, fills _ (closed _ second).1⟩
      next =>
        refine ih placed' ?_ occupied ⟨first, second⟩ (nextHash_candidate lgSize _ _)
        intro u member
        by_cases same : u = hashToPos_ lgSize hash
        · subst same
          rw [Function.update_self]
          exact ⟨named, within⟩
        · rw [Function.update_of_ne same]
          exact closed u member

/-- Less than half of the table is occupied. -/
def HalfFree (lgSize : Nat) (items : Nat → Item P κ) : Prop :=
  2 * (liveIn (2 ^ lgSize) items).card + 2 ≤ 2 ^ lgSize

/-- The walk meets a reachable free slot before the bound of the loop, unless the hash test stops
the loop first. -/
theorem evict_reaches {lgSize : Nat} {items : Nat → Item P κ} {item : Item P κ}
    (allowed : Item P κ → Nat → Prop) (placed : Placed lgSize items) (named : item.name ≠ none)
    (half : HalfFree lgSize items)
    (allows : ∀ u < 2 ^ lgSize, (items u).name ≠ none → ∀ v, allowed (items u) v)
    (again : hashToPos_ lgSize item.hashes.hash1 ≠ hashToPos_ lgSize item.hashes.hash2 →
      allowed item (hashToPos_ lgSize item.hashes.hash1))
    {free : Nat} (reached : free ∈ reachableSlots lgSize items item)
    (vacant : (items free).name = none) :
    (∃ items' left pos, evict lgSize item.hashes.hash1 (2 ^ lgSize) items item item.hashes.hash1 =
        .ok (items', some left) ∧ allowed left pos ∧ nextHash lgSize left pos = item.hashes.hash1 ∧
      (pos = hashToPos_ lgSize left.hashes.hash1 ∨ pos = hashToPos_ lgSize left.hashes.hash2) ∧
      (items' pos).name ≠ none) ∨
    ∃ items', evict lgSize item.hashes.hash1 (2 ^ lgSize) items item item.hashes.hash1 =
      .ok (items', none) := by
  let occupied := (Finset.range (2 ^ lgSize)).filter fun i => (items i).name ≠ none
  have complete : ∀ u, (occupant lgSize items u).isSome ↔ u ∈ occupied := by
    intro u
    simp [occupied, occupant, Option.isSome_iff_ne_none]
  have inside := reachableSlots_lt reached
  obtain ⟨steps, final, bound, walked, ends⟩ := Eviction.reaches_free (candidates lgSize) allowed
    (occupant lgSize items) (by
      intro u stored here
      obtain ⟨inside, rfl, occupied⟩ := occupant_eq_some.mp here
      exact placed u inside occupied) (by
      intro u stored here
      obtain ⟨inside, rfl, occupied⟩ := occupant_eq_some.mp here
      exact allows u inside occupied)
    occupied complete item again ((occupant_eq_none inside).mpr vacant) reached
  have short : steps + 1 ≤ 2 ^ lgSize := by
    have counted : occupied.card = (liveIn (2 ^ lgSize) items).card := (card_liveIn _ _).symm
    unfold HalfFree at half
    omega
  rcases evict_follows item.hashes.hash1 walked (by omega : steps ≤ 2 ^ lgSize) rfl rfl placed named
    (.inl rfl) with stops | ⟨items', hash', follows, table, aim⟩
  · exact .inl stops
  · right
    obtain ⟨rest, more⟩ := Nat.exists_eq_add_of_le' (by omega : 1 ≤ 2 ^ lgSize - steps)
    rw [table, aim, occupant_eq_none (hashToPos_lt lgSize hash')] at ends
    rw [more, evict_free ends] at follows
    exact ⟨_, follows⟩

/-- The loop finds a reachable free slot when no stored hash equals the first hash of the item. -/
theorem evict_places {lgSize : Nat} {items : Nat → Item P κ} {item : Item P κ}
    (placed : Placed lgSize items) (named : item.name ≠ none) (half : HalfFree lgSize items)
    (distinct : ∀ u < 2 ^ lgSize, (items u).name ≠ none →
      (items u).hashes.hash1 ≠ item.hashes.hash1 ∧ (items u).hashes.hash2 ≠ item.hashes.hash1)
    {free : Nat} (reached : free ∈ reachableSlots lgSize items item)
    (vacant : (items free).name = none) :
    ∃ items', evict lgSize item.hashes.hash1 (2 ^ lgSize) items item item.hashes.hash1 =
      .ok (items', none) := by
  rcases evict_reaches (fun left pos => nextHash lgSize left pos ≠ item.hashes.hash1)
    placed named half (by
      intro u inside occupied pos
      rcases nextHash_candidate lgSize (items u) pos with same | same <;> rw [same]
      · exact (distinct u inside occupied).1
      · exact (distinct u inside occupied).2) (by
      intro differ same
      rw [nextHash, if_pos rfl] at same
      exact differ (by rw [same])) reached vacant with ⟨_, _, _, -, allows, stops, -⟩ | placedAll
  · exact absurd stops allows
  · exact placedAll

/-- The loop leaves no item with a free candidate slot. -/
theorem evict_blocked {lgSize : Nat} {items items' : Nat → Item P κ} {item left : Item P κ}
    (placed : Placed lgSize items) (named : item.name ≠ none) (half : HalfFree lgSize items)
    (blocked : Blocked lgSize items item)
    (leaves : evict lgSize item.hashes.hash1 (2 ^ lgSize) items item item.hashes.hash1 =
      .ok (items', some left)) : Blocked lgSize items' left := by
  by_cases vacancy : ∃ free ∈ reachableSlots lgSize items item, (items free).name = none
  · -- the hash test stopped the loop, and the other slot is the first slot of the new item
    obtain ⟨free, reached, vacant⟩ := vacancy
    rcases evict_reaches (fun _ _ => True) placed named half (fun _ _ _ _ => trivial)
      (fun _ => trivial) reached vacant with ⟨_, _, pos, stops, -, next, at_, occupied⟩ | ⟨_, places⟩
    · rw [leaves] at stops
      cases stops
      have evicted := (evict_spec _ _ placed named (.inl rfl)).of_ok leaves
      have first := evicted.fills _ blocked.1
      rw [← next] at first
      unfold nextHash at first
      rcases at_ with rfl | rfl
      · rw [if_pos rfl] at first
        exact ⟨occupied, first⟩
      · split at first
        next same => exact ⟨same ▸ occupied, first⟩
        next => exact ⟨first, occupied⟩
    · rw [leaves] at places
      cases places
  · have full : ∀ u ∈ reachableSlots lgSize items item, (items u).name ≠ none :=
      fun u reached free => vacancy ⟨u, reached, free⟩
    have closed := (evict_closed item.hashes.hash1 (2 ^ lgSize) placed (fun u reached =>
      ⟨full u reached, reachableSlots_next placed reached (full u reached)⟩) named
      ⟨.inl .refl, .inr .refl⟩ (.inl rfl)).of_ok leaves
    obtain ⟨stored, same, result⟩ := closed
    cases same
    exact result

end Coucal
