import Coucal.Proof.Calls
import Coucal.Proof.Rearrangement

namespace Coucal

open Outcome

variable {P : Platform} {κ : Type} {env : Env P κ}

/-- The table that the duplication of a key sees. -/
theorem drained_rearranged (t : Hashtable P κ) :
    Rearranged t (Item.null P κ) (if t.stash.size ≠ 0 then t.drainStash else t) := by
  split
  next => exact drainStash_rearranged t
  next => exact .refl t _

theorem Rearranged.key_eq {t t' : Hashtable P κ} {item : Item P κ} (arranged : Rearranged t item t')
    (name : Name κ) : t'.key name = t.key name := by
  rw [Hashtable.key, arranged.pool_eq]
  rfl

/-- The item of a write under a duplication handler, with the name that the handler returns. -/
def Hashtable.askedItem (env : Env P κ) (t : Hashtable P κ) (name : Name κ) (value : Value P)
    (copy : Option (Key κ)) : Item P κ := ⟨copy.map .own, value, t.calcHashes env name⟩

/-- A write of an absent key counts one more entry and rearranges the items with the new one, whatever the
duplication handler returns. -/
theorem writeValue_asked {dup : Nat → Key κ → Option (Key κ)} (handler : env.dup = some dup)
    {t t' : Hashtable P κ} {name : Name κ} {value : Value P} {added : Bool}
    (missing : t.locate env name (t.calcHashes env name) = none)
    (returned : t.writeValue env name value = .ok (added, t')) :
    added = true ∧ Rearranged { t with
        used := t.used + 1
        calls := .dup (t.key name) (dup t.calls.length (t.key name)) :: t.calls }
      (t.askedItem env name value (dup t.calls.length (t.key name))) t' := by
  unfold Hashtable.writeValue at returned
  obtain ⟨⟨flag, s⟩, written, returned⟩ := bind_eq_ok.mp returned
  have drained := drained_rearranged t
  unfold Hashtable.writeValue_ at written
  dsimp only at written
  rw [missing] at written
  dsimp only at written
  generalize (if t.stash.size ≠ 0 then t.drainStash else t) = d at drained written
  rw [Hashtable.dupName, handler] at written
  dsimp only at written
  rw [ok_bind, drained.key_eq, drained.calls_eq] at written
  obtain ⟨rfl, joined⟩ := addItem_rearranged written
  have base : Rearranged { t with
      used := t.used + 1
      calls := .dup (t.key name) (dup t.calls.length (t.key name)) :: t.calls }
      (t.askedItem env name value (dup t.calls.length (t.key name))) { s with used := s.used + 1 } := by
    refine ⟨?_, joined.pool_eq.trans drained.pool_eq, joined.calls_eq, fun property null new each => ?_,
      fun roomy => joined.roomy (drained.roomy roomy)⟩
    · exact congrArg (· + 1) (joined.used_eq.trans drained.used_eq)
    · have before := drained.each property null null ⟨each.sized, each.table, each.stash⟩
      have after := joined.each property null new ⟨before.sized, before.table, before.stash⟩
      exact ⟨after.sized, after.table, after.stash⟩
  dsimp only at returned
  rw [if_pos rfl] at returned
  split at returned
  next =>
    obtain ⟨u, expanded, returned⟩ := bind_eq_ok.mp returned
    obtain ⟨v, merged, returned⟩ := bind_eq_ok.mp returned
    cases returned
    exact ⟨rfl, (base.trans (expand_rearranged expanded)).trans (mergeStash_rearranged merged)⟩
  next =>
    cases returned
    exact ⟨rfl, base⟩

/-- Items in the same places keep the stash inside its bounds. -/
theorem Alike.roomy {t t' : Hashtable P κ} (alike : Alike t t') (roomy : t.stash.Roomy) : t'.stash.Roomy := by
  refine ⟨alike.bounded roomy.toBounded, ?_⟩
  rw [alike.extent_eq, alike.size_eq, Alike.card_liveIn_eq fun i _ => alike.stash i]
  exact roomy.live_le

/-- A write keeps the stash inside its bounds, whatever the duplication handler returns. -/
theorem writeValue_roomy {dup : Nat → Key κ → Option (Key κ)} (handler : env.dup = some dup)
    {t t' : Hashtable P κ} {name : Name κ} {value : Value P} {added : Bool} (roomy : t.stash.Roomy)
    (returned : t.writeValue env name value = .ok (added, t')) : t'.stash.Roomy := by
  cases located : t.locate env name (t.calcHashes env name) with
  | some slot =>
      rw [writeValue_found located] at returned
      cases returned
      exact (t.alike_setValue slot value).roomy roomy
  | none => exact (writeValue_asked handler located returned).2.roomy roomy

theorem inc_roomy {dup : Nat → Key κ → Option (Key κ)} (handler : env.dup = some dup)
    {t t' : Hashtable P κ} {name : Name κ} {inc value : Value P} (roomy : t.stash.Roomy)
    (returned : t.inc_ env name inc = .ok (value, t')) : t'.stash.Roomy := by
  unfold Hashtable.inc_ at returned
  split at returned
  next slot _ =>
    cases returned
    exact (t.alike_setValue slot _).roomy roomy
  next =>
    obtain ⟨⟨added, s⟩, written, returned⟩ := bind_eq_ok.mp returned
    obtain ⟨_, -, returned⟩ := bind_eq_ok.mp returned
    cases returned
    exact writeValue_roomy handler roomy written

/-- A removal under a duplication handler clears the located slot and leaves the other items alone. -/
theorem remove_asked {dup : Nat → Key κ → Option (Key κ)} (handler : env.dup = some dup)
    {t t' : Hashtable P κ} {name : Name κ} {removed : Bool} {slot : Slot} (roomy : t.stash.Roomy)
    (located : t.locate env name (t.calcHashes env name) = some slot)
    (returned : t.remove env name = .ok (removed, t')) :
    t'.lgSize = t.lgSize ∧ t'.pool = t.pool ∧ t'.stash.Roomy ∧
      ∀ other, t'.item other = (t.setItem slot (Item.null P κ)).item other := by
  have below := (Hashtable.locate_matches located).1
  have named := Hashtable.locate_named located
  obtain ⟨stored, held⟩ := Option.ne_none_iff_exists'.mp named
  unfold Hashtable.remove at returned
  obtain ⟨⟨flag, s⟩, erased, returned⟩ := bind_eq_ok.mp returned
  have cleared : s.lgSize = t.lgSize ∧ s.pool = t.pool ∧ s.stash.Roomy ∧
      ∀ other, s.item other = (t.setItem slot (Item.null P κ)).item other := by
    unfold Hashtable.remove_ at erased
    rw [located] at erased
    cases slot with
    | table pos | stash index =>
        obtain ⟨u, deleted, erased⟩ := bind_eq_ok.mp erased
        cases erased
        rw [Hashtable.delItem_eq held, Hashtable.freeKey, handler] at deleted
        cases deleted
        first
        | exact ⟨rfl, rfl, roomy, fun other => by cases other <;> rfl⟩
        | exact ⟨rfl, rfl, (roomy.clear below named Item.null_name).trim, fun other => by cases other <;> rfl⟩
  dsimp only at returned
  split at returned
  next =>
    obtain ⟨_, -, returned⟩ := bind_eq_ok.mp returned
    cases returned
    exact ⟨cleared.1, cleared.2.1, cleared.2.2.1, fun other => by
      rw [← cleared.2.2.2 other]
      cases other <;> rfl⟩
  next =>
    cases returned
    exact cleared

/-- A removal of an absent key changes nothing. -/
theorem remove_missing {t t' : Hashtable P κ} {name : Name κ} {removed : Bool}
    (missing : t.locate env name (t.calcHashes env name) = none)
    (returned : t.remove env name = .ok (removed, t')) : t' = t := by
  unfold Hashtable.remove Hashtable.remove_ at returned
  rw [missing] at returned
  cases returned
  rfl

/-- A removal leaves a hole in the stash and trims it. -/
theorem remove_roomy {dup : Nat → Key κ → Option (Key κ)} (handler : env.dup = some dup)
    {t t' : Hashtable P κ} {name : Name κ} {removed : Bool} (roomy : t.stash.Roomy)
    (returned : t.remove env name = .ok (removed, t')) : t'.stash.Roomy := by
  cases located : t.locate env name (t.calcHashes env name) with
  | none => exact remove_missing located returned ▸ roomy
  | some slot => exact (remove_asked handler roomy located returned).2.2.1

/-- Each call keeps the stash inside its bounds, whatever the duplication handler returns. -/
theorem Step.roomy {dup : Nat → Key κ → Option (Key κ)} (handler : env.dup = some dup)
    {t t' : Hashtable P κ} {event : Event P κ} (roomy : t.stash.Roomy) (step : Step env t event t') :
    t'.stash.Roomy := by
  cases step with
  | @call _ op reply readable returned =>
      cases op with
      | writeValue =>
          obtain ⟨_, written, same⟩ := bind_eq_ok.mp returned
          cases same
          exact writeValue_roomy handler roomy written
      | remove =>
          obtain ⟨_, erased, same⟩ := bind_eq_ok.mp returned
          cases same
          exact remove_roomy handler roomy erased
      | inc | dec =>
          obtain ⟨_, called, same⟩ := bind_eq_ok.mp returned
          cases same
          obtain ⟨_, counted, same⟩ := bind_eq_ok.mp called
          cases same
          exact inc_roomy handler roomy counted
      | readValue | exists_ | fetchValueHashes | nitems | enumNext =>
          cases returned
          exact roomy

/-- What holds of each table, whatever the duplication handler returns. -/
structure Hashtable.Sound (env : Env P κ) (t : Hashtable P κ) : Prop where
  roomy : t.stash.Roomy
  pool : env.dup = none → Inv env t

/-- The stash of each reachable table is inside its bounds. -/
theorem Reachable.roomy {t : Hashtable P κ} (reachable : Reachable env t) : t.stash.Roomy := by
  cases handler : env.dup with
  | none => exact (reachable.inv (Env.dupReturns_of_pool handler)).stash.roomy
  | some dup =>
      obtain ⟨initialSize, created, events, new, run⟩ := reachable
      exact run.preserves (fun s => s.stash.Roomy) (new_spec new).1.stash.roomy
        fun _ _ _ _ roomy step => step.roomy handler roomy

theorem Reachable.sound {t : Hashtable P κ} (reachable : Reachable env t) : t.Sound env :=
  ⟨reachable.roomy, fun pool => reachable.inv (Env.dupReturns_of_pool pool)⟩

namespace Hashtable.Sound

variable {t t' : Hashtable P κ} {name : Name κ}

/-- A removal clears the located slot and keeps the content of the others. -/
theorem remove {removed : Bool} (sound : t.Sound env) (returned : t.remove env name = .ok (removed, t')) :
    t'.Sound env ∧ t'.lgSize = t.lgSize ∧ ∀ slot, t.Within slot → t'.entryAt slot =
      if t.locate env name (t.calcHashes env name) = some slot then none else t.entryAt slot := by
  cases located : t.locate env name (t.calcHashes env name) with
  | none =>
      cases remove_missing located returned
      exact ⟨sound, rfl, fun slot _ => (if_neg nofun).symm⟩
  | some slot =>
      cases handler : env.dup with
      | none =>
          have inv := sound.pool handler
          cases (remove_spec inv).of_ok returned with
          | absent missing => cases missing.symm.trans located
          | removed found stored effect =>
              cases found.symm.trans located
              have after := (effect.inv inv).2
              refine ⟨⟨after.stash.roomy, fun _ => after⟩, effect.lgSize_eq, fun other inside => ?_⟩
              by_cases same : slot = other
              · rw [if_pos (congrArg some same), ← same]
                exact effect.cleared
              · rw [if_neg fun equal => same (Option.some_inj.mp equal)]
                exact effect.others other (Ne.symm same) inside
      | some dup =>
          obtain ⟨lgSize, pool, roomy, items⟩ := remove_asked handler sound.roomy located returned
          refine ⟨⟨roomy, fun none => by cases handler.symm.trans none⟩, lgSize, fun other _ => ?_⟩
          unfold Hashtable.entryAt
          rw [pool, items]
          by_cases same : slot = other
          · rw [if_pos (congrArg some same), ← same, Hashtable.item_setItem]
            exact Item.entry_of_free Item.null_name
          · rw [if_neg fun equal => same (Option.some_inj.mp equal),
              Hashtable.item_setItem_of_ne t _ (Ne.symm same)]

/-- A replacement changes the value in the located slot alone. -/
theorem replace {slot : Slot} {value : Value P} {added : Bool} (sound : t.Sound env)
    (found : t.locate env name (t.calcHashes env name) = some slot)
    (returned : t.writeValue env name value = .ok (added, t')) :
    t'.Sound env ∧ t'.lgSize = t.lgSize ∧ ∀ other, t'.entryAt other =
      if slot = other then (t.entryAt other).map fun entry => { entry with value } else t.entryAt other := by
  obtain ⟨inside, entry, stored, -⟩ := Hashtable.locate_some sound.roomy.toBounded found
  rw [writeValue_found found] at returned
  cases returned
  refine ⟨⟨(t.alike_setValue slot value).roomy sound.roomy, fun pool =>
    (sound.pool pool).setValue inside stored value _⟩, Hashtable.setItem_lgSize .., fun other => ?_⟩
  change (t.setValue slot value).entryAt other = _
  by_cases same : slot = other
  · subst same
    rw [Hashtable.entryAt_setValue stored, stored, if_pos rfl]
    rfl
  · rw [if_neg same]
    exact Hashtable.entryAt_setItem_of_ne _ (Ne.symm same)

end Hashtable.Sound

/-- The documented contract of the key handlers, except that a duplication may return NULL. -/
structure Env.Consistent (env : Env P κ) : Prop where
  refl : ∀ key, env.equals key key = true
  symm : ∀ a b, env.equals a b = true → env.equals b a = true
  trans : ∀ a b c, env.equals a b = true → env.equals b c = true → env.equals a c = true
  hash : ∀ a b, env.equals a b = true → env.hash a = env.hash b
  dup : ∀ dup, env.dup = some dup → ∀ count key copy, dup count key = some copy → env.equals copy key = true

theorem Env.Lawful.consistent (lawful : env.Lawful) : env.Consistent where
  refl := lawful.refl
  symm := lawful.symm
  trans := lawful.trans
  hash := lawful.hash
  dup dup handler count key copy returned := by
    obtain ⟨copy', returned', equal⟩ := lawful.dup dup handler count key
    cases returned.symm.trans returned'
    exact equal

/-- The same handlers, with the key itself in place of each duplicate that is NULL. -/
def Env.insist (env : Env P κ) : Env P κ :=
  { env with dup := env.dup.map fun dup count key => some ((dup count key).getD key) }

/-- The handlers with the key in place of NULL keep the whole contract. -/
theorem Env.Consistent.lawful (consistent : env.Consistent) : env.insist.Lawful where
  refl := consistent.refl
  symm := consistent.symm
  trans := consistent.trans
  hash := consistent.hash
  dup dup handler count key := by
    obtain ⟨dup, asked, rfl⟩ := Option.map_eq_some_iff.mp handler
    refine ⟨_, rfl, ?_⟩
    cases returned : dup count key with
    | none => exact consistent.refl key
    | some copy => exact consistent.dup dup asked count key copy returned

section Insist

variable {t : Hashtable P κ} {name : Name κ}

/-- A duplicate that is not NULL stays the same. -/
theorem dupName_insist (granted : t.Grants env name) : t.dupName env.insist name = t.dupName env name := by
  cases handler : env.dup with
  | none =>
      have same : env.insist = env := by
        unfold Env.insist
        rw [handler, Option.map_none, ← handler]
      rw [same]
  | some dup =>
      obtain ⟨copy, returned⟩ := Option.ne_none_iff_exists'.mp (granted dup handler)
      unfold Hashtable.dupName Env.insist
      rw [handler]
      dsimp only [Option.map_some]
      rw [returned]
      rfl

theorem writeLocal_insist {value : Value P}
    (granted : t.locate env name (t.calcHashes env name) = none → t.Grants env name) :
    t.writeValue_ env.insist name value = t.writeValue_ env name value := by
  have same : t.locate env.insist name (t.calcHashes env.insist name) =
      t.locate env name (t.calcHashes env name) := rfl
  unfold Hashtable.writeValue_
  dsimp only
  rw [same]
  cases located : t.locate env name (t.calcHashes env name) with
  | some slot => rfl
  | none =>
      have drained := drained_rearranged t
      dsimp only
      generalize (if t.stash.size ≠ 0 then t.drainStash else t) = d at drained
      have asked : d.Grants env name := by
        unfold Hashtable.Grants
        rw [drained.calls_eq, drained.key_eq]
        exact granted located
      rw [dupName_insist asked]
      rfl

theorem writeValue_insist {value : Value P}
    (granted : t.locate env name (t.calcHashes env name) = none → t.Grants env name) :
    t.writeValue env.insist name value = t.writeValue env name value := by
  unfold Hashtable.writeValue
  rw [writeLocal_insist granted]
  rfl

theorem inc_insist {inc : Value P}
    (granted : t.locate env name (t.calcHashes env name) = none → t.Grants env name) :
    t.inc_ env.insist name inc = t.inc_ env name inc := by
  unfold Hashtable.inc_
  rw [writeValue_insist granted]
  rfl

/-- A call that gets the duplicate that it needs does the same with the key in place of NULL. -/
theorem apply_insist {op : Op P (Name κ)} (granted : t.GrantsCall env op) :
    t.apply env.insist op = t.apply env op := by
  cases op with
  | writeValue name value =>
      unfold Hashtable.apply
      dsimp only
      rw [writeValue_insist (granted name value rfl)]
  | inc name =>
      unfold Hashtable.apply Hashtable.inc
      dsimp only
      rw [inc_insist (granted name 1 rfl)]
  | dec name =>
      unfold Hashtable.apply Hashtable.dec
      dsimp only
      rw [inc_insist (granted name (-1) rfl)]
  | remove name =>
      obtain ⟨_ | dup, hash, equals, freeValue, alloc⟩ := env <;> rfl
  | readValue | exists_ | fetchValueHashes | nitems | enumNext => rfl

end Insist

/-- A step that gets the duplicate that it needs is a step with the key in place of NULL. -/
theorem GrantedStep.insist {t t' : Hashtable P κ} {event : Event P κ} (step : GrantedStep env t event t') :
    Step env.insist t event t' := by
  cases step with
  | call readable granted returned => exact .call readable ((apply_insist granted).trans returned)

end Coucal
