import Coucal.Abstract.Client

namespace Coucal

open Outcome

variable {P : Platform} {κ : Type} {env : Env P κ} {lawful : env.Lawful}

/-- A call that adds no entry leaves each pointer where it points. -/
def Stays (env : Env P κ) (t t' : Hashtable P κ) : Prop :=
  ¬ t.used < t'.used → ∀ pointer, t.Points env pointer → t'.Points env pointer

/-- What a call of a session has done to the table, on the map and with the pointers. -/
structure Served (lawful : env.Lawful) (held : List (Slot × Key κ)) (t : Hashtable P κ) (map : FiniteMap lawful)
    (request : Request P (Key κ)) (answer : Answer P) (t' : Hashtable P κ) (map' : FiniteMap lawful) : Prop where
  serves : FiniteMap.Serves lawful held map request answer map'
  shows : Shows lawful t' map'
  points : ∀ pointer ∈ heldAfter env (t.used < t'.used) held request answer, t'.Points env pointer

section Calls

variable {t t' : Hashtable P κ} {map : FiniteMap lawful} {held : List (Slot × Key κ)} {name : Name κ}

theorem WriteOutcome.stays {value : Value P} {added : Bool} (inv : Inv env t)
    (outcome : WriteOutcome env t name value added t') : Stays env t t' := by
  intro same pointer points
  cases outcome with
  | @replaced slot => exact points.setValue slot value
  | added missing effect => exact absurd (effect.used_eq inv ▸ Nat.lt_succ_self _) same

theorem IncOutcome.stays {inc value : Value P} (inv : Inv env t)
    (outcome : IncOutcome env t name inc value t') : Stays env t t' := by
  intro same pointer points
  cases outcome with
  | @present slot entry => exact points.setValue slot (entry.value + inc)
  | created missing effect => exact absurd (effect.used_eq inv ▸ Nat.lt_succ_self _) same

/-- A step of the map that counts has one outcome. -/
theorem FiniteMap.Step.counted {map' : FiniteMap lawful} {op : Op P (Key κ)} {key : Key κ}
    {inc value : Value P} (counts : Contents.Counts op key inc)
    (step : FiniteMap.Step lawful map (op, .int (value.setWidth P.intSize)) map') :
    value.setWidth P.intSize = ((map.find key).getD 0 + inc).setWidth P.intSize ∧
      map' = map.insert (Quotient.mk _ key) ((map.find key).getD 0 + inc) := by
  generalize answer : Reply.int (κ := κ) (value.setWidth P.intSize) = reply at step
  cases counts <;> cases step with
  | count counts =>
      cases counts
      exact ⟨Reply.int.inj answer, rfl⟩

/-- The pointers of a call that adds to no other kind. -/
theorem Stays.after (stays : Stays env t t') (points : ∀ pointer ∈ held, t.Points env pointer)
    {request : Request P (Key κ)} {answer : Answer P} (silent : answer.place? = none) :
    ∀ pointer ∈ heldAfter env (t.used < t'.used) held request answer, t'.Points env pointer := by
  apply heldAfter_points points
  · intro same pointer _ before
    exact stays (by simpa using same) pointer before
  · intro key slot _ returned
    rw [returned] at silent
    cases silent

theorem Stays.refl (t : Hashtable P κ) : Stays env t t := fun _ _ points => points

/-- A write of any of the five kinds. -/
theorem Shows.wrote (shows : Shows lawful t map) (readable : t.Readable name) {value : Value P} {added : Bool}
    (returned : t.writeValue env name value = .ok (added, t')) :
    added = (map.find (t.key name)).isNone ∧ Shows lawful t' (map.insert (Quotient.mk _ (t.key name)) value) ∧
      Stays env t t' := by
  obtain ⟨flag, after⟩ := (shows.write name readable value).of_ok returned
  exact ⟨flag, after, (writeValue_outcome lawful.dupReturns shows.inv readable returned).stays shows.inv⟩

theorem Shows.fetched (shows : Shows lawful t map) (name : Name κ) :
    (t.fetchValue env name).isSome = (map.find (t.key name)).isSome := by
  rw [← shows.readValue_eq, Hashtable.readValue, Option.isSome_map]

theorem Shows.fetchedHashes (shows : Shows lawful t map) (name : Name κ) (hashes : Hashkeys P) :
    (t.fetchValueHashes env name hashes).isSome =
      (decide (hashes = env.hash (t.key name)) && (map.find (t.key name)).isSome) := by
  have observed : Effect env t (.fetchValueHashes name hashes)
    (.value ((t.fetchValueHashes env name hashes).map fun slot => (t.item slot).value)) t := .observe rfl rfl
  obtain ⟨map', step, -⟩ := shows.effect observed
  change FiniteMap.Step lawful map (.fetchValueHashes (t.key name) hashes, _) map' at step
  generalize answer : Reply.value (κ := κ) _ = reply at step
  cases step with
  | fetchValueHashes =>
      have same := congrArg Option.isSome (Reply.value.inj answer)
      rw [Option.isSome_map] at same
      rw [same]
      by_cases own : hashes = env.hash (t.key name) <;> simp [own]
  | count => cases answer

theorem read_eq (shows : Shows lawful t map) (name : Name κ) :
    t.read env name = ((map.find (t.key name)).isSome, (map.find (t.key name)).getD 0) := by
  unfold Hashtable.read
  rw [shows.readValue_eq]
  cases map.find (t.key name) <;> rfl

theorem readPvoid_eq (shows : Shows lawful t map) (name : Name κ) :
    t.readPvoid env name = ((map.find (t.key name)).isSome, (map.find (t.key name)).getD 0) :=
  read_eq shows name

/-- The pointers after a fetch, which changes nothing. -/
theorem fetched_points (inv : Inv env t) (points : ∀ pointer ∈ held, t.Points env pointer) {hashes : Hashkeys P}
    {request : Request P (Key κ)}
    (fetches : ∀ key, request = .fetchValue key ∨ (∃ hashes, request = .fetchValueHashes key hashes) →
      key = t.key name) :
    ∀ pointer ∈ heldAfter env (t.used < t.used) held request (.place (t.locate env name hashes)),
      t.Points env pointer := by
  apply heldAfter_points points
  · intro _ pointer _ before
    exact before
  · intro key slot fetched returned
    rw [fetches key fetched]
    exact .of_locate inv (Answer.place.inj returned)

/-- A pointer that a client holds leads to the value of its key. -/
theorem Shows.pointed (shows : Shows lawful t map) {place : Slot} {key : Key κ}
    (points : t.Points env (place, key)) : map.find key = some (t.item place).value := by
  obtain ⟨inside, entry, stored, equal⟩ := points
  obtain ⟨_, _, _, value, _⟩ := Hashtable.item_of_entryAt stored
  rw [value]
  exact (shows.represents.find_eq _ _).mpr ⟨entry, Hashtable.mem_entries.mpr ⟨place, inside, stored⟩, equal, rfl⟩

/-- An assignment through a pointer binds its key to the value. -/
theorem Shows.assigned (shows : Shows lawful t map) {place : Slot} {key : Key κ}
    (points : t.Points env (place, key)) (value : Value P) :
    Shows lawful (t.assign place value) (map.insert (Quotient.mk _ key) value) := by
  obtain ⟨inside, entry, stored, equal⟩ := points
  have keyed := shows.inv.keyed
  have represents := shows.represents
  rw [Hashtable.entries_eq_cons inside stored] at keyed represents
  have after : FiniteMap.Represents (map.insert (Quotient.mk _ key) value) _ := represents.setValue keyed equal
  rw [← Hashtable.entries_setValue inside stored] at after
  exact ⟨shows.inv.setValue inside stored value (t.setValue place value).calls, after⟩

theorem readptr_eq (shows : Shows lawful t map) (name : Name κ) :
    t.readptr env name = (decide ((map.find (t.key name)).getD 0 ≠ 0), (map.find (t.key name)).getD 0) := by
  unfold Hashtable.readptr
  rw [read_eq shows]
  cases map.find (t.key name) with
  | none => rfl
  | some value => by_cases zero : value = 0 <;> simp [zero]

theorem getIntptr_eq (shows : Shows lawful t map) (name : Name κ) :
    t.getIntptr env name = (map.find (t.key name)).getD 0 := by
  unfold Hashtable.getIntptr
  rw [read_eq shows]
  cases map.find (t.key name) <;> rfl

theorem getPvoid_eq (shows : Shows lawful t map) (name : Name κ) :
    t.getPvoid env name = (map.find (t.key name)).getD 0 := getIntptr_eq shows name

/-- A call that only reads serves from the map. -/
theorem Served.quiet {request : Request P (Key κ)} {answer : Answer P} (shows : Shows lawful t map)
    (points : ∀ pointer ∈ held, t.Points env pointer)
    (serves : FiniteMap.Serves lawful held map request answer map) (silent : answer.place? = none) :
    ∃ map', Served lawful held t map request answer t map' :=
  ⟨map, serves, shows, (Stays.refl t).after points silent⟩

/-- A call that stores a value binds the key, and answers whether it was absent. -/
theorem Served.write {request : Request P (Key κ)} {answer : Answer P} {value : Value P} {added : Bool}
    (shows : Shows lawful t map) (points : ∀ pointer ∈ held, t.Points env pointer) (readable : t.Readable name)
    (returned : t.writeValue env name value = .ok (added, t'))
    (serves : added = (map.find (t.key name)).isNone →
      FiniteMap.Serves lawful held map request answer (map.insert (Quotient.mk _ (t.key name)) value))
    (silent : answer.place? = none) :
    ∃ map', Served lawful held t map request answer t' map' := by
  obtain ⟨flag, after, stays⟩ := shows.wrote readable returned
  exact ⟨_, serves flag, after, stays.after points silent⟩

/-- A call that counts binds the key to the new count. -/
theorem Served.count {op : Op P (Name κ)} {inc value : Value P} {request : Request P (Key κ)}
    (shows : Shows lawful t map) (points : ∀ pointer ∈ held, t.Points env pointer)
    (outcome : IncOutcome env t name inc value t') (effect : Effect env t op (.int (value.setWidth P.intSize)) t')
    (counts : Contents.Counts (op.map t.key) (t.key name) inc)
    (serves : FiniteMap.Serves lawful held map request
      (.int (((map.find (t.key name)).getD 0 + inc).setWidth P.intSize))
      (map.insert (Quotient.mk _ (t.key name)) ((map.find (t.key name)).getD 0 + inc))) :
    ∃ map', Served lawful held t map request (.int (value.setWidth P.intSize)) t' map' := by
  obtain ⟨map', step, after⟩ := shows.effect effect
  obtain ⟨same, rfl⟩ := step.counted counts
  rw [same]
  exact ⟨_, serves, after, (outcome.stays shows.inv).after points rfl⟩

/-- Each call that returns is a step of the map, and the pointers that the client keeps still point. -/
theorem serve_spec {request : Request P (Name κ)} {answer : Answer P} (shows : Shows lawful t map)
    (points : ∀ pointer ∈ held, t.Points env pointer)
    (readable : ∀ name, request.name? = some name → t.Readable name)
    (valid : ∀ place ∈ request.place?, ∃ pointer ∈ held, pointer.1 = place)
    (returned : t.serve env request = .ok (answer, t')) :
    ∃ map', Served lawful held t map (request.map t.key) answer t' map' := by
  cases request with
  | writeValue name value =>
      obtain ⟨⟨added, s⟩, written, rest⟩ := bind_eq_ok.mp returned
      cases rest
      exact Served.write shows points (readable name rfl) written (fun flag => flag ▸ .writeValue _ value) rfl
  | write name value =>
      obtain ⟨⟨added, s⟩, written, rest⟩ := bind_eq_ok.mp returned
      cases rest
      exact Served.write shows points (readable name rfl) written (fun flag => flag ▸ .write _ value) rfl
  | writePvoid name value =>
      obtain ⟨⟨added, s⟩, written, rest⟩ := bind_eq_ok.mp returned
      cases rest
      exact Served.write shows points (readable name rfl) written (fun flag => flag ▸ .writePvoid _ value) rfl
  | add name value =>
      obtain ⟨s, added, rest⟩ := bind_eq_ok.mp returned
      obtain ⟨⟨flag, s'⟩, written, rest'⟩ := bind_eq_ok.mp added
      cases rest'
      cases rest
      exact Served.write shows points (readable name rfl) written (fun _ => .add _ value) rfl
  | addPvoid name value =>
      obtain ⟨s, added, rest⟩ := bind_eq_ok.mp returned
      obtain ⟨⟨flag, s'⟩, written, rest'⟩ := bind_eq_ok.mp added
      cases rest'
      cases rest
      exact Served.write shows points (readable name rfl) written (fun _ => .addPvoid _ value) rfl
  | readValue name =>
      cases returned
      rw [shows.readValue_eq]
      exact Served.quiet shows points (.readValue _) rfl
  | read name =>
      cases returned
      rw [read_eq shows]
      exact Served.quiet shows points (.read _) rfl
  | readptr name =>
      cases returned
      rw [readptr_eq shows]
      exact Served.quiet shows points (.readptr _) rfl
  | getIntptr name =>
      cases returned
      rw [getIntptr_eq shows]
      exact Served.quiet shows points (.getIntptr _) rfl
  | readPvoid name =>
      cases returned
      rw [readPvoid_eq shows]
      exact Served.quiet shows points (.readPvoid _) rfl
  | getPvoid name =>
      cases returned
      rw [getPvoid_eq shows]
      exact Served.quiet shows points (.getPvoid _) rfl
  | exists_ name =>
      cases returned
      rw [shows.exists_eq]
      exact Served.quiet shows points (.exists_ _) rfl
  | nitems =>
      cases returned
      rw [Hashtable.nitems, shows.used_eq]
      exact Served.quiet shows points .nitems rfl
  | remove name =>
      obtain ⟨⟨removed, s⟩, deleted, rest⟩ := bind_eq_ok.mp returned
      obtain ⟨flag, after⟩ := (shows.remove name).of_ok deleted
      have outcome := (remove_spec shows.inv).of_ok deleted
      cases rest
      change removed = _ at flag
      rw [flag]
      refine ⟨_, .remove _, after, heldAfter_points points ?_ ?_⟩
      · intro _ pointer apart before
        exact before.remove lawful shows.inv outcome (apart _ rfl)
      · intro _ slot _ placed
        cases placed
  | inc name =>
      obtain ⟨⟨number, s⟩, counted, rest⟩ := bind_eq_ok.mp returned
      obtain ⟨⟨value, s'⟩, counted', rest'⟩ := bind_eq_ok.mp counted
      have outcome := (inc_spec (fun _ => lawful.dupReturns.grants t name) shows.inv
        (readable name rfl)).of_ok counted'
      cases rest'
      cases rest
      exact Served.count shows points outcome (Effect.inc outcome) (.inc _) (.inc _)
  | dec name =>
      obtain ⟨⟨number, s⟩, counted, rest⟩ := bind_eq_ok.mp returned
      obtain ⟨⟨value, s'⟩, counted', rest'⟩ := bind_eq_ok.mp counted
      have outcome := (inc_spec (fun _ => lawful.dupReturns.grants t name) shows.inv
        (readable name rfl)).of_ok counted'
      cases rest'
      cases rest
      exact Served.count shows points outcome (Effect.dec outcome) (.dec _) (.dec _)
  | fetchValue name =>
      cases returned
      refine ⟨map, .fetchValue _ _ (shows.fetched name), shows, ?_⟩
      apply fetched_points shows.inv points
      rintro key (same | ⟨_, same⟩) <;> cases same
      rfl
  | fetchValueHashes name hashes =>
      cases returned
      refine ⟨map, .fetchValueHashes _ _ _ (shows.fetchedHashes name hashes), shows, ?_⟩
      apply fetched_points shows.inv points
      rintro key (same | ⟨_, same⟩) <;> cases same
      rfl
  | load place =>
      obtain ⟨⟨place, key⟩, holds, rfl⟩ := valid place rfl
      cases returned
      exact Served.quiet shows points (.load holds (shows.pointed (points _ holds))) rfl
  | assign place value =>
      obtain ⟨⟨place, key⟩, holds, rfl⟩ := valid place rfl
      cases returned
      have bound := shows.pointed (points _ holds)
      refine ⟨_, .assign holds (bound.symm ▸ rfl) value, shows.assigned (points _ holds) value, ?_⟩
      have stays : Stays env t (t.assign place value) := fun _ pointer before => before.setValue place value
      exact stays.after points rfl

end Calls

/-- A session and the client that it stands for: the table shows the map, and the pointers point. -/
structure Session.Shows (lawful : env.Lawful) (session : Session P κ) (client : Client lawful) : Prop where
  shows : Coucal.Shows lawful session.table client.map
  held : client.held = session.held
  points : ∀ pointer ∈ session.held, session.table.Points env pointer

/-- A call of a session is a call of its client. -/
theorem Session.Step.simulated {session session' : Session P κ} {event : Request P (Key κ) × Answer P}
    {client : Client lawful} (shows : session.Shows lawful client) (step : Session.Step env session event session') :
    ∃ client', Client.Step lawful client event client' ∧ session'.Shows lawful client' := by
  cases step with
  | @call _ request answer readable returns =>
      obtain ⟨_, valid, rest⟩ := bind_eq_ok.mp returns
      obtain ⟨⟨answer', t'⟩, returned, same⟩ := bind_eq_ok.mp rest
      cases same
      obtain ⟨map', served⟩ := serve_spec shows.shows shows.points readable (guard_eq_ok.mp valid) returned
      have serves := served.serves
      rw [← shows.held] at serves
      refine ⟨_, .call serves, served.shows, ?_, served.points⟩
      dsimp only
      rw [shows.held, ← shows.shows.used_eq, ← served.shows.used_eq]

/-- Each run of a client that uses only the pointers it holds, through the whole interface, is a run of a
finite map, and both hold the same pointers. -/
theorem session_refines_map {initialSize : Nat} {created : Hashtable P κ} {session : Session P κ}
    {events : List (Request P (Key κ) × Answer P)} (lawful : env.Lawful)
    (new : Hashtable.new env initialSize = some created)
    (run : Session.Run env ⟨created, []⟩ events session) :
    ∃ client : Client lawful, Client.Run lawful ⟨∅, []⟩ events client ∧ client.held = session.held ∧
      client.map.Represents session.table.entries := by
  have start : Session.Shows lawful ⟨created, []⟩ ⟨∅, []⟩ :=
    ⟨Shows.new new, rfl, fun _ member => absurd member List.not_mem_nil⟩
  obtain ⟨client, simulated, shows⟩ := run.simulate (Session.Shows lawful)
    (fun _ _ _ _ _ shows step => step.simulated shows) start
  exact ⟨client, simulated, shows.held, shows.shows.represents⟩

/-- A value changes through its pointer after a removal of another key. The pointer is lost with the next
entry that is added. -/
theorem session_refines_map_lengths :
    ∃ (session : Session Platform.lp64 Empty) (client : Client (Env.strings_lawful _ _ _ : Env.lengths.Lawful)),
      Client.Run _ ⟨∅, []⟩
        [(.write (.string (CString.read [97])) 5, .flag true),
          (.addPvoid (.string (CString.read [98, 98])) 6, .done),
          (.fetchValue (.string (CString.read [97])), .place (some (.table 1))),
          (.remove (.string (CString.read [98, 98])), .flag true), (.assign (.table 1) 0, .done),
          (.readptr (.string (CString.read [97])), .delivered false 0),
          (.load (.table 1), .word 0), (.inc (.string (CString.read [])), .int 1)] client ∧
      client.held = session.held ∧ session.held = [] := by
  have answers : (Hashtable.new Env.lengths 0).bind (fun created =>
      ((Session.replay Env.lengths ⟨created, []⟩
        [.write (.string (CString.read [97])) 5, .addPvoid (.string (CString.read [98, 98])) 6,
          .fetchValue (.string (CString.read [97])), .remove (.string (CString.read [98, 98])),
          .assign (.table 1) 0, .readptr (.string (CString.read [97])), .load (.table 1),
          .inc (.string (CString.read []))]).toOption.map fun result => (result.1, result.2.held))) =
      some ([.flag true, .done, .place (some (.table 1)), .flag true, .done, .delivered false 0, .word 0,
        .int 1], []) := by
    decide +kernel
  obtain ⟨created, new, facts⟩ := Option.bind_eq_some_iff.mp answers
  obtain ⟨⟨_, session⟩, completed, same⟩ := Option.map_eq_some_iff.mp facts
  obtain ⟨rfl, released⟩ := Prod.mk.inj same
  obtain ⟨client, refined, held, -⟩ := session_refines_map (Env.strings_lawful _ _ _) new
    (Session.replay_run (toOption_eq_some.mp completed))
  exact ⟨session, client, refined, held, released⟩

end Coucal
