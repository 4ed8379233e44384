import Mathlib.Algebra.Order.Group.Multiset

namespace Ledger

variable {μ β : Type}

/-- What an event does with a resource. -/
inductive Act (β : Type) where
  | acquire (resource : β)
  | release (resource : β)
  | other
  deriving DecidableEq

variable [DecidableEq β]

/-- The live resources after an act. A resource that is not live cannot be released. -/
def Act.step (live : Multiset β) : Act β → Option (Multiset β)
  | .acquire resource => some (resource ::ₘ live)
  | .release resource => if resource ∈ live then some (live.erase resource) else none
  | .other => some live

/-- The live resources after some events, when each release finds its resource live. -/
def replay (act : μ → Act β) (live : Multiset β) : List μ → Option (Multiset β)
  | [] => some live
  | event :: events => (act event).step live >>= fun next => replay act next events

section Replay

variable {act : μ → Act β} {live middle live' : Multiset β} {event : μ} {before after events : List μ}

@[simp] theorem replay_nil : replay act live [] = some live := rfl

theorem replay_acquire {resource : β} (acquires : act event = .acquire resource) :
    replay act live (event :: events) = replay act (resource ::ₘ live) events := by
  rw [replay, acquires]
  rfl

theorem replay_release {resource : β} (releases : act event = .release resource) :
    replay act (resource ::ₘ live) (event :: events) = replay act live events := by
  rw [replay, releases]
  simp [Act.step]

theorem replay_other (other : act event = .other) : replay act live (event :: events) = replay act live events := by
  rw [replay, other]
  rfl

/-- Events without an act leave the resources. -/
theorem replay_others (others : ∀ event ∈ events, act event = .other) : replay act live events = some live := by
  induction events with
  | nil => rfl
  | cons event events ih =>
      rw [replay_other (others event List.mem_cons_self)]
      exact ih fun event member => others event (List.mem_cons_of_mem _ member)

theorem replay_append (first : replay act live before = some middle) :
    replay act live (before ++ after) = replay act middle after := by
  induction before generalizing live with
  | nil =>
      cases first
      rfl
  | cons event before ih =>
      obtain ⟨next, stepped, rest⟩ := Option.bind_eq_some_iff.mp first
      show (act event).step live >>= _ = _
      rw [stepped]
      exact ih rest

theorem Act.step_frame {act : Act β} (stepped : act.step live = some live') (others : Multiset β) :
    act.step (live + others) = some (live' + others) := by
  cases act with
  | acquire resource =>
      cases stepped
      rw [Act.step, Multiset.cons_add]
  | release resource =>
      rw [Act.step] at stepped ⊢
      split at stepped
      next member =>
        cases stepped
        rw [if_pos (Multiset.mem_add.mpr (.inl member)), Multiset.erase_add_left_pos _ member]
      next => cases stepped
  | other =>
      cases stepped
      rfl

/-- Other resources stay live through a replay. -/
theorem replay_frame (replayed : replay act live events = some live') (others : Multiset β) :
    replay act (live + others) events = some (live' + others) := by
  induction events generalizing live with
  | nil =>
      cases replayed
      rfl
  | cons event events ih =>
      obtain ⟨next, stepped, rest⟩ := Option.bind_eq_some_iff.mp replayed
      show (act event).step (live + others) >>= _ = _
      rw [Act.step_frame stepped]
      exact ih rest

end Replay

end Ledger
