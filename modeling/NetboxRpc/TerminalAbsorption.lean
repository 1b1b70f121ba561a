import NetboxRpc.LifecyclePaths

/-!
# Terminal absorption

A stream is absorbing when nothing that changes the status follows a terminal event. The aggregate
checks the status in memory, so the stream absorbs as long as the writers that hold no lock on the
row write while the status they hold is the stored one: its statuses are then a path of the
lifecycle, on which a terminal status is the last one.
-/

namespace NetboxRpc

def Absorbing (l : List (Option ExecutionStatus)) : Prop :=
  l.Pairwise (fun a b => a.any ExecutionStatus.isTerminal = true → b = none)

theorem not_isTerminal_of_mem_successors {s t : ExecutionStatus} (h : t ∈ s.successors) :
    s.isTerminal = false := by
  cases s <;> first | rfl | cases h

theorem pairwise_not_isTerminal {path : List ExecutionStatus}
    (h : path.IsChain (fun s t => t ∈ s.successors)) :
    path.Pairwise (fun s _ => s.isTerminal = false) := by
  induction h with
  | nil => exact .nil
  | singleton s => exact List.pairwise_singleton _ s
  | cons_cons hst _ ih => exact .cons (fun _ _ => not_isTerminal_of_mem_successors hst) ih

/-- On a path of the lifecycle a terminal status is the last one. -/
theorem LifecyclePath.absorbing {first last : ExecutionStatus} {events : List EventRecord}
    (h : LifecyclePath first last (statusChanges events)) : Absorbing (statuses events) := by
  refine (List.pairwise_filterMap.mp (pairwise_not_isTerminal h.chain)).imp fun hab hterm => ?_
  rename_i a b
  cases a with
  | none => cases hterm
  | some s =>
    cases b with
    | none => rfl
    | some t =>
      rw [Option.any_some, hab s rfl t rfl] at hterm
      cases hterm

theorem pairwise_of_absorbing {events : List EventRecord} (h : Absorbing (statuses events)) :
    events.Pairwise (fun r t => r.isTerminal = true → t.isStatusChanging = false) := by
  refine (List.pairwise_map.mp h).imp fun hrt hterm => ?_
  unfold EventRecord.isStatusChanging
  rw [hrt hterm]
  rfl

theorem count_terminal_le_one {events : List EventRecord} (h : Absorbing (statuses events)) :
    (events.filter EventRecord.isTerminal).length ≤ 1 := by
  have hpair := (pairwise_of_absorbing h).filter EventRecord.isTerminal
  -- Two terminal records would make the second a status change after the first.
  match hl : events.filter EventRecord.isTerminal with
  | [] | [_] => simp
  | r :: t :: rest =>
    rw [hl] at hpair
    have hmem : ∀ u ∈ r :: t :: rest, u.isTerminal = true := fun u hu =>
      (List.mem_filter.mp (hl ▸ hu)).2
    have hsilent := (List.pairwise_cons.mp hpair).1 t List.mem_cons_self
      (hmem r List.mem_cons_self)
    rw [EventRecord.isStatusChanging_of_isTerminal
      (hmem t (List.mem_cons_of_mem r List.mem_cons_self))] at hsilent
    cases hsilent

theorem Numbered.pairwise_lt {events : List EventRecord} (h : Numbered events) :
    events.Pairwise (fun r t => r.sequence < t.sequence) := by
  have hrange : (events.map EventRecord.sequence).Pairwise (· < ·) := by
    rw [h]
    exact List.pairwise_lt_range'
  exact List.pairwise_map.mp hrange

theorem sequence_le_of_absorbing {events : List EventRecord} (h : Absorbing (statuses events))
    (hnum : Numbered events) {t r : EventRecord} (ht : t ∈ events) (hr : r ∈ events)
    (hterm : t.isTerminal = true) (hchange : r.isStatusChanging = true) :
    r.sequence ≤ t.sequence := by
  have hlt := hnum.pairwise_lt
  have hpair := pairwise_of_absorbing h
  obtain ⟨before, after, rfl⟩ := List.append_of_mem ht
  rcases List.mem_append.mp hr with hr | hr
  · exact ((List.pairwise_append.mp hlt).2.2 r hr t List.mem_cons_self).le
  · rcases List.mem_cons.mp hr with rfl | hr
    · exact Nat.le_refl _
    · have hsilent := (List.pairwise_cons.mp (List.pairwise_append.mp hpair).2.1).1 r hr hterm
      rw [hchange] at hsilent
      cases hsilent

/-- In every history whose unlocked writers are fresh, the stream has at most one terminal event,
and no event that changes the status has a larger sequence number. -/
theorem terminal_event_absorbs {S : Site} {req : ExecutionRequest} {p : Procedure}
    {normalized : Entries} {target : BackendTarget} {w₀ : World}
    (hcreate : create S req p normalized target = some w₀) {actions : List Action}
    (hfresh : Transition.Meets (step S req) (fun w a => w.freshWriter a = true) w₀ actions) :
    let events := (Transition.run (step S req) w₀ actions).ledger.events
    (events.filter EventRecord.isTerminal).length ≤ 1 ∧
      ∀ t ∈ events, t.isTerminal = true → ∀ r ∈ events, r.isStatusChanging = true →
        r.sequence ≤ t.sequence := by
  intro events
  have h := World.Walks.run hcreate hfresh
  refine ⟨count_terminal_le_one h.path.absorbing, fun t ht hterm r hr hchange => ?_⟩
  exact sequence_le_of_absorbing h.path.absorbing h.numbered ht hr hterm hchange

theorem terminal_event_absorbs_orderly : ∃ w₀,
    create default default directProcedure [] default = some w₀ ∧
      Transition.Meets (step default default) (fun w a => w.freshWriter a = true) w₀
        orderlyActions ∧
      ((Transition.run (step default default) w₀ orderlyActions).ledger.events.filter
        EventRecord.isTerminal).length ≤ 1 := by
  have hcreate : create default default directProcedure [] default = some _ := rfl
  have hmeets : Transition.Meets (step default default) (fun w a => w.freshWriter a = true)
      ((create default default directProcedure [] default).get rfl) orderlyActions := by
    decide +kernel
  exact ⟨_, hcreate, hmeets, (terminal_event_absorbs hcreate hmeets).1⟩

/-- The worker succeeds while `enqueue` is still returning, and then `enqueue` raises: a failure
follows the success in the stream. -/
theorem terminal_event_after_success :
    (create default default directProcedure [] default).map (fun w₀ =>
      ((Transition.run (step default default) w₀ (dispatchActions 0 ++
        [.record 0 [("ok", .bool true)] .commits 0, .enqueueRaised 0])).ledger.events.filter
          EventRecord.isTerminal).map EventRecord.event) =
      some ["ExecutionSucceeded", "ExecutionEnqueueFailed"] := by
  decide +kernel

end NetboxRpc
