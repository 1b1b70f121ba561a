import NetboxRpc.LedgerFacts
import NetboxRpc.ReadCommitted
import NetboxRpc.Transition

/-!
# Concurrent appends to the event table

`append_execution_event` reads the next sequence number without a lock, tries the insert up to three
times and reads the number again after each `IntegrityError`. Transactions interleave at every
query: each may append any number of events to any executions and ends by committing or rolling
back. The committed events of every execution are numbered 1, 2, 3, ... all the same.
-/

namespace NetboxRpc

open ReadCommitted

structure StoredEvent where
  execution : ℕ
  record : EventRecord
deriving DecidableEq

namespace StoredEvent

/-- The fields of `netbox_rpc_event_unique_sequence`. -/
def uniqueKey (r : StoredEvent) : ℕ × ℕ := (r.execution, r.record.sequence)

def number (r : StoredEvent) : ℕ := r.record.sequence

def inExecution (execution : ℕ) (r : StoredEvent) : Bool := r.execution = execution

end StoredEvent

/-- A call of `append_execution_event` between two of its queries. -/
structure AppendCall where
  /-- The row to be inserted, with the sequence number last read. -/
  row : StoredEvent
  /-- Rounds of the retry loop that are left. -/
  attempts : ℕ
  /-- The last insert raised `IntegrityError`, and the number has not been read again. -/
  stale : Bool

structure EventTable where
  store : Store ℕ StoredEvent
  /-- The call that each transaction is in. -/
  calls : ℕ → Option AppendCall

namespace EventTable

def empty : EventTable := ⟨⟨[], []⟩, fun _ => none⟩

def events (s : EventTable) (t execution : ℕ) : List EventRecord :=
  ((s.store.visible t).filter (StoredEvent.inExecution execution)).map StoredEvent.record

def committedEvents (s : EventTable) (execution : ℕ) : List EventRecord :=
  (s.store.committed.filter (StoredEvent.inExecution execution)).map StoredEvent.record

def setCall (s : EventTable) (t : ℕ) (call : Option AppendCall) : EventTable :=
  { s with calls := Function.update s.calls t call }

@[simp] theorem calls_setCall_self (s : EventTable) (t : ℕ) (call : Option AppendCall) :
    (s.setCall t call).calls t = call :=
  Function.update_self ..

theorem calls_setCall_of_ne {t t' : ℕ} (h : t' ≠ t) (s : EventTable) (call : Option AppendCall) :
    (s.setCall t call).calls t' = s.calls t' :=
  Function.update_of_ne h ..

end EventTable

inductive AppendAction
  | begin (t execution : ℕ) (level event message : String) (data : Entries) (limits : StringLimits)
  | create (t : ℕ)
  | reread (t : ℕ)
  | raise (t : ℕ)
  | commit (t : ℕ)
  | rollback (t : ℕ)

open EventTable

def beginAppend (P : Platform) (s : EventTable) (t execution : ℕ) (level event message : String)
    (data : Entries) (limits : StringLimits) : EventTable :=
  s.setCall t (some
    { row := ⟨execution, executionEventRecord P (s.events t execution) level event message data
        limits⟩
      attempts := 3
      stale := false })

/-- `RPCExecutionEvent.objects.create` in a savepoint. -/
def createEvent (s : EventTable) (t : ℕ) (call : AppendCall) : Option EventTable :=
  match s.store.insertOutcome StoredEvent.uniqueKey t call.row with
  | .inserted => some { s.setCall t none with store := s.store.insert t call.row }
  | .conflict => some (s.setCall t (some
      { call with attempts := call.attempts - 1, stale := true }))
  | .waits => none

def rereadSequence (s : EventTable) (t : ℕ) (call : AppendCall) : EventTable :=
  let sequence := nextEventSequence (s.events t call.row.execution)
  s.setCall t (some
    { row := { call.row with record := { call.row.record with sequence } }
      attempts := call.attempts
      stale := false })

def appendStep (P : Platform) (s : EventTable) : AppendAction → Option EventTable
  | .begin t execution level event message data limits =>
    if (s.calls t).isNone then
      some (beginAppend P s t execution level event message data limits)
    else none
  | .create t => do
    let call ← s.calls t
    if call.attempts ≠ 0 ∧ call.stale = false then createEvent s t call else none
  | .reread t => do
    let call ← s.calls t
    if call.stale then some (rereadSequence s t call) else none
  | .raise t => do
    let call ← s.calls t
    -- the retries are exhausted: `RPCEventStoreError` leaves the call
    if call.attempts = 0 ∧ call.stale = false then some (s.setCall t none) else none
  | .commit t =>
    if (s.calls t).isNone then some { s with store := s.store.commit t } else none
  | .rollback t => some { s.setCall t none with store := s.store.rollback t }

/-! ## The invariant -/

def EventTable.ofExecution (s : EventTable) (execution : ℕ) : Store ℕ StoredEvent :=
  s.store.restrict (StoredEvent.inExecution execution)

/-- A number that was read is at most the next one its transaction would read now: what it sees
only grows while it is in a call. -/
def AppendCall.Within (call : AppendCall) (s : EventTable) (t : ℕ) : Prop :=
  1 ≤ call.row.number ∧
    call.row.number ≤ ((s.ofExecution call.row.execution).visible t).length + 1

structure GapFree (s : EventTable) : Prop where
  contiguous : ∀ execution, Contiguous StoredEvent.number (s.ofExecution execution)
  within : ∀ t call, s.calls t = some call → call.Within s t

theorem EventTable.events_eq (s : EventTable) (t execution : ℕ) :
    s.events t execution = ((s.ofExecution execution).visible t).map StoredEvent.record := by
  rw [EventTable.events, EventTable.ofExecution, Store.visible_restrict]

theorem GapFree.nextEventSequence {s : EventTable} (h : GapFree s) (t execution : ℕ) :
    nextEventSequence (s.events t execution) =
      ((s.ofExecution execution).visible t).length + 1 := by
  have hnumbered : Numbered (s.events t execution) := by
    unfold Numbered
    rw [s.events_eq, List.map_map, List.length_map]
    exact (h.contiguous execution).visible t
  rw [hnumbered.nextEventSequence, s.events_eq, List.length_map]

theorem GapFree.within_of_next {s : EventTable} (h : GapFree s) {t : ℕ} {call : AppendCall}
    (hnumber : call.row.number = NetboxRpc.nextEventSequence (s.events t call.row.execution)) :
    call.Within s t := by
  rw [h.nextEventSequence] at hnumber
  constructor
  · omega
  · omega

/-! ### Steps that leave the rows alone -/

theorem GapFree.setCall {s : EventTable} (h : GapFree s) {t : ℕ} {call : Option AppendCall}
    (hcall : ∀ c, call = some c → c.Within s t) : GapFree (s.setCall t call) := by
  refine ⟨h.contiguous, ?_⟩
  intro t' c hc
  by_cases ht : t' = t
  · subst ht
    rw [calls_setCall_self] at hc
    exact hcall c hc
  · rw [calls_setCall_of_ne ht] at hc
    exact h.within t' c hc

theorem GapFree.beginAppend {s : EventTable} (h : GapFree s) (P : Platform) (t execution : ℕ)
    (level event message : String) (data : Entries) (limits : StringLimits) :
    GapFree (beginAppend P s t execution level event message data limits) := by
  apply h.setCall
  rintro c ⟨⟩
  exact h.within_of_next rfl

theorem GapFree.rereadSequence {s : EventTable} (h : GapFree s) (t : ℕ) (call : AppendCall) :
    GapFree (rereadSequence s t call) := by
  apply h.setCall
  rintro c ⟨⟩
  exact h.within_of_next rfl

/-! ### Steps that change the rows -/

/-- Rows change, and the calls of other transactions see no less. -/
theorem GapFree.setStore {s : EventTable} (h : GapFree s) {t : ℕ} {store : Store ℕ StoredEvent}
    (hrows : ∀ execution,
      Contiguous StoredEvent.number (store.restrict (StoredEvent.inExecution execution)))
    (hgrows : ∀ t', t' ≠ t → ∀ execution, ((s.ofExecution execution).visible t').length ≤
      ((store.restrict (StoredEvent.inExecution execution)).visible t').length) :
    GapFree { s.setCall t none with store := store } := by
  refine ⟨hrows, ?_⟩
  intro t' c hc
  by_cases ht : t' = t
  · subst ht
    rw [show (s.setCall t' none).calls t' = none from calls_setCall_self ..] at hc
    cases hc
  · have hc' : s.calls t' = some c := (calls_setCall_of_ne ht s none).symm.trans hc
    obtain ⟨hpos, hle⟩ := h.within t' c hc'
    exact ⟨hpos, hle.trans (Nat.succ_le_succ (hgrows t' ht _))⟩

theorem mem_map_uniqueKey_iff {rows : List StoredEvent} {r : StoredEvent} :
    r.uniqueKey ∈ rows.map StoredEvent.uniqueKey ↔
      r.number ∈ (rows.filter (StoredEvent.inExecution r.execution)).map StoredEvent.number := by
  simp only [List.mem_map, List.mem_filter, StoredEvent.uniqueKey, StoredEvent.number,
    StoredEvent.inExecution, Prod.mk.injEq, decide_eq_true_eq]
  constructor
  · rintro ⟨r', hr', he, hn⟩
    exact ⟨r', ⟨hr', he⟩, hn⟩
  · rintro ⟨r', ⟨hr', he⟩, hn⟩
    exact ⟨r', hr', he, hn⟩

theorem mem_pending_uniqueKey_of_restrict {store : Store ℕ StoredEvent} {r : StoredEvent}
    (h : r.number ∈ (store.restrict (StoredEvent.inExecution r.execution)).pending.map
      fun p => p.2.number) : r.uniqueKey ∈ store.pending.map fun p => p.2.uniqueKey := by
  obtain ⟨p, hp, hn⟩ := List.mem_map.mp h
  obtain ⟨hp, he⟩ := List.mem_filter.mp hp
  refine List.mem_map.mpr ⟨p, hp, ?_⟩
  exact Prod.ext (of_decide_eq_true he) hn

/-- An insert that goes through has the next number. -/
theorem GapFree.insert {s : EventTable} (h : GapFree s) {t : ℕ} {call : AppendCall}
    (hcall : s.calls t = some call)
    (hinserted : s.store.insertOutcome StoredEvent.uniqueKey t call.row = .inserted) :
    GapFree { s.setCall t none with store := s.store.insert t call.row } := by
  obtain ⟨hpos, hle⟩ := h.within t call hcall
  have hrows := h.contiguous call.row.execution
  unfold Store.insertOutcome at hinserted
  split_ifs at hinserted with hvisible hpending
  have hnew : call.row.number ∉
      ((s.ofExecution call.row.execution).visible t).map StoredEvent.number := by
    rw [EventTable.ofExecution, Store.visible_restrict]
    exact fun hmem => hvisible (mem_map_uniqueKey_iff.mpr hmem)
  rw [hrows.visible t, List.mem_range'_1] at hnew
  apply h.setStore
  · intro execution
    rw [Store.restrict_insert]
    split_ifs with hexecution
    · obtain rfl : call.row.execution = execution := of_decide_eq_true hexecution
      refine hrows.insert (by omega) ?_
      exact fun hmem => hpending (mem_pending_uniqueKey_of_restrict hmem)
    · exact h.contiguous execution
  · intro t' ht execution
    rw [Store.visible_restrict, Store.visible_insert_of_ne ht, EventTable.ofExecution,
      Store.visible_restrict]

theorem GapFree.createEvent {s s' : EventTable} (h : GapFree s) {t : ℕ} {call : AppendCall}
    (hcall : s.calls t = some call) (hstep : createEvent s t call = some s') : GapFree s' := by
  unfold NetboxRpc.createEvent at hstep
  cases houtcome : s.store.insertOutcome StoredEvent.uniqueKey t call.row with
  | inserted =>
    rw [houtcome] at hstep
    obtain rfl := Option.some.inj hstep
    exact h.insert hcall houtcome
  | conflict =>
    rw [houtcome] at hstep
    obtain rfl := Option.some.inj hstep
    apply h.setCall
    rintro c ⟨⟩
    exact h.within t call hcall
  | waits =>
    rw [houtcome] at hstep
    cases hstep

theorem GapFree.rollback {s : EventTable} (h : GapFree s) (t : ℕ) :
    GapFree { s.setCall t none with store := s.store.rollback t } := by
  apply h.setStore
  · intro execution
    rw [Store.restrict_rollback]
    exact (h.contiguous execution).rollback t
  · intro t' ht execution
    rw [Store.restrict_rollback, Store.visible_rollback_of_ne ht]
    rfl

theorem GapFree.commit {s : EventTable} (h : GapFree s) {t : ℕ} (hcall : s.calls t = none) :
    GapFree { s with store := s.store.commit t } := by
  have hsame : s.setCall t none = s := by
    rw [EventTable.setCall, ← hcall, Function.update_eq_self]
  have hcommit : GapFree { s.setCall t none with store := s.store.commit t } := by
    apply h.setStore
    · intro execution
      rw [Store.restrict_commit]
      exact (h.contiguous execution).commit t
    · intro t' ht execution
      rw [Store.restrict_commit, Store.visible_commit_of_ne ht, EventTable.ofExecution]
      simp only [Store.visible, List.length_append]
      omega
  rwa [hsame] at hcommit

theorem GapFree.appendStep {P : Platform} {s s' : EventTable} {action : AppendAction}
    (hstep : appendStep P s action = some s') (h : GapFree s) : GapFree s' := by
  cases action with
  | begin t execution level event message data limits =>
    obtain ⟨-, hs'⟩ := Option.ite_none_right_eq_some.mp hstep
    obtain rfl := Option.some.inj hs'
    exact h.beginAppend P t execution level event message data limits
  | create t =>
    obtain ⟨call, hcall, hstep⟩ := Option.bind_eq_some_iff.mp hstep
    obtain ⟨-, hcreate⟩ := Option.ite_none_right_eq_some.mp hstep
    exact h.createEvent hcall hcreate
  | reread t =>
    obtain ⟨call, hcall, hstep⟩ := Option.bind_eq_some_iff.mp hstep
    obtain ⟨-, hs'⟩ := Option.ite_none_right_eq_some.mp hstep
    obtain rfl := Option.some.inj hs'
    exact h.rereadSequence t call
  | raise t =>
    obtain ⟨call, hcall, hstep⟩ := Option.bind_eq_some_iff.mp hstep
    obtain ⟨-, hs'⟩ := Option.ite_none_right_eq_some.mp hstep
    obtain rfl := Option.some.inj hs'
    apply h.setCall
    intro c hc
    cases hc
  | commit t =>
    obtain ⟨hnone, hs'⟩ := Option.ite_none_right_eq_some.mp hstep
    obtain rfl := Option.some.inj hs'
    exact h.commit (Option.isNone_iff_eq_none.mp hnone)
  | rollback t =>
    obtain rfl := Option.some.inj hstep
    exact h.rollback t

theorem gapFree_empty : GapFree EventTable.empty := by
  constructor
  · intro execution
    exact Contiguous.empty
  · intro t call hcall
    cases hcall

/-- After any interleaving of appends, commits and rollbacks the committed events of every
execution are numbered 1, ..., n. -/
theorem committed_events_gap_free (P : Platform) (actions : List AppendAction) (execution : ℕ) :
    ((Transition.run (appendStep P) EventTable.empty actions).committedEvents execution).map
        EventRecord.sequence =
      List.range' 1 ((Transition.run (appendStep P) EventTable.empty actions).committedEvents
        execution).length := by
  have hrun : GapFree (Transition.run (appendStep P) EventTable.empty actions) :=
    Transition.run_invariant (fun _ _ _ => GapFree.appendStep) actions gapFree_empty
  have hcommitted := (hrun.contiguous execution).committed
  rw [EventTable.committedEvents, List.map_map, List.length_map]
  exact hcommitted

end NetboxRpc
