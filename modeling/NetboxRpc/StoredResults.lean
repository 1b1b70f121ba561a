import NetboxRpc.SensitiveResults
import NetboxRpc.StaleWriters

/-!
# Where a stored result comes from

A result reaches the row only through the response that a worker records. The response is checked
twice, and the value that the ledger stores is the value that the second check accepted.
-/

namespace NetboxRpc

/-! ## The result of a terminal event -/

/-- The ledger form of the result in a response, accepted by the schema of the procedure. An empty
schema checks nothing. -/
structure Recorded (P : Platform) (ctx : ExecutionContext) (response result : Entries) : Prop where
  ledger : Json.obj result =
    ledgerResult P (resultSchemaStringLimits ctx.resultSchema) (entriesOr response "result")
  valid : ctx.resultSchema.truthy = true → P.schemaError ctx.resultSchema (.obj result) = none

section

variable {P : Platform} {ctx : ExecutionContext} {response : Entries}

theorem valid_of_backendResultSchemaMismatch {schema v : Json}
    (h : backendResultSchemaMismatch P schema v [] = "") (htruthy : schema.truthy = true) :
    P.schemaError schema v = none := by
  unfold backendResultSchemaMismatch at h
  simp only [htruthy, Bool.not_true, Bool.false_eq_true, if_false, if_true] at h
  cases herror : P.schemaError schema v with
  | none => rfl
  | some error =>
    rw [herror] at h
    have hhead := congrArg (fun s => s.toList.head?) h
    simp [clip] at hhead

/-- A response without a mismatch, and with a result, passed both checks. -/
theorem valid_of_responseMismatch (h : responseMismatch P ctx response = "")
    (hresult : entriesOr response "result" ≠ []) (htruthy : ctx.resultSchema.truthy = true) :
    P.schemaError ctx.resultSchema (ledgerResult P (resultSchemaStringLimits ctx.resultSchema)
      (entriesOr response "result")) = none := by
  have hpresent : ∃ entries, Json.find response "result" = some (.obj entries) ∧ entries ≠ [] := by
    unfold entriesOr at hresult
    split at hresult
    · next entries hfind => exact ⟨entries, hfind, hresult⟩
    · exact absurd rfl hresult
  obtain ⟨entries, hfind, hne⟩ := hpresent
  have hskip : skipsResultValidation (responseContract ctx.procedureName) response = false := by
    simp [skipsResultValidation, hfind, hne]
  unfold responseMismatch at h
  simp only [hskip, hfind, Option.isSome_some, Bool.not_false, Bool.true_and, Bool.or_true,
    Bool.true_or, Bool.false_eq_true, if_false] at h
  unfold responseSchemaMismatch at h
  simp only [Bool.not_true, Bool.false_or, decide_eq_true_eq] at h
  split_ifs at h with henvelope hraw
  · exact absurd h henvelope
  · exact absurd h hraw
  · exact valid_of_backendResultSchemaMismatch h htruthy

theorem plainMapping_result (result : Entries) : PlainMapping [("result", Json.obj result)] := by
  refine ⟨List.nodup_singleton _, by simp [maxEventDictItems], fun e he => ?_⟩
  rw [List.mem_singleton.mp he]
  exact isPlainName_of_mem (by simp [eventFieldNames])

theorem ledgerResult_nil (limits : StringLimits) : ledgerResult P limits [] = .obj [] := by
  rw [ledgerResult_eq]
  rfl

/-- What an event stores under `result`: the ledger form of the result it carries. -/
theorem entriesOr_result {data result : Entries} {limits : StringLimits}
    (hplain : PlainMapping data) (hfind : Json.find data "result" = some (.obj result)) :
    Json.obj (entriesOr (redactEventData P (underResult limits) data) "result") =
      ledgerResult P limits result := by
  have hplace : redactLevels P (underResult limits) maxRedactionDepth "result" ["result"]
      (.obj result) = ledgerResult P limits result := by
    rw [ledgerResult, valueOf, find_redactEventData (plainMapping_result result)]
    rfl
  rw [entriesOr, find_redactEventData hplain, hfind, Option.map_some, hplace, ledgerResult_eq]

theorem sets_result_succeeded (result : Entries) (now : DateTime) :
    ∃ r, (projectedEvent P ctx (.executionSucceeded result (.time now))).sets P .result =
      some (.json (.obj r)) ∧
      Json.obj r = ledgerResult P (resultSchemaStringLimits ctx.resultSchema) result :=
  ⟨_, rfl, entriesOr_result (plainMapping_data P (e := .executionSucceeded result (.time now))
    (by simp [DomainEvent.type])) rfl⟩

theorem sets_result_failed (message code : String) (now : DateTime) (result : Entries) :
    ∃ r, (projectedEvent P ctx (.executionFailed message code (.time now) result)).sets P .result =
      some (.json (.obj r)) ∧ (r = [] ∨
        Json.obj r = ledgerResult P (resultSchemaStringLimits ctx.resultSchema) result ∧
          result ≠ []) := by
  have hplain := fun c => plainMapping_data P (e := .executionFailed message c (.time now) result)
    (by simp [DomainEvent.type])
  by_cases hresult : result = []
  · subst hresult
    exact ⟨_, rfl, .inl (entriesOr_redactEventData_of_absent (hplain _) rfl)⟩
  · have hfind : ∀ c, Json.find (DomainEvent.data P
        (.executionFailed message c (.time now) result)) "result" = some (.obj result) := by
      intro c
      simp [DomainEvent.data, DomainEvent.statusEntry, Json.find_cons, hresult]
    exact ⟨_, rfl, .inr ⟨entriesOr_result (hplain _) (hfind _), hresult⟩⟩

theorem sets_result_failed_nil (message code : String) (now : DateTime) :
    (projectedEvent P ctx (.executionFailed message code (.time now) [])).sets P .result =
      some (.json (.obj [])) := by
  obtain ⟨r, hsets, hr | ⟨_, hne⟩⟩ := @sets_result_failed P ctx message code now []
  · rw [hsets, hr]
  · exact absurd rfl hne

/-- The terminal event of a response stores nothing, or a result that passed the checks. -/
theorem sets_result_terminal {events : List DomainEvent} {now : DateTime}
    (h : backendResponseEvents P ctx response (.time now) = some events) :
    ∃ progress last r, events = progress ++ [last] ∧
      (∀ e ∈ progress, e.type = .backendEventRecorded) ∧ IsTerminalOf response (.time now) last ∧
      (projectedEvent P ctx last).sets P .result = some (.json (.obj r)) ∧
      (r = [] ∨ Recorded P ctx response r) := by
  simp only [backendResponseEvents, Option.bind_eq_bind, Option.bind_eq_some_iff,
    Option.pure_def, Option.some.injEq] at h
  obtain ⟨failure, _, rfl⟩ := h
  have hprogress : ∀ e ∈ (if !(responseContract ctx.procedureName).isProtected &&
      !skipsResultValidation (responseContract ctx.procedureName) response then
        backendProgressEvents P response else []), e.type = .backendEventRecorded := by
    intro e he
    split_ifs at he
    · exact type_backendProgressEvents he
    · cases he
  have hrecorded : ∀ r, Json.obj r = ledgerResult P (resultSchemaStringLimits ctx.resultSchema)
      (entriesOr response "result") → responseMismatch P ctx response = "" →
      entriesOr response "result" ≠ [] → Recorded P ctx response r := by
    intro r hr hmismatch hne
    refine ⟨hr, fun htruthy => ?_⟩
    rw [hr]
    exact valid_of_responseMismatch hmismatch hne htruthy
  suffices hlast : ∃ r, (projectedEvent P ctx (backendTerminalEvent P response
      (skipsResultValidation (responseContract ctx.procedureName) response) failure
      (responseMismatch P ctx response) (.time now))).sets P .result = some (.json (.obj r)) ∧
      (r = [] ∨ Recorded P ctx response r) by
    obtain ⟨r, hsets, hr⟩ := hlast
    exact ⟨_, _, r, rfl, hprogress, isTerminalOf_backendTerminalEvent _ _ _ _ _ _, hsets, hr⟩
  unfold backendTerminalEvent
  dsimp only
  by_cases hok : (valueOf response "ok").truthy = true ∧ responseMismatch P ctx response = ""
  · rw [if_pos hok]
    obtain ⟨r, hsets, hr⟩ := @sets_result_succeeded P ctx (entriesOr response "result") now
    refine ⟨r, hsets, ?_⟩
    by_cases hne : entriesOr response "result" = []
    · rw [hne, ledgerResult_nil] at hr
      exact .inl (Json.obj.inj hr)
    · exact .inr (hrecorded r hr hok.2 hne)
  · rw [if_neg hok]
    obtain ⟨r, hsets, hr⟩ := @sets_result_failed P ctx _ _ now _
    refine ⟨r, hsets, hr.imp id ?_⟩
    rintro ⟨hr, hne⟩
    by_cases hnone : responseMismatch P ctx response = ""
    · rw [if_pos hnone] at hr hne
      exact hrecorded r hr hnone hne
    · exact absurd (if_neg hnone) hne

end

/-! ## Runs -/

structure ResultsRecorded (S : Site) (req : ExecutionRequest) (w : World) : Prop where
  row : w.ledger.row.result = [] ∨ ∃ i x response, w.workers i = some x ∧
    x.copy.status.isTerminal = true ∧
    Recorded S.platform (executionContext req x.procedure) response w.ledger.row.result
  copy : ∀ i x, w.workers i = some x → x.copy.result = [] ∨ x.copy.status.isTerminal = true ∧
    ∃ response, Recorded S.platform (executionContext req x.procedure) response x.copy.result

section

variable {S : Site} {req : ExecutionRequest} {w w' : World} {p : Procedure}
  {copy : ProjectionState} {es : List DomainEvent}

theorem Json.eq_nil_of_pyEq {entries : Entries} (h : (Json.obj []).PyEq (.obj entries)) :
    entries = [] := by
  have hentries : ((entries.map fun e => (e.1, e.2.normalize Json.numeric)).insertionSort
      Json.keyLe).length = 0 := by
    rw [Json.PyEq, Json.canon, Json.canon, Json.normalize, Json.normalize,
      Json.normalizeEntries_eq_map, Json.normalizeEntries_eq_map] at h
    rw [← Json.obj.inj h]
    rfl
  rw [List.length_insertionSort, List.length_map] at hentries
  exact List.eq_nil_of_length_eq_zero hentries

theorem result_append_of_silent (h : ∀ e ∈ es, Field.result ∉ e.type.fields) :
    (w.append S req p copy es).1.result = copy.result ∧
      (w.append S req p copy es).2.row.result = w.ledger.row.result := by
  obtain ⟨hcopy, hrow⟩ := @get_append S req w p copy es .result h
  simp only [ProjectionState.get, Stamp.json.injEq, Json.obj.injEq] at hcopy hrow
  exact ⟨hcopy, hrow⟩

/-- A terminal event written through a copy without a result. -/
theorem result_append_last {progress : List DomainEvent} {last : DomainEvent} {r : Entries}
    (hprogress : ∀ e ∈ progress, e.type = .backendEventRecorded)
    (hsets : (projectedEvent S.platform (executionContext req p) last).sets S.platform .result =
      some (.json (.obj r))) (hcopy : copy.result = []) :
    (w.append S req p copy (progress ++ [last])).1.result = r ∧
      (w.append S req p copy (progress ++ [last])).2.row.result =
        if r = [] then w.ledger.row.result else r := by
  have hsilent : ∀ e ∈ progress, Field.result ∉ e.type.fields := by
    intro e he
    rw [hprogress e he]
    exact List.not_mem_nil
  obtain ⟨hcopyKept, hrowKept⟩ := @result_append_of_silent S req w p copy progress hsilent
  have happend : w.append S req p copy (progress ++ [last]) = appendAndProject S.platform
      (executionContext req p) (w.append S req p copy progress).1
      (w.append S req p copy progress).2 last := by
    rw [World.append, appendAll_append, appendAll_cons, appendAll_nil]
    rfl
  have hold : (w.append S req p copy progress).1.get .result = .json (.obj []) := by
    rw [ProjectionState.get, hcopyKept, hcopy]
  have hcopy' := (w.append S req p copy progress).1.get_writeOver
    ((w.append S req p copy progress).1.apply S.platform
      (projectedEvent S.platform (executionContext req p) last))
    (w.append S req p copy progress).1 .result
  have hrow' := @get_row_appendAndProject S.platform (executionContext req p)
    (w.append S req p copy progress).1 (w.append S req p copy progress).2 last .result
  rw [ProjectionState.get_apply, hsets, Option.getD_some, hold] at hcopy'
  rw [hsets, Option.getD_some, hold] at hrow'
  rw [happend]
  by_cases hr : r = []
  · subst hr
    rw [if_pos (.refl _)] at hcopy' hrow'
    rw [if_pos rfl]
    exact ⟨Json.obj.inj (Stamp.json.inj hcopy'),
      (Json.obj.inj (Stamp.json.inj hrow')).trans hrowKept⟩
  · have hne : ¬ (Stamp.json (.obj [])).PyEq (.json (.obj r)) := fun h =>
      hr (Json.eq_nil_of_pyEq h)
    rw [if_neg hne] at hcopy' hrow'
    rw [if_neg hr]
    exact ⟨Json.obj.inj (Stamp.json.inj hcopy'), Json.obj.inj (Stamp.json.inj hrow')⟩

theorem ResultsRecorded.frame (h : ResultsRecorded S req w) (hworkers : w'.workers = w.workers)
    (hrow : w'.ledger.row.result = [] ∨ w'.ledger.row.result = w.ledger.row.result) :
    ResultsRecorded S req w' := by
  refine ⟨?_, ?_⟩
  · rcases hrow with hrow | hrow
    · exact .inl hrow
    · rw [hrow, hworkers]
      exact h.row
  · rw [hworkers]
    exact h.copy

/-- One worker is new or moves on. -/
theorem ResultsRecorded.set (h : ResultsRecorded S req w) {i : ℕ} {y : Worker}
    (hworkers : w'.workers = Function.update w.workers i (some y))
    (hsame : ∀ x, w.workers i = some x → y.procedure = x.procedure ∧
      (x.copy.status.isTerminal = true → y.copy.status.isTerminal = true))
    (hrow : w'.ledger.row.result = w.ledger.row.result ∨ y.copy.status.isTerminal = true ∧
      ∃ response, Recorded S.platform (executionContext req y.procedure) response
        w'.ledger.row.result)
    (hcopy : y.copy.result = [] ∨ y.copy.status.isTerminal = true ∧ ∃ response,
      Recorded S.platform (executionContext req y.procedure) response y.copy.result) :
    ResultsRecorded S req w' := by
  have hself : w'.workers i = some y := by rw [hworkers, Function.update_self]
  refine ⟨?_, fun j z hz => ?_⟩
  · rcases hrow with hrow | ⟨hterm, response, hrecorded⟩
    · rw [hrow]
      rcases h.row with hnil | ⟨j, x, response, hx, hterm, hrecorded⟩
      · exact .inl hnil
      · refine .inr ?_
        by_cases hij : j = i
        · subst hij
          obtain ⟨hproc, hkept⟩ := hsame x hx
          exact ⟨j, y, response, hself, hkept hterm, hproc ▸ hrecorded⟩
        · have hother : w'.workers j = some x := by rw [hworkers, Function.update_of_ne hij, hx]
          exact ⟨j, x, response, hother, hterm, hrecorded⟩
    · exact .inr ⟨i, y, response, hself, hterm, hrecorded⟩
  · by_cases hij : j = i
    · subst hij
      rw [hself] at hz
      rw [← Option.some.inj hz]
      exact hcopy
    · rw [hworkers, Function.update_of_ne hij] at hz
      exact h.copy j z hz

theorem ResultsRecorded.open_copy (h : ResultsRecorded S req w) {i : ℕ} {x : Worker}
    (hx : w.workers i = some x) (hopen : x.copy.status.isTerminal = false) :
    x.copy.result = [] := by
  rcases h.copy i x hx with hnil | ⟨hterm, _⟩
  · exact hnil
  · rw [hopen] at hterm
    cases hterm

/-- What any first part of a worker's events leaves: the results as they were, or, after the last
event of a response, its result. -/
theorem Work.result_append {x x' : Worker} {a : Action} {done : Phase}
    (h : Work S req w x a x' es done) (hnil : x.copy.result = []) (n : ℕ) :
    let s := w.append S req x'.procedure x'.copy (es.take n)
    (s.1.result = [] ∧ s.2.row.result = w.ledger.row.result) ∨
      ∃ i response fate now, a = .record i response fate now ∧ s.1.status.isTerminal = true ∧
        Recorded S.platform (executionContext req x'.procedure) response s.1.result ∧
        s.2.row.result = s.1.result := by
  have hsame : x'.copy = x.copy := by cases h <;> rfl
  have hquiet : ∀ part, (∀ e ∈ part, Field.result ∉ e.type.fields) →
      (w.append S req x'.procedure x'.copy part).1.result = [] ∧
        (w.append S req x'.procedure x'.copy part).2.row.result = w.ledger.row.result := by
    intro part hpart
    obtain ⟨hcopy, hrow⟩ := @result_append_of_silent S req w x'.procedure x'.copy part hpart
    exact ⟨by rw [hcopy, hsame, hnil], hrow⟩
  cases h with
  | prepare | lease =>
    refine .inl (hquiet _ fun e he => ?_)
    rw [List.mem_singleton.mp (List.mem_of_mem_take he)]
    simp [DomainEvent.type, EventType.fields]
  | record j response fate now events hphase hevents =>
    obtain ⟨progress, last, r, rfl, hprogress, hlast, hsets, hr⟩ := sets_result_terminal hevents
    by_cases hn : n ≤ progress.length
    · rw [List.take_append_of_le_length hn]
      refine .inl (hquiet _ fun e he => ?_)
      rw [hprogress e (List.mem_of_mem_take he)]
      exact List.not_mem_nil
    · have hall : (progress ++ [last]).take n = progress ++ [last] :=
        List.take_of_length_le (by simp; omega)
      obtain ⟨t, hstatus, hterm⟩ := hlast.status
      have hend := @status_append_copy S req w x.procedure x.copy progress last t hstatus
      obtain ⟨hcopy, hrow⟩ := @result_append_last S req w x.procedure x.copy progress last r
        hprogress hsets hnil
      rw [hall]
      dsimp only
      rw [hcopy, hend, hrow]
      by_cases hempty : r = []
      · rw [if_pos hempty]
        exact .inl ⟨hempty, rfl⟩
      · rw [if_neg hempty]
        exact .inr ⟨j, response, fate, now, rfl, hterm, hr.resolve_left hempty, rfl⟩

/-- A transaction of a worker, committed or not. -/
theorem ResultsRecorded.work (h : ResultsRecorded S req w) {i : ℕ} {x x' : Worker} {a : Action}
    {fate : Fate} {done : Phase} (hx : w.workers i = some x) (hrunning : x.copy.status = .running)
    (hwork : Work S req w x a x' es done) :
    ResultsRecorded S req (w.writeWorker S req i x' es fate done) := by
  have hnil : x.copy.result = [] := h.open_copy hx (by rw [hrunning]; rfl)
  have hproc : x'.procedure = x.procedure := by cases hwork <;> rfl
  have hsame : ∀ y : Worker, y.procedure = x'.procedure → ∀ z, w.workers i = some z →
      y.procedure = z.procedure ∧
        (z.copy.status.isTerminal = true → y.copy.status.isTerminal = true) := by
    intro y hy z hz
    rw [hx] at hz
    cases hz
    refine ⟨hy.trans hproc, fun hterm => ?_⟩
    rw [hrunning] at hterm
    cases hterm
  cases fate with
  | commits =>
    have hresult := hwork.result_append hnil es.length
    rw [List.take_length] at hresult
    refine h.set rfl (hsame _ rfl) ?_ ?_
    · rcases hresult with ⟨_, hrow⟩ | ⟨_, response, _, _, _, hterm, hrecorded, hrow⟩
      · exact .inl hrow
      · exact .inr ⟨hterm, response, hrow ▸ hrecorded⟩
    · rcases hresult with ⟨hcopy, _⟩ | ⟨_, response, _, _, _, hterm, hrecorded, _⟩
      · exact .inl hcopy
      · exact .inr ⟨hterm, response, hrecorded⟩
  | aborts n =>
    refine h.set rfl (hsame _ rfl) (.inl rfl) ?_
    rcases hwork.result_append hnil n with ⟨hcopy, _⟩ | ⟨_, response, _, _, _, hterm, hrecorded, _⟩
    · exact .inl hcopy
    · exact .inr ⟨hterm, response, hrecorded⟩

theorem ResultsRecorded.move {a : Action} (hmove : Move S req w a w') (hclaims : Claims w)
    (h : ResultsRecorded S req w) : ResultsRecorded S req w' := by
  cases hmove with
  | load | editProcedure | enqueueLost => exact h.frame rfl (.inr rfl)
  | cancelled he hopen =>
    refine h.frame rfl (.inr (result_append_of_silent ?_).2)
    simp [he, EventType.fields]
  | @failedLocked a message code now hopen _ =>
    refine h.frame rfl ?_
    have hrow := @get_row_appendAndProject S.platform (executionContext req w.procedure)
      w.ledger.row w.ledger (.executionFailed message code (.time now) []) .result
    rw [sets_result_failed_nil, Option.getD_some] at hrow
    split_ifs at hrow
    · exact .inr (Json.obj.inj (Stamp.json.inj hrow))
    · exact .inl (Json.obj.inj (Stamp.json.inj hrow))
  | decided hloaded hpending he =>
    refine h.frame rfl (.inr (result_append_of_silent ?_).2)
    cases he <;> simp [DomainEvent.type, EventType.fields]
  | approvedProtected userId hash at_ reason hpending hs =>
    refine h.frame rfl (.inr ?_)
    rw [hs]
    exact (result_append_of_silent (by simp [DomainEvent.type, EventType.fields])).2
  | enqueued henqueuer =>
    exact h.frame rfl (.inr (result_append_of_silent (by simp [DomainEvent.type, EventType.fields])).2)
  | enqueueRaised henqueuer =>
    exact h.frame rfl (.inr (result_append_of_silent (by simp [DomainEvent.type, EventType.fields])).2)
  | @claimed a i now s hfree hqueued hs =>
    have hempty : w.ledger.row.result = [] := by
      rcases h.row with hnil | ⟨j, x, _, hx, _, _⟩
      · exact hnil
      · have hsettled := hclaims.settled hx
        rw [hqueued] at hsettled
        cases hsettled
    have hkept := @result_append_of_silent S req w w.procedure w.ledger.row
      [.executionStarted (.time now)] (by simp [DomainEvent.type, EventType.fields])
    rw [← hs] at hkept
    refine h.set rfl (fun x hx => ?_) (.inl hkept.2) (.inl (hkept.1.trans hempty))
    rw [hfree] at hx
    cases hx
  | @advanced a i x phase hx hadv =>
    refine h.set rfl (fun z hz => ?_) (.inl rfl) (h.copy i x hx)
    rw [hx] at hz
    cases hz
    exact ⟨rfl, id⟩
  | @called i x hx hphase =>
    refine h.set rfl (fun z hz => ?_) (.inl rfl) (h.copy i x hx)
    rw [hx] at hz
    cases hz
    exact ⟨rfl, id⟩
  | worked hx hrunning ha hwork => exact h.work hx hrunning hwork
  | @failed a i x message code now hx hphase hopen ha =>
    obtain ⟨hcopy, hrow⟩ := @result_append_last S req w x.procedure x.copy []
      (.executionFailed message code (.time now) []) [] (by simp) (sets_result_failed_nil _ _ _)
      (h.open_copy hx hopen)
    refine h.set rfl (fun z hz => ?_) (.inl hrow) (.inl hcopy)
    rw [hx] at hz
    cases hz
    refine ⟨rfl, fun hterm => ?_⟩
    rw [hopen] at hterm
    cases hterm

theorem ResultsRecorded.of_created {normalized : Entries} {target : BackendTarget}
    (h : Created S req p normalized target w) : ResultsRecorded S req w := by
  have hfresh : ResultsRecorded S req (World.fresh p) := ⟨.inl rfl, fun _ _ hx => nomatch hx⟩
  cases h with
  | approval =>
    refine hfresh.frame rfl (.inr (result_append_of_silent ?_).2)
    simp [DomainEvent.type, EventType.fields]
  | direct hopen hs =>
    refine hfresh.frame rfl (.inr ?_)
    rw [hs]
    exact (result_append_of_silent (by simp [DomainEvent.type, EventType.fields])).2

theorem ResultsRecorded.run {normalized : Entries} {target : BackendTarget} {w₀ : World}
    (hcreate : create S req p normalized target = some w₀) (actions : List Action) :
    ResultsRecorded S req (Transition.run (step S req) w₀ actions) := by
  have hstep : ∀ w a w', step S req w a = some w' → Claims w ∧ ResultsRecorded S req w →
      Claims w' ∧ ResultsRecorded S req w' := by
    rintro w a w' hstep ⟨hclaims, hresults⟩
    have hmove := Move.of_step hstep
    exact ⟨hclaims.move hmove, hresults.move hmove hclaims⟩
  have hcreated := Created.of_create hcreate
  exact (Transition.run_invariant hstep actions ⟨.of_created hcreated, .of_created hcreated⟩).2

theorem ResultsRecorded.row_of_running (h : ResultsRecorded S req w) (hclaims : Claims w) {i : ℕ}
    {x : Worker} (hx : w.workers i = some x) (hrunning : x.copy.status = .running) :
    w.ledger.row.result = [] := by
  rcases h.row with hnil | ⟨j, y, _, hy, hterm, _⟩
  · exact hnil
  · have hij := hclaims.unique hx hy
    subst hij
    rw [hx] at hy
    cases hy
    rw [hrunning] at hterm
    cases hterm

end

/-- Whatever result a recorded response leaves, in the row or in the worker's copy, is the ledger
form of its own result, and the procedure's schema accepts it unless that schema is empty. -/
theorem recorded_result_valid {S : Site} {req : ExecutionRequest} {p : Procedure}
    {normalized : Entries} {target : BackendTarget} {w₀ : World}
    (hcreate : create S req p normalized target = some w₀) (actions : List Action) {i : ℕ}
    {x : Worker} {response : Entries} {fate : Fate} {now : DateTime} {w' : World}
    (hx : (Transition.run (step S req) w₀ actions).workers i = some x)
    (hrecord : step S req (Transition.run (step S req) w₀ actions)
      (.record i response fate now) = some w') :
    let ctx := executionContext req x.procedure
    (w'.ledger.row.result ≠ [] → Recorded S.platform ctx response w'.ledger.row.result) ∧
      ∀ y, w'.workers i = some y → y.copy.result ≠ [] →
        Recorded S.platform ctx response y.copy.result := by
  have hclaims := Claims.run hcreate actions
  have hresults := ResultsRecorded.run hcreate actions
  generalize Transition.run (step S req) w₀ actions = w at *
  simp only [step, World.record, hx, Option.bind_eq_bind, Option.bind_some,
    Option.bind_eq_some_iff, Option.guard_eq_some', Option.pure_def, Option.some.injEq] at hrecord
  obtain ⟨_, ⟨hphase, hrunning⟩, events, hevents, rfl⟩ := hrecord
  have hwork := Work.record (w := w) i response fate now events hphase hevents
  have hrow := hresults.row_of_running hclaims hx hrunning
  have hresult := hwork.result_append (hresults.open_copy hx (by rw [hrunning]; rfl))
  have hself : ∀ z y : Worker, (Function.update w.workers i (some z)) i = some y → y = z := by
    intro z y hy
    rw [Function.update_self] at hy
    exact (Option.some.inj hy).symm
  cases fate with
  | commits =>
    have hall := hresult events.length
    rw [List.take_length] at hall
    rcases hall with ⟨hcopy, hkept⟩ | ⟨_, _, _, _, hsame, _, hrecorded, hkept⟩
    · refine ⟨fun hne => absurd (hkept.trans hrow) hne, fun y hy hne => ?_⟩
      rw [hself _ y hy] at hne
      exact absurd hcopy hne
    · cases hsame
      refine ⟨fun _ => ?_, fun y hy _ => ?_⟩
      · exact hkept ▸ hrecorded
      · rw [hself _ y hy]
        exact hrecorded
  | aborts n =>
    refine ⟨fun hne => absurd hrow hne, fun y hy hne => ?_⟩
    rw [hself _ y hy] at hne ⊢
    rcases hresult n with ⟨hcopy, _⟩ | ⟨_, _, _, _, hsame, _, hrecorded, _⟩
    · exact absurd hcopy hne
    · cases hsame
      exact hrecorded

def resultResponse : Entries := [("ok", .bool true), ("result", .obj [("a", .int 1)])]

def checkedProcedure : Procedure :=
  { directProcedure with
    resultSchema := .obj [("type", .str "object"), ("required", .arr [.str "a"])] }

theorem recorded_result_valid_checked : ∃ w₀,
    create default default checkedProcedure [] default = some w₀ ∧
    ∃ w', step default default (Transition.run (step default default) w₀ (dispatchActions 0))
      (.record 0 resultResponse .commits 0) = some w' ∧
      w'.ledger.row.result ≠ [] ∧
      Recorded (default : Site).platform (executionContext default checkedProcedure) resultResponse
        w'.ledger.row.result := by
  have hcreate : create default default checkedProcedure [] default = some _ := rfl
  have hrecord : step default default (Transition.run (step default default)
      ((create default default checkedProcedure [] default).get rfl) (dispatchActions 0))
      (.record 0 resultResponse .commits 0) = some _ := rfl
  have hresult := (recorded_result_valid hcreate (dispatchActions 0) rfl hrecord).1
  exact ⟨_, hcreate, _, hrecord, by decide +kernel, hresult (by decide +kernel)⟩

/-- A schema that rejects every value, which the code takes for no schema. -/
def rejectingProcedure : Procedure := { directProcedure with resultSchema := .bool false }

theorem false_schema_not_checked :
    (create default default rejectingProcedure [] default).map (fun w₀ =>
      let row := (Transition.run (step default default) w₀
        (dispatchActions 0 ++ [.record 0 resultResponse .commits 0])).ledger.row
      (row.status, row.result.length,
        ((default : Site).platform.schemaError rejectingProcedure.resultSchema
          (.obj row.result)).isSome)) = some (.succeeded, 1, true) := by
  decide +kernel

end NetboxRpc
