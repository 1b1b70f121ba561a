import NetboxRpc.ProjectedFields
import NetboxRpc.LifecycleMoves
import NetboxRpc.RegexMatches

/-!
# What a recorded response appends

A response adds bounded progress records, which no rebuild sees, and one terminal record. The
projected error code is empty or a catalog code after every step of every run.
-/

namespace NetboxRpc

open Regex

/-! ## Stored names -/

theorem most_nmsSecretReferenceRe : nmsSecretReferenceRe.most = some 47 := by decide +kernel

theorem length_redactBounded_le {word : Char → Bool} {bound : Text → Text} {n : ℕ}
    (hbound : ∀ text, (bound text).length ≤ n) (hn : 47 ≤ n) (text : Text) :
    (redactBounded word bound text).length ≤ n := by
  rcases @redactBounded_cases word bound text with href | hmarker | hfixed
  · exact (Rx.length_le_of_fullmatch most_nmsSecretReferenceRe href).trans hn
  · rw [hmarker]
    exact (show redactionMarker.length ≤ 47 by decide).trans hn
  · rw [← hfixed]
    exact hbound _

theorem length_backendProgressName_le (P : Platform) (item : Entries) :
    (backendProgressName P item).length ≤ 100 := by
  have hstart : backendEventPrefix.length = 9 := by decide
  have hname := @length_redactBounded_le P.word (List.take (100 - 9)) 91
    (List.length_take_le (100 - 9)) (by decide)
    (textOr P item "event" "BackendEventRecorded").toList
  rw [backendProgressName, String.length_append, hstart, String.length_ofList]
  omega

theorem eventName_of_mem_progress {P : Platform} {response : Entries} {e : DomainEvent}
    (he : e ∈ backendProgressEvents P response) :
    ∃ item, e.eventName = backendProgressName P item := by
  unfold backendProgressEvents at he
  split at he
  · obtain ⟨item, _, hitem⟩ := List.mem_filterMap.mp he
    split at hitem
    · rw [← Option.some.inj hitem]
      exact ⟨_, eventName_backendProgressEvent P _⟩
    · cases hitem
  · cases he

theorem length_backendProgressEvents_le (P : Platform) (response : Entries) :
    (backendProgressEvents P response).length ≤ maxBackendEvents := by
  unfold backendProgressEvents
  split
  · exact (List.length_filterMap_le _ _).trans (List.length_take_le _ _)
  · exact Nat.zero_le _

/-! ## Error codes -/

def ValidCode (code : String) : Prop := code = "" ∨ isCatalogErrorCode code = true

def startChars : List Char := [':', '=', '?', '\x7b', '[', '\\', '-']

theorem avoids_backendErrorCodeRe : backendErrorCodeRe.avoids startChars = true := by decide +kernel

theorem most_backendErrorCodeRe : backendErrorCodeRe.most = some 100 := rfl

section

variable {code : String}

theorem isPlainName_of_isCatalogErrorCode (h : isCatalogErrorCode code = true) :
    isPlainName code = true := by
  have hnone := Rx.not_mem_of_fullmatch avoids_backendErrorCodeRe h
  have hzero : ∀ q : Char → Bool, (∀ c, q c = true → c ∈ startChars) →
      code.toList.countP q = 0 := by
    intro q hq
    rw [List.countP_eq_zero]
    exact fun c hc hqc => hnone c hc (hq c hqc)
  have hassign := hzero isAssignment (fun c hc => by grind [isAssignment, startChars])
  have hmark := hzero isStructuralMark (fun c hc => by grind [isStructuralMark, startChars])
  have hdash := hzero (· == '-') (fun c hc => by simp_all [startChars])
  simp only [isPlainName, Bool.and_eq_true, beq_iff_eq, decide_eq_true_eq]
  exact ⟨⟨hassign, hmark⟩, by omega⟩

theorem length_le_of_isCatalogErrorCode (h : isCatalogErrorCode code = true) :
    code.length ≤ 100 := by
  rw [← String.length_toList]
  exact Rx.length_le_of_fullmatch most_backendErrorCodeRe h

theorem ne_empty_of_isCatalogErrorCode (h : isCatalogErrorCode code = true) : code ≠ "" := by
  rintro rfl
  revert h
  decide

theorem limitAt_underResult (limits : StringLimits) {name : String} (h : name ≠ "result") :
    limitAt (underResult limits) [name] = maxEventStringLength := by
  have hnone : (underResult limits).find? (fun l => l.1 == [name]) = none := by
    rw [List.find?_eq_none]
    intro l hl
    obtain ⟨m, _, rfl⟩ := List.mem_map.mp hl
    simp [h.symm]
  rw [limitAt, hnone]
  rfl

theorem orText_of_isCatalogErrorCode (fallback : String) (h : isCatalogErrorCode code = true) :
    DomainEvent.orText code fallback = code := if_neg (ne_empty_of_isCatalogErrorCode h)

/-- A catalog code is read back from its record as it was written. -/
theorem orText_redactEventData_code (P : Platform) {limits : StringLimits} {data : Entries}
    {fallback : String} (hplain : PlainMapping data)
    (hfind : Json.find data "code" = some (.str (DomainEvent.orText code fallback)))
    (hlimit : limitAt limits ["code"] = maxEventStringLength) (h : isCatalogErrorCode code = true) :
    DomainEvent.orText (textOr P (redactEventData P limits data) "code" fallback) fallback =
      code := by
  rw [orText_of_isCatalogErrorCode fallback h] at hfind
  have htext : redactEventText P limits ["code"] code = code := by
    refine redactEventText_of_plain P (isPlainName_of_isCatalogErrorCode h) ?_
    have hlength := length_le_of_isCatalogErrorCode h
    rw [hlimit, maxEventStringLength]
    omega
  have htruthy : (Json.str code).truthy = true := by
    simpa [Json.truthy] using ne_empty_of_isCatalogErrorCode h
  have hread : textOr P (redactEventData P limits data) "code" fallback = code := by
    rw [textOr, find_redactEventData hplain, hfind, Option.map_some,
      redactLevels_str (openName_of_mem (by simp [eventFieldNames])), htext]
    exact if_pos htruthy
  rw [hread, orText_of_isCatalogErrorCode fallback h]

theorem isCatalogErrorCode_ite {fallback : String} (h : isCatalogErrorCode fallback = true) :
    isCatalogErrorCode (if isCatalogErrorCode code then code else fallback) = true := by
  split_ifs with hself
  · exact hself
  · exact h

end

section

variable (P : Platform) (ctx : ExecutionContext)

/-- Whatever an event sets as the error code is valid. -/
theorem validCode_of_sets {e : DomainEvent} {v : Stamp}
    (h : (projectedEvent P ctx e).sets P .errorCode = some v) :
    ∃ code, v = .json (.str code) ∧ ValidCode code := by
  cases e with
  | executionFailed message code finished result =>
    have hcode := @isCatalogErrorCode_ite code "RPC_EXECUTION_FAILED" (by decide)
    have hread := orText_redactEventData_code P
      (plainMapping_data P (e := .executionFailed message _ finished result) (by simp [DomainEvent.type]))
      rfl (limitAt_underResult (resultSchemaStringLimits ctx.resultSchema) (by decide)) hcode
    refine ⟨_, ?_, .inr hcode⟩
    rw [← Option.some.inj h]
    exact congrArg (fun text => Stamp.json (.str text)) hread
  | executionEnqueueFailed message code finished =>
    have hcode := @isCatalogErrorCode_ite code "RPC_ENQUEUE_FAILED" (by decide)
    have hread := @orText_redactEventData_code _ P [] _ _
      (plainMapping_data P (e := .executionEnqueueFailed message _ finished) (by simp [DomainEvent.type]))
      rfl rfl hcode
    refine ⟨_, ?_, .inr hcode⟩
    rw [← Option.some.inj h]
    exact congrArg (fun text => Stamp.json (.str text)) hread
  | executionSucceeded | executionCancelled | executionRejected | executionExpired =>
    exact ⟨"", (Option.some.inj h).symm, .inl rfl⟩
  | _ => cases h

end

/-! ## Every run keeps the error code valid -/

section

variable {P : Platform} {ctx : ExecutionContext}

theorem validCode_appendAndProject {copy : ProjectionState} {ledger : Ledger}
    (h : ValidCode ledger.row.errorCode) (e : DomainEvent) :
    ValidCode (appendAndProject P ctx copy ledger e).2.row.errorCode := by
  have hrow := @get_row_appendAndProject P ctx copy ledger e .errorCode
  cases hsets : (projectedEvent P ctx e).sets P .errorCode with
  | none =>
    rw [hsets, Option.getD_none, if_pos (.refl _)] at hrow
    exact Json.str.inj (Stamp.json.inj hrow) ▸ h
  | some v =>
    obtain ⟨code, rfl, hcode⟩ := validCode_of_sets P ctx hsets
    rw [hsets, Option.getD_some] at hrow
    split_ifs at hrow
    · exact Json.str.inj (Stamp.json.inj hrow) ▸ h
    · exact Json.str.inj (Stamp.json.inj hrow) ▸ hcode

theorem validCode_appendAll {s : ProjectionState × Ledger} (h : ValidCode s.2.row.errorCode)
    (es : List DomainEvent) : ValidCode (appendAll P ctx s es).2.row.errorCode := by
  induction es generalizing s with
  | nil => exact h
  | cons e es ih => exact ih (validCode_appendAndProject h e)

theorem validCode_run {S : Site} {req : ExecutionRequest} {p : Procedure} {normalized : Entries}
    {target : BackendTarget} {w₀ : World} (hcreate : create S req p normalized target = some w₀)
    (actions : List Action) :
    ValidCode (Transition.run (step S req) w₀ actions).ledger.row.errorCode := by
  have hstep : ∀ w a w', step S req w a = some w' → ValidCode w.ledger.row.errorCode →
      ValidCode w'.ledger.row.errorCode := by
    intro w a w' hstep h
    obtain ⟨q, copy, es, hledger⟩ := (Move.of_step hstep).exists_append
    rw [hledger]
    exact validCode_appendAll h es
  refine Transition.run_invariant hstep actions ?_
  have hfresh : ValidCode (World.fresh p).ledger.row.errorCode := .inl rfl
  cases Created.of_create hcreate with
  | approval => exact validCode_appendAll (s := (_, (World.fresh p).ledger)) hfresh _
  | direct hopen hs =>
    rw [hs]
    exact validCode_appendAll (s := (_, (World.fresh p).ledger)) hfresh _

end

/-! ## The shape of a recorded response -/

structure ResponseShape (P : Platform) (ctx : ExecutionContext) (response : Entries)
    (progress : List EventRecord) (terminal : EventRecord) : Prop where
  bounded : progress.length ≤ maxBackendEvents
  withheld : (responseContract ctx.procedureName).isProtected = true ∨
    skipsResultValidation (responseContract ctx.procedureName) response = true → progress = []
  name_length : ∀ r ∈ progress, r.event.length ≤ 100
  not_folded : ∀ r ∈ progress, ∀ before,
    rebuildProjection P (before ++ [r]) = rebuildProjection P before
  terminal_name : terminal.event =
    if (valueOf response "ok").truthy = true ∧ responseMismatch P ctx response = "" then
      EventType.executionSucceeded.eventName
    else EventType.executionFailed.eventName

section

variable {P : Platform} {ctx : ExecutionContext} {response : Entries}

theorem eventName_backendTerminalEvent (skip : Bool) (failure : String × String) (mismatch : String)
    (finishedAt : Stamp) :
    (backendTerminalEvent P response skip failure mismatch finishedAt).eventName =
      if (valueOf response "ok").truthy = true ∧ mismatch = "" then
        EventType.executionSucceeded.eventName
      else EventType.executionFailed.eventName := by
  unfold backendTerminalEvent
  dsimp only
  split_ifs <;> rfl

theorem rebuildProjection_progress {r : EventRecord} {item : Entries}
    (h : r.event = backendProgressName P item) (before : List EventRecord) :
    rebuildProjection P (before ++ [r]) = rebuildProjection P before := by
  rw [rebuildProjection_append, fromRecord, h, backendProgressName, ofName?_backendEventPrefix]
  rfl

theorem responseShape_appendAll {s : ProjectionState × Ledger} {events : List DomainEvent}
    {finishedAt : Stamp} (h : backendResponseEvents P ctx response finishedAt = some events) :
    ∃ progress terminal,
      (appendAll P ctx s events).2.events = s.2.events ++ progress ++ [terminal] ∧
        ResponseShape P ctx response progress terminal := by
  simp only [backendResponseEvents, Option.bind_eq_bind, Option.bind_eq_some_iff,
    Option.pure_def, Option.some.injEq] at h
  obtain ⟨failure, _, rfl⟩ := h
  generalize hshown : (if !(responseContract ctx.procedureName).isProtected &&
    !skipsResultValidation (responseContract ctx.procedureName) response then
      backendProgressEvents P response else []) = shown
  obtain ⟨added, hevents, hnames⟩ := exists_events_appendAll P ctx s (shown ++
    [backendTerminalEvent P response (skipsResultValidation (responseContract ctx.procedureName)
      response) failure (responseMismatch P ctx response) finishedAt])
  rw [List.map_append, List.map_eq_append_iff] at hnames
  obtain ⟨progress, last, rfl, hprogress, hlast⟩ := hnames
  obtain ⟨terminal, rfl, hterminal⟩ := List.map_eq_singleton_iff.mp hlast
  have hlength : progress.length = shown.length := by
    rw [← List.length_map EventRecord.event, hprogress, List.length_map]
  have hname : ∀ r ∈ progress, ∃ item, r.event = backendProgressName P item := by
    intro r hr
    have hmem : r.event ∈ shown.map DomainEvent.eventName := hprogress ▸ List.mem_map_of_mem hr
    obtain ⟨e, he, heq⟩ := List.mem_map.mp hmem
    rw [← hshown] at he
    split_ifs at he
    · obtain ⟨item, hitem⟩ := eventName_of_mem_progress he
      exact ⟨item, heq.symm.trans hitem⟩
    · cases he
  refine ⟨progress, terminal, by rw [hevents, List.append_assoc], ?_, ?_, ?_, ?_, ?_⟩
  · rw [hlength, ← hshown]
    split_ifs
    · exact length_backendProgressEvents_le P response
    · exact Nat.zero_le _
  · intro hwithheld
    have hnone : shown = [] := by
      rw [← hshown]
      rcases hwithheld with hw | hw <;> simp [hw]
    rw [hnone] at hlength
    exact List.length_eq_zero_iff.mp hlength
  · intro r hr
    obtain ⟨item, hitem⟩ := hname r hr
    rw [hitem]
    exact length_backendProgressName_le P item
  · intro r hr
    obtain ⟨item, hitem⟩ := hname r hr
    exact rebuildProjection_progress hitem
  · rw [hterminal]
    exact eventName_backendTerminalEvent _ _ _ _

end

/-- In every run, a call that records a response of a running execution appends bounded progress
records and one terminal record, and leaves a valid error code in the row. -/
theorem response_recording_shape {S : Site} {req : ExecutionRequest} {p : Procedure}
    {normalized : Entries} {target : BackendTarget} {w₀ : World}
    (hcreate : create S req p normalized target = some w₀) (actions : List Action) {i : ℕ}
    {x : Worker} {response : Entries} {now : DateTime} {w' : World}
    (hx : (Transition.run (step S req) w₀ actions).workers i = some x)
    (hrecord : step S req (Transition.run (step S req) w₀ actions)
      (.record i response .commits now) = some w') :
    (∃ progress terminal,
      w'.ledger.events =
        (Transition.run (step S req) w₀ actions).ledger.events ++ progress ++ [terminal] ∧
      ResponseShape S.platform (executionContext req x.procedure) response progress terminal) ∧
    (w'.ledger.row.errorCode = "" ∨ isCatalogErrorCode w'.ledger.row.errorCode = true) := by
  have hbefore := validCode_run hcreate actions
  generalize Transition.run (step S req) w₀ actions = w at *
  simp only [step, World.record, hx, Option.bind_eq_bind, Option.bind_some,
    Option.bind_eq_some_iff, Option.guard_eq_some', Option.pure_def, Option.some.injEq] at hrecord
  obtain ⟨_, _, events, hevents, rfl⟩ := hrecord
  exact ⟨responseShape_appendAll hevents, validCode_appendAll (s := (x.copy, w.ledger)) hbefore events⟩

def progressResponse : Entries :=
  [("ok", .bool true), ("result", .obj []), ("events", .arr [.obj [("event", .str "step")]])]

theorem response_recording_shape_progress : ∃ w₀,
    create default default directProcedure [] default = some w₀ ∧
    ∃ w', step default default (Transition.run (step default default) w₀ (dispatchActions 0))
      (.record 0 progressResponse .commits 0) = some w' ∧
      (w'.ledger.row.errorCode = "" ∨ isCatalogErrorCode w'.ledger.row.errorCode = true) := by
  have hcreate : create default default directProcedure [] default = some _ := rfl
  have hrecord : step default default (Transition.run (step default default)
      ((create default default directProcedure [] default).get rfl) (dispatchActions 0))
      (.record 0 progressResponse .commits 0) = some _ := rfl
  exact ⟨_, hcreate, _, hrecord,
    (response_recording_shape hcreate (dispatchActions 0) rfl hrecord).2⟩

end NetboxRpc
