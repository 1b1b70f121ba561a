import NetboxRpc.Procedures
import NetboxRpc.Projection
import NetboxRpc.Redaction

/-!
# The event store

`event_store.py`: appending one redacted event and projecting it onto the execution, and the
recorders built on that.
-/

namespace NetboxRpc

open Regex

inductive EventLevel
  | debug
  | info
  | warning
  | error
deriving DecidableEq, Repr

def eventLevel : String → EventLevel
  | "debug" => .debug
  | "warning" => .warning
  | "error" => .error
  | _ => .info

def EventLevel.value : EventLevel → String
  | .debug => "debug"
  | .info => "info"
  | .warning => "warning"
  | .error => "error"

structure EventRecord where
  sequence : ℕ
  level : EventLevel
  event : String
  message : String
  data : Entries
  payloadHash : String
deriving DecidableEq

structure Ledger where
  row : ProjectionState
  events : List EventRecord
deriving DecidableEq

structure ExecutionContext where
  procedureName : String
  resultSchema : Json
  params : Json
  requestedById : Json

def nextEventSequence (events : List EventRecord) : ℕ :=
  (events.map EventRecord.sequence).foldl max 0 + 1

def payloadJson (level : EventLevel) (event message : String) (data : Entries) : Json :=
  .obj [("level", .str level.value), ("event", .str event), ("message", .str message),
    ("data", .obj data)]

def executionEventRecord (P : Platform) (events : List EventRecord) (level event message : String)
    (data : Entries) (limits : StringLimits) : EventRecord :=
  let data := redactEventData P limits data
  let message := boundedEventMessage P message
  { sequence := nextEventSequence events
    level := eventLevel level
    event := event
    message := message
    data := data
    payloadHash := P.stableHash (payloadJson (eventLevel level) event message data) }

/-! ## String limits of a result schema -/

/-- Later limits come first, as a later assignment to the same path wins. -/
def collectSchemaStringLimits : ℕ → Json → List String → StringLimits → StringLimits
  | fuel + 1, .obj schema, path, limits =>
    let limits := match Json.find schema "maxLength" with
      | some (.int n) => if (maxEventStringLength : ℤ) < n then (path, n.toNat) :: limits else limits
      | _ => limits
    let limits := match Json.find schema "properties" with
      | some (.obj props) => props.foldl (fun limits p =>
          collectSchemaStringLimits fuel p.2 (path ++ [p.1]) limits) limits
      | _ => limits
    match Json.find schema "items" with
    | some items => collectSchemaStringLimits fuel items (path ++ ["*"]) limits
    | none => limits
  | _, _, _, limits => limits

/-- Room for the truncation marker is reserved out of each declared length. -/
def resultSchemaStringLimits (schema : Json) : StringLimits :=
  (collectSchemaStringLimits (JsonSchema.depth schema) schema [] []).map
    (fun l => (l.1, l.2 - truncationMarker.length))

def underResult (limits : StringLimits) : StringLimits := limits.map (fun l => ("result" :: l.1, l.2))

def stripMaxLengthAtPaths (limits : StringLimits) : ℕ → List String → Json → Json
  | fuel + 1, path, .obj schema =>
    let schema := if limits.any (fun l => l.1 == path)
      then schema.filter (fun e => e.1 != "maxLength") else schema
    .obj (schema.map (fun e => match e with
      | ("properties", .obj props) => ("properties", .obj (props.map (fun p =>
          (p.1, stripMaxLengthAtPaths limits fuel (path ++ [p.1]) p.2))))
      | ("items", items) => ("items", stripMaxLengthAtPaths limits fuel (path ++ ["*"]) items)
      | e => e))
  | _, _, schema => schema

def relaxSchemaStringLengths (schema : Json) (limits : StringLimits) : Json :=
  stripMaxLengthAtPaths limits (JsonSchema.depth schema) [] schema

def normalizedParamsStringLimits : StringLimits :=
  [(["normalized_params", "config_content"], 1024 * 1024),
    (["normalized_params", "content"], 1024 * 1024)]

theorem maxEventStringLength_le_limit (path : List String) :
    maxEventStringLength ≤ limitAt normalizedParamsStringLimits path := by
  unfold limitAt
  cases hl : normalizedParamsStringLimits.find? (fun l => l.1 == path) with
  | none => exact le_rfl
  | some l =>
    have hmem := List.mem_of_find?_eq_some hl
    simp only [normalizedParamsStringLimits, List.mem_cons, List.not_mem_nil, or_false] at hmem
    rcases hmem with rfl | rfl <;> simp [maxEventStringLength]

def ledgerNormalizedParams (P : Platform) (normalized : Entries) : Entries :=
  entriesOr (redactEventData P normalizedParamsStringLimits
    [("normalized_params", .obj normalized)]) "normalized_params"

/-! ## Append and project -/

def backendErrorCodeRe : Rx :=
  .seq (.set ⟨false, [('A', 'Z')]⟩)
    (.rep .greedy 0 (some 99) (.set ⟨false, [('A', 'Z'), ('0', '9'), ('_', '_')]⟩))

def isCatalogErrorCode (code : String) : Bool := backendErrorCodeRe.fullmatch code.toList

def persistableFailureEvent : DomainEvent → DomainEvent
  | .executionFailed message code finished result =>
    .executionFailed message (if isCatalogErrorCode code then code else "RPC_EXECUTION_FAILED")
      finished result
  | .executionEnqueueFailed message code finished =>
    .executionEnqueueFailed message (if isCatalogErrorCode code then code else "RPC_ENQUEUE_FAILED")
      finished
  | e => e

def eventStringLimits (ctx : ExecutionContext) : DomainEvent → StringLimits
  | .executionSucceeded .. | .executionFailed .. =>
    underResult (resultSchemaStringLimits ctx.resultSchema)
  | .parametersNormalized .. => normalizedParamsStringLimits
  | _ => []

def eventRecord (P : Platform) (ctx : ExecutionContext) (events : List EventRecord)
    (e : DomainEvent) : EventRecord :=
  executionEventRecord P events e.level e.eventName e.message (e.data P) (eventStringLimits ctx e)

def redactedEvent (P : Platform) (ctx : ExecutionContext) (e : DomainEvent) : DomainEvent :=
  e.type.fromData P (redactEventData P (eventStringLimits ctx e) (e.data P))

/-- `_append_and_project` by a writer that holds `copy` of the projected fields: its copy after
the call, and the ledger. -/
def appendAndProject (P : Platform) (ctx : ExecutionContext) (copy : ProjectionState)
    (ledger : Ledger) (e : DomainEvent) : ProjectionState × Ledger :=
  let e := persistableFailureEvent e
  let record := eventRecord P ctx ledger.events e
  let projected := copy.apply P (redactedEvent P ctx e)
  (copy.writeOver projected copy,
    { row := copy.writeOver projected ledger.row, events := ledger.events ++ [record] })

def rebuildProjection (P : Platform) (events : List EventRecord) : ProjectionState :=
  rebuild P (events.map (fun r => fromRecord P r.event r.data))

end NetboxRpc
