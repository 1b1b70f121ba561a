import NetboxRpc.EventStore
import NetboxRpc.JsonText

/-!
# The target-object snapshot

For a procedure with a Jinja command, `normalization.py` captures the target object as a bounded
JSON value, the render context `target.*`. One budget of nodes and serialized bytes is spent by a
depth-first traversal, which gives back what it spent on a member that does not fit. Text that the
secret pattern matches is remembered, replaced in the persisted copy, and that copy is redacted and
bounded again by a second traversal of the same kind.
-/

namespace NetboxRpc

open Regex

def targetSnapshotMaxNodes : ℕ := 1000
def targetSnapshotMaxBytes : ℕ := 65536
def targetSnapshotMaxKeys : ℕ := 95
def targetSnapshotMaxItems : ℕ := 50
def targetSnapshotMaxValueLen : ℕ := 1024
def targetSnapshotMaxDepth : ℕ := 4
def targetSnapshotMarker : String := "_truncated"
def targetSnapshotMarkerBytes : ℕ := ",\"_truncated\":true".length

structure SnapshotPlatform where
  platform : Platform
  /-- `json.dumps` of a float. -/
  floatText : ℚ → String
  /-- `repr` of a text. -/
  repr : String → String
  /-- The hexadecimal `salted_hmac` under the salt of snapshot keys. -/
  keyDigest : String → String
  keyDigest_hex : ∀ key, (keyDigest key).toList.all isHexDigit = true
  /-- The hexadecimal `salted_hmac` under the salt of raw snapshots. -/
  rawDigest : Json → String

theorem emptyDigest_hex (_key : String) : ("" : String).toList.all isHexDigit = true := rfl

def sensitiveFieldRe : Rx :=
  let sep := (Rx.set (.oneOf ['_', '-'])).opt
  Rx.ignoreCase (alts [lit "pass", lit "secret", lit "token", lit "credential", lit "community",
    lit "psk", lit "passphrase", seqs [lit "private", sep, lit "key"],
    seqs [lit "api", sep, lit "key"], seqs [lit "ssh", sep, lit "key"],
    seqs [lit "auth", sep, lit "key"], seqs [lit "access", sep, lit "key"],
    seqs [lit "encryption", sep, lit "key"], seqs [lit "secret", sep, lit "key"]])

def isSensitiveField (name : String) : Bool := (sensitiveFieldRe.search name.toList 0).isSome

/-! ## Values of the target object -/

structure FieldKey where
  text : String
  typeName : String
  repr : String
deriving DecidableEq

inductive Scalar
  | null
  | bool (b : Bool)
  | int (n : ℤ)
  | float (q : ℚ)
  | text (s : String)
deriving DecidableEq

/-- A value of a field; any object that is not a JSON scalar counts by its `str`. -/
inductive FieldValue
  | scalar (s : Scalar)
  | other (str : String)
  | mapping (entries : List (FieldKey × FieldValue))
  | sequence (items : List FieldValue)

/-- A value of the snapshot; `matched` is `_MatchedText`, a bounded text whose complete text the
secret pattern matches. -/
inductive SafeValue
  | scalar (s : Scalar)
  | matched (text : String)
  | mapping (entries : List (String × SafeValue))
  | sequence (items : List SafeValue)

def Scalar.toJson : Scalar → Json
  | .null => .null
  | .bool b => .bool b
  | .int n => .int n
  | .float q => .float q
  | .text s => .str s

namespace SafeValue

mutual

def raw : SafeValue → Json
  | .scalar s => s.toJson
  | .matched text => .str text
  | .mapping entries => .obj (rawEntries entries)
  | .sequence items => .arr (rawItems items)

def rawItems : List SafeValue → List Json
  | [] => []
  | v :: vs => v.raw :: rawItems vs

def rawEntries : List (String × SafeValue) → List (String × Json)
  | [] => []
  | (k, v) :: es => (k, v.raw) :: rawEntries es

end

def set (output : List (String × SafeValue)) (key : String) (value : SafeValue) :
    List (String × SafeValue) :=
  if output.any (fun e => e.1 == key) then
    output.map (fun e => if e.1 == key then (key, value) else e)
  else output ++ [(key, value)]

end SafeValue

def cutText (s : String) : String := String.ofList (s.toList.take targetSnapshotMaxValueLen)

def jsonSafeScalar : Scalar → Scalar
  | .text s => .text (cutText s)
  | s => s

/-! ## The budget -/

structure Budget where
  nodes : ℕ
  bytes : ℕ
  truncated : Bool
deriving DecidableEq

namespace Budget

def empty : Budget := ⟨0, 0, false⟩

def nodesLimit : ℕ := targetSnapshotMaxNodes - 1

def bytesLimit : ℕ := targetSnapshotMaxBytes - targetSnapshotMarkerBytes

def spend (b : Budget) (nodes bytes : ℕ) : Bool × Budget :=
  if nodesLimit < b.nodes + nodes ∨ bytesLimit < b.bytes + bytes then
    (false, { b with truncated := true })
  else (true, { b with nodes := b.nodes + nodes, bytes := b.bytes + bytes })

def restore (b checkpoint : Budget) : Budget :=
  { b with nodes := checkpoint.nodes, bytes := checkpoint.bytes }

def mark (b : Budget) (truncated : Bool) : Budget := { b with truncated := b.truncated || truncated }

def addMarker (b : Budget) (snapshot : List (String × SafeValue)) :
    List (String × SafeValue) × Budget :=
  (SafeValue.set snapshot targetSnapshotMarker (.scalar (.bool true)),
    { b with nodes := b.nodes + 1, bytes := b.bytes + targetSnapshotMarkerBytes })

end Budget

def keyLength (key : String) : ℕ := (Json.encodeString key).length

def mappingEntryBytes {α : Type} (key : String) (output : List α) : ℕ :=
  keyLength key + 1 + Json.comma output

/-! ## The traversal -/

/-- One pass over a value: the safe copy, or `none` for `_TARGET_SNAPSHOT_MISSING`. -/
abbrev SafePass := FieldValue → Budget → Option SafeValue × Budget

namespace FieldKey

def le (a b : FieldKey) : Prop :=
  a.text < b.text ∨ a.text = b.text ∧
    (a.typeName < b.typeName ∨ a.typeName = b.typeName ∧ a.repr ≤ b.repr)

instance : DecidableRel le := fun _ _ => inferInstanceAs (Decidable (_ ∨ _))

end FieldKey

def dropRepeated : List String → List (String × FieldValue) → List (String × FieldValue) × Bool
  | _, [] => ([], false)
  | seen, e :: es =>
    if e.1 ∈ seen then ((dropRepeated seen es).1, true)
    else (e :: (dropRepeated (e.1 :: seen) es).1, (dropRepeated (e.1 :: seen) es).2)

def orderedItems (entries : List (FieldKey × FieldValue)) : List (FieldKey × FieldValue) :=
  ((entries.take targetSnapshotMaxKeys).map
    (fun e => ({ e.1 with text := cutText e.1.text }, e.2))).insertionSort
      (fun d e => d.1.le e.1)

def canonicalMappingItems (entries : List (FieldKey × FieldValue)) (b : Budget) :
    List (String × FieldValue) × Budget :=
  let b := b.mark (decide (targetSnapshotMaxKeys < entries.length))
  let canonical := dropRepeated [] ((orderedItems entries).map (fun e => (e.1.text, e.2)))
  (canonical.1, b.mark canonical.2)

def appendSnapshotValue (safe : SafePass) (output : List (String × SafeValue)) (key : String)
    (value : FieldValue) (b : Budget) : List (String × SafeValue) × Budget :=
  match b.spend 0 (mappingEntryBytes key output) with
  | (false, spent) => (output, spent)
  | (true, spent) => match safe value spent with
    | (none, after) => (output, (after.restore b).mark true)
    | (some v, after) => (SafeValue.set output key v, after)

def appendSnapshotValues (safe : SafePass) :
    List (String × FieldValue) → List (String × SafeValue) → Budget →
      List (String × SafeValue) × Budget
  | [], output, b => (output, b)
  | e :: es, output, b =>
    let next := appendSnapshotValue safe output e.1 e.2 b
    appendSnapshotValues safe es next.1 next.2

def jsonSafeMapping (safe : SafePass) (entries : List (FieldKey × FieldValue)) (b : Budget) :
    Option SafeValue × Budget :=
  match b.spend 1 2 with
  | (false, spent) => (none, spent)
  | (true, spent) =>
    let canonical := canonicalMappingItems entries spent
    let final := appendSnapshotValues safe canonical.1 [] canonical.2
    (some (.mapping final.1), final.2)

def appendItems (safe : SafePass) : List FieldValue → List SafeValue → Budget →
    List SafeValue × Budget
  | [], output, b => (output, b)
  | item :: rest, output, b => match b.spend 0 (Json.comma output) with
    | (false, spent) => (output, spent)
    | (true, spent) => match safe item spent with
      | (none, after) => appendItems safe rest output ((after.restore b).mark true)
      | (some v, after) => appendItems safe rest (output ++ [v]) after

def jsonSafeSequence (safe : SafePass) (items : List FieldValue) (b : Budget) :
    Option SafeValue × Budget :=
  match b.spend 1 2 with
  | (false, spent) => (none, spent)
  | (true, spent) =>
    let final := appendItems safe (items.take targetSnapshotMaxItems) [] spent
    (some (.sequence final.1), final.2.mark (decide (final.1.length < items.length)))

section

variable (S : SnapshotPlatform)

def matchesSecretPattern (text : String) : Bool :=
  containsSecretText S.platform.word text.toList

def jsonSafeLeaf (s : Scalar) (isText : Bool) (b : Budget) : Option SafeValue × Budget :=
  match b.spend 1 (((jsonSafeScalar s).toJson.dumps S.floatText).length) with
  | (false, spent) => (none, spent)
  | (true, spent) => match s with
    | .text t =>
      if isText && matchesSecretPattern S t then (some (.matched (cutText t)), spent)
      else (some (.scalar (.text (cutText t))), spent)
    | s => (some (.scalar s), spent)

/-- `_json_safe_value` with `levels` levels of containers left; the depth it is called with is
`targetSnapshotMaxDepth - levels`. -/
def jsonSafeValue : ℕ → SafePass
  | _, .scalar s, b => jsonSafeLeaf S s true b
  | _, .other str, b => jsonSafeLeaf S (.text str) false b
  | 0, _, b => jsonSafeLeaf S (.text "[truncated]") true b
  | levels + 1, .mapping entries, b => jsonSafeMapping (jsonSafeValue levels) entries b
  | levels + 1, .sequence items, b => jsonSafeSequence (jsonSafeValue levels) items b

end

/-! ## The snapshot of an object -/

structure TargetObject where
  /-- `pk`, when it is not `None`. -/
  pk : Option FieldValue
  /-- `id`, `None` when absent. -/
  id : FieldValue
  str : String
  /-- `name`, when it is present and not `None`. -/
  name : Option FieldValue
  customFieldData : Option FieldValue
  /-- `_meta.fields`: the name of each field, if it has one, and its value on the object. -/
  metaFields : List (Option String × FieldValue)
  /-- `__dict__`. -/
  dict : List (String × FieldValue)

def TargetObject.fieldItems (t : TargetObject) (b : Budget) : List (String × FieldValue) × Budget :=
  if t.metaFields.isEmpty then
    ((t.dict.take targetSnapshotMaxKeys).filter (fun e => !e.1.toList.head?.any (· == '_')),
      b.mark (decide (targetSnapshotMaxKeys < t.dict.length)))
  else
    ((t.metaFields.take targetSnapshotMaxKeys).filterMap
      (fun e => e.1.bind (fun name => if name = "" then none else some (name, e.2))),
      b.mark (decide (targetSnapshotMaxKeys < t.metaFields.length)))

def structuredSnapshotFields : List String := ["custom_field_data"]

section

variable (S : SnapshotPlatform)

def fieldPass : SafePass := jsonSafeValue S targetSnapshotMaxDepth

def appendCustomFields (snapshot : List (String × SafeValue))
    (customFields : List (FieldKey × FieldValue)) (b : Budget) :
    List (String × SafeValue) × Budget :=
  match b.spend 0 (mappingEntryBytes "custom_fields" snapshot) with
  | (false, spent) => (snapshot, spent)
  | (true, spent) => match spent.spend 1 2 with
    | (false, refused) => (snapshot, refused.restore b)
    | (true, opened) =>
      let canonical := canonicalMappingItems customFields opened
      let final := appendSnapshotValues (fieldPass S)
        (canonical.1.filter (fun e => !isSensitiveField e.1)) [] canonical.2
      if final.1.isEmpty then (snapshot, final.2.restore b)
      else (SafeValue.set snapshot "custom_fields" (.mapping final.1), final.2)

def appendFields : List (String × FieldValue) → List (String × SafeValue) → Budget →
    List (String × SafeValue) × Budget
  | [], snapshot, b => (snapshot, b)
  | e :: es, snapshot, b =>
    let name := cutText e.1
    if name.toList.head?.any (· == '_') || structuredSnapshotFields.contains name ||
        isSensitiveField name || snapshot.any (fun d => d.1 == name) then
      appendFields es snapshot b
    else if targetSnapshotMaxKeys - 1 ≤ snapshot.length then (snapshot, b.mark true)
    else
      let next := appendSnapshotValue (fieldPass S) snapshot name e.2 b
      appendFields es next.1 next.2

def appendIdentity (t : TargetObject) : List (String × SafeValue) × Budget :=
  let opened := (Budget.empty.spend 1 2).2
  let withId := appendSnapshotValue (fieldPass S) [] "id" (t.pk.getD t.id) opened
  appendSnapshotValue (fieldPass S) withId.1 "display" (.scalar (.text t.str)) withId.2

def appendName (t : TargetObject) (r : List (String × SafeValue) × Budget) :
    List (String × SafeValue) × Budget :=
  match t.name with
  | none => r
  | some name => appendSnapshotValue (fieldPass S) r.1 "name" name r.2

def appendCustomFieldData (t : TargetObject) (r : List (String × SafeValue) × Budget) :
    List (String × SafeValue) × Budget :=
  match t.customFieldData with
  | some (.mapping (e :: es)) => appendCustomFields S r.1 (e :: es) r.2
  | _ => r

def snapshotFields (t : TargetObject) : List (String × SafeValue) × Budget :=
  let fixed := appendCustomFieldData S t (appendName S t (appendIdentity S t))
  let items := t.fieldItems fixed.2
  appendFields S items.1 fixed.1 items.2

def buildTargetObjectSnapshot (t : TargetObject) : List (String × SafeValue) × Budget :=
  let fields := snapshotFields S t
  if fields.2.truncated then fields.2.addMarker fields.1 else fields

/-! ## The persisted copy -/

def freeTextPolicyKey (key : String) : String :=
  if matchesSecretPattern S key then
    "[REDACTED-FIELD:" ++ String.ofList ((S.keyDigest key).toList.take 32) ++ "]"
  else key

mutual

def freeTextPolicyCopy : SafeValue → Json
  | .matched _ => redacted
  | .mapping entries => .obj (freeTextPolicyEntries entries [])
  | .sequence items => .arr (freeTextPolicyItems items)
  | .scalar s => s.toJson

def freeTextPolicyItems : List SafeValue → List Json
  | [] => []
  | v :: vs => freeTextPolicyCopy v :: freeTextPolicyItems vs

/-- The dictionary comprehension: a later entry replaces an earlier one of the same name. -/
def freeTextPolicyEntries : List (String × SafeValue) → List (String × Json) →
    List (String × Json)
  | [], copied => copied
  | (k, v) :: es, copied =>
    freeTextPolicyEntries es (Json.set copied (freeTextPolicyKey S k) (freeTextPolicyCopy v))

end

mutual

def fieldValueOfJson : Json → FieldValue
  | .null => .scalar .null
  | .bool b => .scalar (.bool b)
  | .int n => .scalar (.int n)
  | .float q => .scalar (.float q)
  | .str s => .scalar (.text s)
  | .arr items => .sequence (fieldValuesOfJson items)
  | .obj entries => .mapping (fieldEntriesOfJson entries)

def fieldValuesOfJson : List Json → List FieldValue
  | [] => []
  | v :: vs => fieldValueOfJson v :: fieldValuesOfJson vs

def fieldEntriesOfJson : List (String × Json) → List (FieldKey × FieldValue)
  | [] => []
  | (k, v) :: es => (⟨k, "str", S.repr k⟩, fieldValueOfJson v) :: fieldEntriesOfJson es

end

/-- What the second traversal goes over: every entry but the marker, sorted by name. -/
def persistedItems (entries : List (String × Json)) : List (String × FieldValue) :=
  ((entries.insertionSort Json.keyLe).filter (fun e => e.1 != targetSnapshotMarker)).map
    (fun e => (e.1, fieldValueOfJson S e.2))

def boundedPersistedSnapshot (snapshot : Json) : List (String × SafeValue) :=
  match redactEventValue S.platform [] snapshot with
  | .obj entries =>
    let opened := (Budget.empty.spend 1 2).2
    let final := appendSnapshotValues (fieldPass S) (persistedItems S entries) [] opened
    if final.2.truncated || Json.find entries targetSnapshotMarker == some (.bool true) then
      (final.2.addMarker final.1).1
    else final.1
  | _ => []

def persistedSnapshot (t : TargetObject) : List (String × Json) :=
  SafeValue.rawEntries (boundedPersistedSnapshot S
    (freeTextPolicyCopy S (.mapping (buildTargetObjectSnapshot S t).1)))

end

end NetboxRpc
