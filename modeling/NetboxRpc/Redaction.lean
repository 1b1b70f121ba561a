import NetboxRpc.CredentialContract
import NetboxRpc.TextRedaction

/-!
# Redaction of event data

`redact_event_value` and its helpers in `event_store.py`: sensitive keys, secret-bearing names,
text, and the bounds on lists, mappings and depth.
-/

namespace NetboxRpc

open Regex

def sensitiveKeyFragments : List String :=
  ["auth", "community", "credential", "key", "password", "private", "secret", "token"]

def safeReferenceKeys : List String :=
  ["credential_pk", "guest_credential_pk", "host_key_fingerprint", "host_key_pinned",
    "known_hosts_entry", "key_id", "key_version", "password_bytes", "password_sha256",
    "restconf_credential_pk", "rpc_ssh_credential_pk", "rpc_ssh_strict_host_key_checking"]

def booleanPolicyKeys : List String := ["rpc_ssh_strict_host_key_checking"]

def maxEventStringLength : ℕ := 4096
def maxEventListItems : ℕ := 50
def maxEventDictItems : ℕ := 100
def maxRedactionDepth : ℕ := 32
def truncationMarker : Text := "...[truncated]".toList
def redacted : Json := .str "[REDACTED]"

/-- `str.lower` as far as ASCII names can tell: two non-ASCII letters lower to an ASCII one. -/
def lowerChar (c : Char) : Text :=
  if c = Char.ofNat 0x212A then ['k']
  else if c = Char.ofNat 0x130 then ['i', Char.ofNat 0x307]
  else [c.toLower]

def lower (s : String) : Text := s.toList.flatMap lowerChar

def containsText (needle : String) (text : Text) : Bool :=
  text.tails.any (fun t => needle.toList.isPrefixOf t)

def isBooleanPolicyKey (key : String) : Bool :=
  booleanPolicyKeys.any (fun k => lower key == k.toList)

def isSensitiveKey (key : String) : Bool :=
  let normalized := lower key
  if safeReferenceKeys.any (fun k => normalized == k.toList) ||
      "_credential_pk".toList.isSuffixOf normalized then false
  else sensitiveKeyFragments.any (fun fragment => containsText fragment normalized)

def isVaultedSecretReference : Json → Bool
  | .str s => nmsSecretReferenceRe.fullmatch s.toList
  | _ => false

abbrev StringLimits := List (List String × ℕ)

def limitAt (limits : StringLimits) (path : List String) : ℕ :=
  ((limits.find? (fun l => l.1 == path)).map Prod.snd).getD maxEventStringLength

def boundText (limit : ℕ) (text : Text) : Text :=
  if limit < text.length then text.take limit ++ truncationMarker else text

def redactEventText (P : Platform) (limits : StringLimits) (path : List String) (s : String) :
    String :=
  String.ofList (redactBounded P.word (boundText (limitAt limits path)) s.toList)

def mappingNameIsSecretBearing (P : Platform) (name : String) : Bool :=
  containsSecretText P.word name.toList

def keyedMappingName (P : Platform) (name : String) : String :=
  "[REDACTED-NAME:" ++ P.keyedDigest name ++ "]"

def unusedPlaceholderFrom (placeholder : String) (taken : List String) : ℕ → ℕ → String → String
  | 0, _, candidate => candidate
  | fuel + 1, suffix, candidate =>
    if taken.contains candidate then
      unusedPlaceholderFrom placeholder taken fuel (suffix + 1)
        (placeholder ++ "#" ++ toString (suffix + 1))
    else candidate

def unusedPlaceholder (P : Platform) (name : String) (taken : List String) : String :=
  unusedPlaceholderFrom (keyedMappingName P name) taken (taken.length + 1) 1
    (keyedMappingName P name)

def persistedNames (P : Platform) (secretNames : List String) :
    List String → List (String × Json) → List (String × String × Json)
  | _, [] => []
  | taken, (name, item) :: rest =>
    if secretNames.contains name then
      let persisted := unusedPlaceholder P name taken
      (persisted, name, item) :: persistedNames P secretNames (taken ++ [persisted]) rest
    else (name, name, item) :: persistedNames P secretNames taken rest

def persistedMappingEntries (P : Platform) (entries : List (String × Json)) :
    List (String × String × Json) :=
  let secretNames := (entries.map Prod.fst).filter (mappingNameIsSecretBearing P)
  let taken := (entries.map Prod.fst).filter (fun name => !secretNames.contains name)
  persistedNames P secretNames taken (entries.insertionSort Json.keyLe)

/-- The entries a mapping keeps, and whether it was bounded. A mapping that was bounded before
holds the limit of entries and the marker, and keeps both. -/
def keptEntries (entries : List (String × Json)) : List (String × Json) × Bool :=
  if entries.length = maxEventDictItems + 1 ∧ Json.find entries "_truncated" = some (.bool true) then
    (entries.filter (fun e => e.1 != "_truncated"), true)
  else (entries.take maxEventDictItems, decide (maxEventDictItems < entries.length))

theorem keptEntries_of_length_le {entries : List (String × Json)}
    (h : entries.length ≤ maxEventDictItems) :
    keptEntries entries = (entries, false) := by
  have hne : ¬ (entries.length = maxEventDictItems + 1 ∧
      Json.find entries "_truncated" = some (.bool true)) := fun hc => by omega
  rw [keptEntries, if_neg hne, List.take_of_length_le h]
  simp [h]

def redactEventMapping (P : Platform) (child : String → List String → Json → Json)
    (path : List String) (entries : List (String × Json)) : List (String × Json) :=
  let kept := keptEntries entries
  let redactedEntries := (persistedMappingEntries P kept.1).foldl
    (fun d e => Json.set d e.1 (child e.2.1 (path ++ [e.2.1]) e.2.2)) []
  if kept.2 then Json.set redactedEntries "_truncated" (.bool true) else redactedEntries

def isTruncationMarker : Json → Bool
  | .obj entries => entries.length == 2 && Json.find entries "_truncated" == some (.bool true) &&
      (Json.find entries "remaining").any isExactInt
  | _ => false

/-- The items a list keeps, and the marker that ends it. A list that was bounded before keeps its
own marker. -/
def keptItems (items : List Json) : List Json × List Json :=
  if items.length = maxEventListItems + 1 ∧ (items.getLast?).any isTruncationMarker then
    (items.dropLast, items.getLast?.toList)
  else (items.take maxEventListItems,
    if maxEventListItems < items.length then
      [.obj [("_truncated", .bool true), ("remaining", .int (items.length - maxEventListItems))]]
    else [])

def redactEventSequence (child : String → List String → Json → Json) (parentKey : String)
    (path : List String) (items : List Json) : List Json :=
  let kept := keptItems items
  kept.1.map (child parentKey (path ++ ["*"])) ++ kept.2

def redactSensitiveValue (P : Platform) (parentKey : String) (value : Json) : Json :=
  match value with
  | .bool b => .bool b
  | _ =>
    match publicCredentialMetadata P value parentKey with
    | some metadata => metadata
    | none => if isVaultedSecretReference value then value else redacted

/-- One level of `redact_event_value`; `child` redacts one level down and is absent below the
deepest level. -/
def redactLevel (P : Platform) (limits : StringLimits)
    (child : Option (String → List String → Json → Json)) (parentKey : String)
    (path : List String) (value : Json) : Json :=
  if parentKey ≠ "" ∧ isBooleanPolicyKey parentKey = true then
    match value with
    | .bool b => .bool b
    | _ => redacted
  else if parentKey ≠ "" ∧ isSensitiveKey parentKey = true then
    redactSensitiveValue P parentKey value
  else match value, child with
    | .obj _, none | .arr _, none => .str "[truncated]"
    | .obj entries, some child => .obj (redactEventMapping P child path entries)
    | .arr items, some child => .arr (redactEventSequence child parentKey path items)
    | .str s, _ => .str (redactEventText P limits path s)
    | v, _ => v

/-- `redact_event_value` with `levels` levels of containers left, the topmost being the `depth` at
which it is called. -/
def redactLevels (P : Platform) (limits : StringLimits) :
    ℕ → String → List String → Json → Json
  | 0 => redactLevel P limits none
  | levels + 1 => redactLevel P limits (some (redactLevels P limits levels))

def redactEventValue (P : Platform) (limits : StringLimits) (value : Json) : Json :=
  redactLevels P limits (maxRedactionDepth + 1) "" [] value

def redactEventData (P : Platform) (limits : StringLimits) (data : List (String × Json)) :
    List (String × Json) :=
  match redactEventValue P limits (.obj data) with
  | .obj entries => entries
  | _ => []

def messageContentLimit : ℕ := maxEventStringLength - truncationMarker.length

def boundedEventMessage (P : Platform) (message : String) : String :=
  String.ofList (redactBounded P.word
    (fun text => if text.length ≤ maxEventStringLength then text
      else text.take messageContentLimit ++ truncationMarker) message.toList)

end NetboxRpc
