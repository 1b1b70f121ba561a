import NetboxRpc.Lifecycle

/-!
# Signed dispatch leases

`dispatch_lease.py`: how the signing key and the verifier's keys are read from the settings, how a
lease is issued for a claimed execution, and how it is verified. `credential_authority._verify_lease`
derives the verifier's expectations from the execution row.
-/

namespace NetboxRpc

open Regex

/-! ## Keys -/

/-- Ed25519 as the `cryptography` package provides it, with base64 texts of signatures. A signature
verifies under the public key of its private key and under no other. -/
structure Ed25519 where
  PrivateKey : Type
  PublicKey : Type
  Signature : Type
  publicKey : PrivateKey → PublicKey
  sign : PrivateKey → Json → Signature
  verify : PublicKey → Signature → Json → Bool
  verify_sign_iff : ∀ candidate key message,
    verify candidate (sign key message) message = true ↔ candidate = publicKey key
  b64encode : Signature → String
  b64decode : String → Option Signature
  b64decode_encode : ∀ s, b64decode (b64encode s) = some s
  /-- The key in a PEM text, if it is an Ed25519 key. -/
  loadPrivateKey : String → Option PrivateKey
  loadPublicKey : String → Option PublicKey

structure KeyHost where
  parseInt : String → Option ℤ
  secureReadSigningKeyFile : String → Option String

/-- The plugin settings and environment variables that leases read. A setting that is absent is
`none` or `null`; a variable that is not set is empty. -/
structure LeaseSettings where
  signingKeys : Option Json
  audience : Json
  ttlSeconds : Json
  keyFile : String
  keyId : String
  keyVersion : String

structure SigningKey (E : Ed25519) where
  keyId : String
  keyVersion : ℤ
  privateKey : E.PrivateKey

abbrev Lineage := String × ℤ

def SigningKey.lineage {E : Ed25519} (key : SigningKey E) : Lineage := (key.keyId, key.keyVersion)

def pyInt (H : KeyHost) : Json → Option ℤ
  | .int n => some n
  | .bool b => some (if b then 1 else 0)
  | .float q => some (q.num.tdiv q.den)
  | .str s => H.parseInt s
  | _ => none

def envKeyIdRe : Rx :=
  .seq (.set ⟨false, [('A', 'Z'), ('a', 'z'), ('0', '9')]⟩)
    (.rep .greedy 0 (some 254) (.set ⟨false, [('A', 'Z'), ('a', 'z'), ('0', '9'), ('.', '.'),
      ('_', '_'), (':', ':'), ('-', '-')]⟩))

def maxEnvKeyVersion : ℤ := 2147483647

section

variable (P : Platform) (H : KeyHost) (E : Ed25519)

def loadEnvironmentSigningKey (settings : LeaseSettings) : Option (SigningKey E) := do
  guard (settings.keyFile ≠ "" ∧ settings.keyId ≠ "" ∧ settings.keyVersion ≠ "" ∧
    envKeyIdRe.fullmatch settings.keyId.toList = true)
  let keyVersion ← H.parseInt settings.keyVersion
  guard (1 ≤ keyVersion ∧ keyVersion ≤ maxEnvKeyVersion)
  let pem ← H.secureReadSigningKeyFile settings.keyFile
  let privateKey ← E.loadPrivateKey pem
  return ⟨settings.keyId, keyVersion, privateKey⟩

def entryKeyId (entry : Entries) : String :=
  String.ofList (strip (textOr P entry "key_id" "").toList)

def entryKeyVersion (entry : Entries) : Option ℤ :=
  pyInt H ((Json.find entry "key_version").getD (.int 1))

def entrySigningKey : Json → Option (SigningKey E)
  | .obj entry => do
    guard ((valueOf entry "active").truthy ∧ entryKeyId P entry ≠ "")
    match valueOf entry "private_key_pem" with
    | .str pem =>
      guard (strip pem.toList ≠ [])
      let keyVersion ← entryKeyVersion H entry
      guard (0 ≤ keyVersion ∧ (entryKeyId P entry).length ≤ 255)
      let privateKey ← E.loadPrivateKey pem
      return ⟨entryKeyId P entry, keyVersion, privateKey⟩
    | _ => none
  | _ => none

def loadActiveSigningKey (settings : LeaseSettings) : Option (SigningKey E) :=
  match settings.signingKeys with
  | none => loadEnvironmentSigningKey H E settings
  | some (.arr entries) => entries.findSome? (entrySigningKey P H E)
  | some _ => none

/-- The public key of an entry: its public material, or else the one of its private key. -/
def entryPublicKey (entry : Entries) : Option E.PublicKey :=
  let pem := valueOf entry "public_key_pem"
  let fromMaterial := match if pem.truthy then pem else valueOf entry "public_key_b64" with
    | .str material => if strip material.toList ≠ [] then E.loadPublicKey material else none
    | _ => none
  fromMaterial <|> match valueOf entry "private_key_pem" with
    | .str pem => (E.loadPrivateKey pem).map E.publicKey
    | _ => none

def entryVerifierKey : Json → Option (Lineage × E.PublicKey)
  | .obj entry => do
    guard (entryKeyId P entry ≠ "")
    let keyVersion ← entryKeyVersion H entry
    let publicKey ← entryPublicKey E entry
    return ((entryKeyId P entry, keyVersion), publicKey)
  | _ => none

/-- A later entry of the same lineage replaces an earlier one. -/
def loadVerifierPublicKeys (settings : LeaseSettings) : Lineage → Option E.PublicKey :=
  match settings.signingKeys with
  | none => match loadEnvironmentSigningKey H E settings with
    | some key => Function.update (fun _ => none) key.lineage (some (E.publicKey key.privateKey))
    | none => fun _ => none
  | some (.arr entries) => (entries.filterMap (entryVerifierKey P H E)).foldl
      (fun out added => Function.update out added.1 (some added.2)) (fun _ => none)
  | some _ => fun _ => none

end

/-! ## Claims -/

structure SignedClaims where
  envelopeVersion : ℤ
  executionId : ℤ
  streamVersion : ℤ
  nonce : String
  audience : String
  handlerId : String
  handlerVersion : ℤ
  effect : String
  contractHash : String
  targetSnapshotHash : String
  paramsFingerprint : String
  credentialPolicy : String
  requestedById : Option ℤ
  approvedById : Option ℤ
  issuedAt : String
  expiresAt : String
  traceId : String
  keyId : String
  keyVersion : ℤ

def nullableInt : Option ℤ → Json
  | some n => .int n
  | none => .null

def SignedClaims.canonical (c : SignedClaims) : Json :=
  .obj [("approved_by_id", nullableInt c.approvedById), ("audience", .str c.audience),
    ("contract_hash", .str c.contractHash), ("credential_policy", .str c.credentialPolicy),
    ("effect", .str c.effect), ("envelope_version", .int c.envelopeVersion),
    ("execution_id", .int c.executionId), ("expires_at", .str c.expiresAt),
    ("handler_id", .str c.handlerId), ("handler_version", .int c.handlerVersion),
    ("issued_at", .str c.issuedAt), ("key_id", .str c.keyId), ("key_version", .int c.keyVersion),
    ("nonce", .str c.nonce), ("params_fingerprint", .str c.paramsFingerprint),
    ("requested_by_id", nullableInt c.requestedById), ("stream_version", .int c.streamVersion),
    ("target_snapshot_hash", .str c.targetSnapshotHash), ("trace_id", .str c.traceId)]

def SignedClaims.wellFormed (c : SignedClaims) : Bool :=
  decide (0 ≤ c.envelopeVersion ∧ 0 ≤ c.executionId ∧ 0 ≤ c.streamVersion ∧
    1 ≤ c.nonce.length ∧ c.nonce.length ≤ 128 ∧ 1 ≤ c.audience.length ∧ c.audience.length ≤ 255 ∧
    c.handlerId.length ≤ 255 ∧ 0 ≤ c.handlerVersion ∧ c.effect.length ≤ 20 ∧
    c.contractHash.length ≤ 128 ∧ c.targetSnapshotHash.length ≤ 128 ∧
    c.paramsFingerprint.length ≤ 128 ∧ c.credentialPolicy.length ≤ 255 ∧
    0 ≤ c.requestedById.getD 0 ∧ 0 ≤ c.approvedById.getD 0 ∧ c.issuedAt.length ≤ 64 ∧
    c.expiresAt.length ≤ 64 ∧ c.traceId.length ≤ 255 ∧ 1 ≤ c.keyId.length ∧
    c.keyId.length ≤ 255 ∧ 0 ≤ c.keyVersion)

structure SignedDispatchLease where
  algorithm : String
  claims : SignedClaims
  signature : String

/-! ## Issue -/

/-- The columns of a procedure that a lease binds, within the bounds of their columns, and its
command contract hash. -/
structure LeaseProcedure where
  handlerId : String
  version : ℕ
  effect : String
  contractHash : String
  handlerId_le : handlerId.length ≤ 255
  effect_le : effect.length ≤ 20

structure LeaseExecution where
  req : ExecutionRequest
  requestedById : Option ℤ
  approvedById : Option ℤ
  normalizedParams : Entries

def defaultAudience : String := "netbox-rpc-backend"

def configuredAudience (P : Platform) (settings : LeaseSettings) : String :=
  if settings.audience.truthy then pyStr P settings.audience else defaultAudience

def maxReferenceLeaseSeconds : ℤ := 300

def leaseTtl (H : KeyHost) (settings : LeaseSettings) (execution : LeaseExecution) : ℤ :=
  let ttl := match settings.ttlSeconds with
    | .null => 120
    | v => (pyInt H v).getD 120
  let ttl := max 1 (min ttl 900)
  if execution.req.credentialReferences.truthy then min ttl maxReferenceLeaseSeconds else ttl

def targetHash (P : Platform) (fingerprint : Entries) : String :=
  textOr P fingerprint "target_object_sha256" ""

def leaseClaims (P : Platform) (H : KeyHost) (settings : LeaseSettings)
    (procedure : LeaseProcedure) (execution : LeaseExecution) (streamVersion : ℤ)
    (credentialPolicy nonce : String) (now : DateTime) (lineage : Lineage) : SignedClaims where
  envelopeVersion := 1
  executionId := execution.req.pk
  streamVersion := streamVersion
  nonce := nonce
  audience := clip 255 (configuredAudience P settings)
  handlerId := clip 255 procedure.handlerId
  handlerVersion := if procedure.version = 0 then 1 else procedure.version
  effect := clip 20 procedure.effect
  contractHash := procedure.contractHash
  targetSnapshotHash := match valueOf execution.normalizedParams "command_fingerprint" with
    | .obj fingerprint => clip 128 (targetHash P fingerprint)
    | _ => ""
  paramsFingerprint := hashJson P (valueOf execution.normalizedParams "command_fingerprint")
  credentialPolicy := clip 255 credentialPolicy
  requestedById := execution.requestedById
  approvedById := execution.approvedById
  issuedAt := P.isoformat now
  expiresAt := P.isoformat (now + leaseTtl H settings execution * 1000000)
  traceId := clip 255 (match execution.req.credentialAuthority.get? "correlation_id" with
    | some v => if v.truthy then pyStr P v else ""
    | none => "")
  keyId := lineage.1
  keyVersion := lineage.2

def issueDispatchLease (P : Platform) (H : KeyHost) (E : Ed25519) (settings : LeaseSettings)
    (procedure : LeaseProcedure) (execution : LeaseExecution) (streamVersion : ℤ)
    (credentialPolicy nonce : String) (now : DateTime) : Option SignedDispatchLease := do
  let key ← loadActiveSigningKey P H E settings
  let claims := leaseClaims P H settings procedure execution streamVersion credentialPolicy nonce
    now key.lineage
  guard claims.wellFormed
  return ⟨"ed25519", claims, E.b64encode (E.sign key.privateKey claims.canonical)⟩

/-- `_issue_dispatch_lease` up to the recording of the lease; `none` also where the credential policy
does not match the authority. -/
def mintDispatchLease (S : Site) (H : KeyHost) (E : Ed25519) (settings : LeaseSettings)
    (procedure : LeaseProcedure) (execution : LeaseExecution) (streamVersion : ℤ) (nonce : String)
    (now : DateTime) : Option SignedDispatchLease := do
  let policy ← credentialPolicyReference S execution.req procedure.effect execution.normalizedParams
  issueDispatchLease S.platform H E settings procedure execution streamVersion policy nonce now

/-! ## Verify -/

inductive LeaseVerification
  | valid
  | invalid (reason : String)
deriving DecidableEq, Repr

structure LeaseExpectations where
  executionId : Option ℤ
  streamVersion : Option ℤ
  contractHash : Option String
  handlerId : Option String
  handlerVersion : Option ℤ
  effect : Option String
  targetSnapshotHash : Option String
  paramsFingerprint : Option String
  credentialPolicy : Option String
  requestedById : Option ℤ
  approvedById : Option ℤ

def differs {α : Type} [DecidableEq α] (expected : Option α) (actual : α) : Bool :=
  match expected with
  | some e => decide (actual ≠ e)
  | none => false

def LeaseExpectations.mismatches (x : LeaseExpectations) (c : SignedClaims) :
    List (Bool × String) :=
  [(differs x.executionId c.executionId, "execution id mismatch"),
    (differs x.streamVersion c.streamVersion, "stream version mismatch"),
    (differs x.contractHash c.contractHash, "contract hash mismatch"),
    (differs x.handlerId c.handlerId, "handler id mismatch"),
    (differs x.handlerVersion c.handlerVersion, "handler version mismatch"),
    (differs x.effect c.effect, "effect mismatch"),
    (differs x.targetSnapshotHash c.targetSnapshotHash, "target snapshot mismatch"),
    (differs x.paramsFingerprint c.paramsFingerprint, "params fingerprint mismatch"),
    (differs x.credentialPolicy c.credentialPolicy, "credential policy mismatch"),
    (differs (x.requestedById.map some) c.requestedById, "requester mismatch"),
    (differs (x.approvedById.map some) c.approvedById, "approver mismatch")]

def verifyDispatchLease (P : Platform) (E : Ed25519) (lease : SignedDispatchLease)
    (publicKeys : Lineage → Option E.PublicKey) (audience : String) (now : DateTime)
    (expected : LeaseExpectations) (seenNonces : Option (List String)) : LeaseVerification :=
  let claims := lease.claims
  if claims.envelopeVersion ≠ 1 then .invalid "unsupported envelope version"
  else if lease.algorithm ≠ "ed25519" then .invalid "unsupported signing algorithm"
  else match publicKeys (claims.keyId, claims.keyVersion) with
  | none => .invalid "unknown signing key lineage"
  | some publicKey => match E.b64decode lease.signature with
    | none => .invalid "malformed signature encoding"
    | some signature =>
      if E.verify publicKey signature claims.canonical = false then
        .invalid "signature verification failed"
      else if claims.audience ≠ audience then .invalid "wrong audience"
      else match P.fromisoformat claims.expiresAt, P.fromisoformat claims.issuedAt with
      | some expires, some _ =>
        if expires < now then .invalid "lease expired"
        else match (expected.mismatches claims).find? Prod.fst with
        | some mismatch => .invalid mismatch.2
        | none =>
          if (seenNonces.getD []).contains claims.nonce then .invalid "nonce replay"
          else .valid
      | _, _ => .invalid "malformed lease timestamps"

/-- The expectations that `_verify_lease` derives from the row, whose stored fingerprint has to be
an object or absent; `sequence` is that of the issuance event. -/
def leaseExpectations (P : Platform) (procedure : LeaseProcedure) (execution : LeaseExecution)
    (sequence : ℤ) : Option LeaseExpectations :=
  match (Json.find execution.normalizedParams "command_fingerprint").getD (.obj []) with
  | .obj fingerprint => some
      { executionId := some execution.req.pk
        streamVersion := some (sequence - 1)
        contractHash := some procedure.contractHash
        handlerId := some procedure.handlerId
        handlerVersion := some procedure.version
        effect := some procedure.effect
        targetSnapshotHash := some (targetHash P fingerprint)
        paramsFingerprint := some (P.stableHash (.obj fingerprint))
        credentialPolicy :=
          some ("credential-authority:" ++ P.stableHash execution.req.credentialAuthority)
        requestedById := execution.requestedById
        approvedById := execution.approvedById }
  | _ => none

/-- The call of the verifier in `_verify_lease`; `none` where deriving its arguments raises. -/
def verifyIssuedLease (P : Platform) (H : KeyHost) (E : Ed25519) (settings : LeaseSettings)
    (procedure : LeaseProcedure) (execution : LeaseExecution) (sequence : ℤ)
    (lease : SignedDispatchLease) (now : DateTime) : Option LeaseVerification := do
  let expected ← leaseExpectations P procedure execution sequence
  return verifyDispatchLease P E lease (loadVerifierPublicKeys P H E settings)
    (configuredAudience P settings) now expected none

end NetboxRpc
