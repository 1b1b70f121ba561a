import NetboxRpc.DispatchLease

/-!
# The issuer and the verifier of a lease

Issuer and verifier read the same settings and columns, each with its own defaults and bounds.
`issued_lease_valid_iff` says exactly where they agree.
-/

namespace NetboxRpc

theorem clip_eq_self_iff (n : ℕ) (s : String) : clip n s = s ↔ s.length ≤ n := by
  have hlist : clip n s = s ↔ s.toList.take n = s.toList := by
    constructor
    · intro h
      rw [← h, clip, String.toList_ofList, List.take_take, min_self]
    · intro h
      rw [clip, h, String.ofList_toList]
  rw [hlist, List.take_eq_self_iff, String.length_toList]

theorem differs_some {α : Type} [DecidableEq α] (expected actual : α) :
    differs (some expected) actual = false ↔ actual = expected := by
  simp [differs]

theorem differs_map_some_self {α : Type} [DecidableEq α] (value : Option α) :
    differs (value.map some) value = false := by
  cases value <;> simp [differs]

theorem mismatches_iff (x : LeaseExpectations) (c : SignedClaims) :
    (∀ m ∈ x.mismatches c, m.1 = false) ↔
      differs x.executionId c.executionId = false ∧ differs x.streamVersion c.streamVersion = false ∧
      differs x.contractHash c.contractHash = false ∧ differs x.handlerId c.handlerId = false ∧
      differs x.handlerVersion c.handlerVersion = false ∧ differs x.effect c.effect = false ∧
      differs x.targetSnapshotHash c.targetSnapshotHash = false ∧
      differs x.paramsFingerprint c.paramsFingerprint = false ∧
      differs x.credentialPolicy c.credentialPolicy = false ∧
      differs (x.requestedById.map some) c.requestedById = false ∧
      differs (x.approvedById.map some) c.approvedById = false := by
  simp only [LeaseExpectations.mismatches, List.forall_mem_cons, List.not_mem_nil, false_imp_iff,
    implies_true, and_true]

section

variable {P : Platform} {H : KeyHost} {E : Ed25519} {settings : LeaseSettings}
  {procedure : LeaseProcedure} {execution : LeaseExecution} {lease : SignedDispatchLease}

/-- Every check of the verifier. -/
theorem verifyDispatchLease_eq_valid_iff {publicKeys : Lineage → Option E.PublicKey}
    {audience : String} {now : DateTime} {expected : LeaseExpectations} :
    verifyDispatchLease P E lease publicKeys audience now expected none = .valid ↔
      lease.claims.envelopeVersion = 1 ∧ lease.algorithm = "ed25519" ∧
      (∃ publicKey signature,
        publicKeys (lease.claims.keyId, lease.claims.keyVersion) = some publicKey ∧
        E.b64decode lease.signature = some signature ∧
        E.verify publicKey signature lease.claims.canonical = true) ∧
      lease.claims.audience = audience ∧
      (∃ expires issued, P.fromisoformat lease.claims.expiresAt = some expires ∧
        P.fromisoformat lease.claims.issuedAt = some issued ∧ now ≤ expires) ∧
      ∀ m ∈ expected.mismatches lease.claims, m.1 = false := by
  unfold verifyDispatchLease
  dsimp only
  by_cases henvelope : lease.claims.envelopeVersion = 1
  case neg => simp [henvelope]
  by_cases halgorithm : lease.algorithm = "ed25519"
  case neg => simp [henvelope, halgorithm]
  cases hkey : publicKeys (lease.claims.keyId, lease.claims.keyVersion) with
  | none => simp [henvelope, halgorithm]
  | some publicKey =>
    cases hsignature : E.b64decode lease.signature with
    | none => simp [henvelope, halgorithm]
    | some signature =>
      by_cases hverify : E.verify publicKey signature lease.claims.canonical = true
      case neg => simp [henvelope, halgorithm, hverify]
      by_cases haudience : lease.claims.audience = audience
      case neg => simp [henvelope, halgorithm, hverify, haudience]
      cases hexpires : P.fromisoformat lease.claims.expiresAt with
      | none => simp [henvelope, halgorithm, hverify, haudience]
      | some expires =>
        cases hissued : P.fromisoformat lease.claims.issuedAt with
        | none => simp [henvelope, halgorithm, hverify, haudience]
        | some issued =>
          by_cases hnow : expires < now
          · simp [henvelope, halgorithm, hverify, haudience, hnow]
          · cases hmismatch : (expected.mismatches lease.claims).find? Prod.fst with
            | none =>
              have hall : ∀ m ∈ expected.mismatches lease.claims, m.1 = false := by
                simpa using List.find?_eq_none.mp hmismatch
              simpa [henvelope, halgorithm, hverify, haudience, hnow, not_lt.mp hnow] using hall
            | some m =>
              have hsome : ¬ ∀ m ∈ expected.mismatches lease.claims, m.1 = false := by
                intro hall
                have hfalse := hall m (List.mem_of_find?_eq_some hmismatch)
                rw [List.find?_some hmismatch] at hfalse
                cases hfalse
              simpa [henvelope, halgorithm, hverify, haudience, hnow] using fun _ => hsome

/-! ## The lineage of the signing key -/

/-- The last configured entry of the signing key's lineage carries that key's own public key. -/
def KeysAgree (P : Platform) (H : KeyHost) (E : Ed25519) (settings : LeaseSettings) : Prop :=
  ∀ entries, settings.signingKeys = some (.arr entries) →
    ∀ key, entries.findSome? (entrySigningKey P H E) = some key →
      ∃ before entry after, entries = before ++ entry :: after ∧
        entryVerifierKey P H E entry = some (key.lineage, E.publicKey key.privateKey) ∧
        ∀ later ∈ after, ∀ added, entryVerifierKey P H E later = some added →
          added.1 ≠ key.lineage

theorem foldl_update_of_ne {α β : Type} [DecidableEq α] (added : List (α × β)) (out : α → Option β)
    {a : α} (h : ∀ d ∈ added, d.1 ≠ a) :
    added.foldl (fun (out : α → Option β) d => Function.update out d.1 (some d.2)) out a =
      out a := by
  induction added generalizing out with
  | nil => rfl
  | cons d ds ih =>
    rw [List.foldl_cons, ih _ (fun e he => h e (List.mem_cons_of_mem d he)),
      Function.update_of_ne (h d List.mem_cons_self).symm]

/-- The last assignment to a key decides. -/
theorem foldl_update_eq_some_iff {α β : Type} [DecidableEq α] (added : List (α × β)) (a : α) (b : β) :
    added.foldl (fun (out : α → Option β) d => Function.update out d.1 (some d.2))
        (fun _ => none) a = some b ↔
      ∃ before after, added = before ++ (a, b) :: after ∧ ∀ d ∈ after, d.1 ≠ a := by
  constructor
  · intro h
    induction added using List.reverseRecOn with
    | nil => cases h
    | append_singleton ds d ih =>
      rw [List.foldl_append, List.foldl_cons, List.foldl_nil] at h
      by_cases hd : d.1 = a
      · rw [hd, Function.update_self] at h
        refine ⟨ds, [], ?_, by simp⟩
        rw [← hd, ← Option.some.inj h]
      · rw [Function.update_of_ne (Ne.symm hd)] at h
        obtain ⟨before, after, hds, hafter⟩ := ih h
        refine ⟨before, after ++ [d], by rw [hds]; simp, fun e he => ?_⟩
        rcases List.mem_append.mp he with he | he
        · exact hafter e he
        · rw [List.mem_singleton.mp he]
          exact hd
  · rintro ⟨before, after, rfl, hafter⟩
    rw [List.foldl_append, List.foldl_cons, foldl_update_of_ne after _ hafter,
      Function.update_self]

theorem loadVerifierPublicKeys_iff {key : SigningKey E}
    (hkey : loadActiveSigningKey P H E settings = some key) :
    loadVerifierPublicKeys P H E settings key.lineage = some (E.publicKey key.privateKey) ↔
      KeysAgree P H E settings := by
  unfold loadActiveSigningKey at hkey
  unfold loadVerifierPublicKeys KeysAgree
  cases hkeys : settings.signingKeys with
  | none =>
    rw [hkeys] at hkey
    dsimp only at hkey ⊢
    rw [hkey]
    simp
  | some configured =>
    cases configured with
    | arr entries =>
      rw [hkeys] at hkey
      dsimp only at hkey ⊢
      rw [foldl_update_eq_some_iff]
      constructor
      · rintro ⟨before, after, hsplit, hafter⟩ _ hsame other hother
        cases hsame
        rw [hkey] at hother
        cases hother
        obtain ⟨first, rest, rfl, _, hrest⟩ := List.filterMap_eq_append_iff.mp hsplit
        obtain ⟨silent, entry, last, rfl, _, hentry, hlast⟩ := List.filterMap_eq_cons_iff.mp hrest
        refine ⟨first ++ silent, entry, last, by simp, hentry, fun later hlater added hadded => ?_⟩
        exact hafter added (hlast ▸ List.mem_filterMap.mpr ⟨later, hlater, hadded⟩)
      · intro hagree
        obtain ⟨before, entry, after, rfl, hentry, hafter⟩ := hagree entries rfl key hkey
        refine ⟨before.filterMap (entryVerifierKey P H E), after.filterMap (entryVerifierKey P H E), ?_,
          fun added hadded => ?_⟩
        · rw [List.filterMap_append, List.filterMap_cons_some hentry]
        · obtain ⟨later, hlater, hsome⟩ := List.mem_filterMap.mp hadded
          exact hafter later hlater added hsome
    | null | bool b | int n | float q | str t | obj d =>
      rw [hkeys] at hkey
      cases hkey

/-! ## Issued leases -/

/-- The signature check of an issued lease. -/
theorem exists_verify_iff {key : SigningKey E} (hkey : loadActiveSigningKey P H E settings = some key)
    (message : Json) :
    (∃ publicKey signature,
        loadVerifierPublicKeys P H E settings (key.keyId, key.keyVersion) = some publicKey ∧
        E.b64decode (E.b64encode (E.sign key.privateKey message)) = some signature ∧
        E.verify publicKey signature message = true) ↔
      KeysAgree P H E settings := by
  rw [← loadVerifierPublicKeys_iff hkey, E.b64decode_encode]
  constructor
  · rintro ⟨publicKey, signature, hpublic, hdecoded, hverify⟩
    cases hdecoded
    rw [E.verify_sign_iff] at hverify
    rw [← hverify]
    exact hpublic
  · intro hresolves
    exact ⟨_, _, hresolves, rfl, (E.verify_sign_iff _ _ _).mpr rfl⟩

theorem eq_of_credentialPolicyReference {S : Site} {req : ExecutionRequest} {effect policy : String}
    {normalized : Entries} (hreferences : req.credentialReferences.truthy = true)
    (h : credentialPolicyReference S req effect normalized = some policy) :
    policy = "credential-authority:" ++ S.platform.stableHash req.credentialAuthority := by
  unfold credentialPolicyReference at h
  dsimp only at h
  rw [if_pos hreferences] at h
  split_ifs at h
  exact (Option.some.inj h).symm

end

/-- The lease of a reference-bearing execution verifies until it expires exactly if the verifier
resolves the signing key's lineage to that key, the audience and the target hash fit their bounds,
the version is not zero and the stored parameters have a fingerprint. -/
theorem issued_lease_valid_iff {S : Site} {H : KeyHost} {E : Ed25519} {settings : LeaseSettings}
    {procedure : LeaseProcedure} {execution : LeaseExecution} {lease : SignedDispatchLease}
    {streamVersion : ℤ} {nonce : String} {now t : DateTime}
    (hsha : ∀ v, 0 < (S.platform.sha256 v).length ∧ (S.platform.sha256 v).length ≤ 64)
    (hreferences : execution.req.credentialReferences.truthy = true)
    (hmint : mintDispatchLease S H E settings procedure execution streamVersion nonce now =
      some lease)
    (ht : t ≤ now + leaseTtl H settings execution * 1000000) :
    verifyIssuedLease S.platform H E settings procedure execution (streamVersion + 1) lease t =
        some .valid ↔
      KeysAgree S.platform H E settings ∧ (configuredAudience S.platform settings).length ≤ 255 ∧
        procedure.version ≠ 0 ∧
        ∃ fingerprint, Json.find execution.normalizedParams "command_fingerprint" =
            some (.obj fingerprint) ∧ (targetHash S.platform fingerprint).length ≤ 128 := by
  simp only [mintDispatchLease, issueDispatchLease, Option.bind_eq_bind, Option.bind_eq_some_iff,
    Option.guard_eq_some', Option.pure_def, Option.some.injEq] at hmint
  obtain ⟨policy, hpolicy, key, hkey, _, _, rfl⟩ := hmint
  have hpolicy := eq_of_credentialPolicyReference hreferences hpolicy
  have hclip : clip 255 policy = policy := by
    have hlength := (hsha execution.req.credentialAuthority.sorted).2
    have hstart : "credential-authority:".length = 21 := rfl
    rw [clip_eq_self_iff, hpolicy, String.length_append, Platform.stableHash]
    omega
  have hne : ∀ v, S.platform.stableHash v ≠ "" := by
    intro v hempty
    have hlength := (hsha v.sorted).1
    rw [Platform.stableHash] at hempty
    rw [hempty] at hlength
    exact absurd hlength (Nat.lt_irrefl 0)
  unfold verifyIssuedLease leaseExpectations
  cases hfind : Json.find execution.normalizedParams "command_fingerprint" with
  | none =>
    simp only [Option.getD_none, Option.bind_eq_bind, Option.bind_some, Option.pure_def,
      Option.some.injEq, reduceCtorEq, false_and, exists_false, and_false, iff_false]
    rw [verifyDispatchLease_eq_valid_iff]
    rintro ⟨_, _, _, _, _, hmatch⟩
    obtain ⟨_, _, _, _, _, _, _, hfingerprint, _⟩ := (mismatches_iff _ _).mp hmatch
    rw [differs_some] at hfingerprint
    simp only [leaseClaims, valueOf, hfind, Option.getD_none, hashJson, if_true] at hfingerprint
    exact hne _ hfingerprint.symm
  | some stored =>
    cases stored with
    | obj fingerprint =>
      simp only [Option.getD_some, Option.bind_eq_bind, Option.bind_some, Option.pure_def,
        Option.some.injEq]
      rw [verifyDispatchLease_eq_valid_iff]
      have hvalue : valueOf execution.normalizedParams "command_fingerprint" = .obj fingerprint := by
        rw [valueOf, hfind, Option.getD_some]
      have hversion : (if procedure.version = 0 then (1 : ℤ) else procedure.version) =
          procedure.version ↔ procedure.version ≠ 0 := by
        split_ifs with hzero <;> simp [hzero]
      rw [mismatches_iff]
      simp only [leaseClaims, hvalue, differs_some, differs_map_some_self, hclip, hashJson,
        S.platform.fromisoformat_isoformat, clip_eq_self_iff, procedure.handlerId_le,
        procedure.effect_le, hversion, SigningKey.lineage, exists_verify_iff hkey]
      simp [hpolicy, ht]
    | null | bool b | int n | float q | str t | arr items => simp

/-! ## A configuration -/

def toyEd25519 : Ed25519 where
  PrivateKey := ℕ
  PublicKey := ℕ
  Signature := ℕ
  publicKey := id
  sign := fun key _ => key
  verify := fun candidate signature _ => candidate == signature
  verify_sign_iff := fun _ _ _ => beq_iff_eq
  b64encode := fun n => String.ofList (List.replicate n '=')
  b64decode := fun s => some s.length
  b64decode_encode := fun n => by simp
  loadPrivateKey := fun pem => some pem.length
  loadPublicKey := fun pem => some pem.length

def toyHost : KeyHost := ⟨fun _ => none, fun _ => none⟩

theorem signed_natAbs (t : ℤ) :
    (if (if t < 0 then '-' else '+') = '-' then (-1 : ℤ) else 1) * t.natAbs = t := by
  by_cases hneg : t < 0
  · rw [if_pos hneg, if_pos rfl]
    omega
  · rw [if_neg hneg, if_neg (by decide)]
    omega

def decimalSite : Site :=
  { (default : Site) with
    platform := { (default : Platform) with
      sha256 := fun _ => String.ofList (List.replicate 64 '0')
      isoformat := fun t =>
        String.ofList ((if t < 0 then '-' else '+') :: Nat.toDigits 10 t.natAbs)
      fromisoformat := fun s => match s.toList with
        | sign :: digits => some ((if sign = '-' then -1 else 1) * Nat.ofDigitChars 10 digits 0)
        | [] => none
      fromisoformat_isoformat := fun t => by
        rw [String.toList_ofList]
        dsimp only
        rw [Nat.ofDigitChars_toDigits (by decide) (by decide)]
        exact congrArg some (signed_natAbs t) } }

def oneKeySettings : LeaseSettings where
  signingKeys := some (.arr [.obj [("key_id", .str "k"), ("key_version", .int 1),
    ("private_key_pem", .str "pem"), ("active", .bool true)]])
  audience := .null
  ttlSeconds := .null
  keyFile := ""
  keyId := ""
  keyVersion := ""

def leasedProcedure (version : ℕ) : LeaseProcedure where
  handlerId := "h"
  version := version
  effect := "read"
  contractHash := ""
  handlerId_le := by decide
  effect_le := by decide

def leasedPolicy : String := "credential-authority:" ++ String.ofList (List.replicate 64 '0')

def leasedExecution : LeaseExecution where
  req := { (default : ExecutionRequest) with credentialReferences := .bool true }
  requestedById := some 1
  approvedById := none
  normalizedParams := [("command_fingerprint", .obj []), ("credential_policy_ref", .str leasedPolicy)]

theorem mintDispatchLease_leased (version : ℕ) :
    mintDispatchLease decimalSite toyHost toyEd25519 oneKeySettings (leasedProcedure version)
        leasedExecution 4 "n" 0 =
      issueDispatchLease decimalSite.platform toyHost toyEd25519 oneKeySettings
        (leasedProcedure version) leasedExecution 4 leasedPolicy "n" 0 := by
  have hpolicy : credentialPolicyReference decimalSite leasedExecution.req "read"
      leasedExecution.normalizedParams = some leasedPolicy := by
    decide +kernel
  have heffect : (leasedProcedure version).effect = "read" := rfl
  rw [mintDispatchLease, heffect, hpolicy]
  rfl

theorem issued_lease_valid_iff_one_key : ∃ lease,
    mintDispatchLease decimalSite toyHost toyEd25519 oneKeySettings (leasedProcedure 1)
      leasedExecution 4 "n" 0 = some lease ∧
    (verifyIssuedLease decimalSite.platform toyHost toyEd25519 oneKeySettings (leasedProcedure 1)
        leasedExecution 5 lease 0 = some .valid ↔
      KeysAgree decimalSite.platform toyHost toyEd25519 oneKeySettings ∧
        (configuredAudience decimalSite.platform oneKeySettings).length ≤ 255 ∧
        (leasedProcedure 1).version ≠ 0 ∧
        ∃ fingerprint, Json.find leasedExecution.normalizedParams "command_fingerprint" =
            some (.obj fingerprint) ∧
          (targetHash decimalSite.platform fingerprint).length ≤ 128) := by
  have hissued : (mintDispatchLease decimalSite toyHost toyEd25519 oneKeySettings
      (leasedProcedure 1) leasedExecution 4 "n" 0).isSome = true := by
    rw [mintDispatchLease_leased]
    decide +kernel
  obtain ⟨lease, hlease⟩ := Option.isSome_iff_exists.mp hissued
  have hsha : ∀ v, 0 < (decimalSite.platform.sha256 v).length ∧
      (decimalSite.platform.sha256 v).length ≤ 64 := by
    intro v
    have hdigest : decimalSite.platform.sha256 v = String.ofList (List.replicate 64 '0') := rfl
    rw [hdigest, String.length_ofList, List.length_replicate]
    decide
  exact ⟨lease, hlease, issued_lease_valid_iff hsha rfl hlease (by decide)⟩

/-- A procedure of version 0 is leased as version 1. -/
theorem version_zero_lease_rejected :
    (mintDispatchLease decimalSite toyHost toyEd25519 oneKeySettings (leasedProcedure 0)
      leasedExecution 4 "n" 0).bind (fun lease => verifyIssuedLease decimalSite.platform toyHost
        toyEd25519 oneKeySettings (leasedProcedure 0) leasedExecution 5 lease 0) =
      some (.invalid "handler version mismatch") := by
  rw [mintDispatchLease_leased]
  decide +kernel

end NetboxRpc
