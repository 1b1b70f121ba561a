import NetboxRpc.DispatchLease
import NetboxRpc.TerminalAbsorption
import NetboxRpc.RedactedData

/-!
# The issuance event of a lease

`_issue_dispatch_lease` reads the stream version, mints the lease and appends its event in a later
transaction, so the creator's `JobEnqueued` can land in between or after it. `_issuance_event`
accepts a lease only if its event directly follows `ParametersNormalized` and is the last one.
-/

namespace NetboxRpc

/-! ## The check -/

def SignedClaims.issuanceData (c : SignedClaims) : Entries :=
  [("nonce", .str c.nonce), ("key_id", .str c.keyId), ("key_version", .int c.keyVersion),
    ("stream_version", .int c.streamVersion), ("audience", .str c.audience),
    ("expires_at", .str c.expiresAt), ("envelope_version", .int c.envelopeVersion)]

def issuanceEvent (events : List EventRecord) (c : SignedClaims) : Option EventRecord := do
  let event ← events.find? (fun r => r.event == "DispatchLeaseIssued" &&
    decide (Json.find r.data "nonce" = some (.str c.nonce)))
  guard ((Json.obj event.data).PyEq (.obj c.issuanceData))
  guard ((event.sequence : ℤ) = c.streamVersion + 1)
  guard (∀ r ∈ events, r.sequence ≤ event.sequence)
  guard (∃ r ∈ events, (r.sequence : ℤ) = c.streamVersion ∧ r.event = "ParametersNormalized")
  return event

/-! ## Interleaved appends -/

structure TokenHex where
  text : String
  length_eq : text.length = 32
  hex : text.toList.all isHexDigit = true

/-- An execution, the lease that its worker minted and has not recorded yet, and the lease whose
event is committed. -/
structure LeaseWorld where
  world : World
  minted : Option SignedClaims
  issued : Option SignedClaims

inductive LeaseAction
  /-- Any other step of the lifecycle. -/
  | other (a : Action)
  /-- The worker reads the stream version and mints. -/
  | mint (worker : ℕ) (procedure : LeaseProcedure) (execution : LeaseExecution) (nonce : TokenHex)
      (now : DateTime)
  | appendLease (worker : ℕ) (fate : Fate)

def Action.isLease : Action → Bool
  | .lease _ (some _) _ => true
  | _ => false

def Action.isUnsigned : Action → Bool
  | .lease _ none _ => true
  | _ => false

def SignedClaims.event (c : SignedClaims) : DomainEvent :=
  .dispatchLeaseIssued c.nonce c.keyId c.keyVersion c.streamVersion c.audience
    (.json (.str c.expiresAt)) c.envelopeVersion

section

variable (S : Site) (H : KeyHost) (E : Ed25519) (settings : LeaseSettings) (req : ExecutionRequest)

def leaseStep (s : LeaseWorld) : LeaseAction → Option LeaseWorld
  | .other a => do
    guard (a.isLease = false ∧ (a.isUnsigned = true → s.minted = none))
    let w ← step S req s.world a
    return { s with world := w }
  | .mint i procedure execution nonce now => do
    let x ← s.world.workers i
    guard (x.phase = .prepared ∧ s.minted = none)
    let lease ← mintDispatchLease S H E settings procedure execution
      (currentStreamVersion s.world.ledger.events) nonce.text now
    return { s with minted := some lease.claims }
  | .appendLease i fate => do
    let x ← s.world.workers i
    let claims ← s.minted
    guard (x.phase = .prepared ∧ x.copy.status = .running)
    return { world := s.world.writeWorker S req i x [claims.event] fate .leased
             minted := none
             issued := if fate = .commits then some claims else s.issued }

end

/-! ## What the stream keeps of a lease -/

structure Legible (P : Platform) (c : SignedClaims) : Prop where
  nonce : redactEventText P [] ["nonce"] c.nonce = c.nonce
  expiresAt : redactEventText P [] ["expires_at"] c.expiresAt = c.expiresAt

def SignedClaims.namesKept (P : Platform) (c : SignedClaims) : Prop :=
  redactEventText P [] ["key_id"] c.keyId = c.keyId ∧
    redactEventText P [] ["audience"] c.audience = c.audience

theorem data_event (P : Platform) (c : SignedClaims) : c.event.data P = c.issuanceData := rfl

theorem plainMapping_issuanceData (P : Platform) (c : SignedClaims) :
    PlainMapping c.issuanceData := by
  rw [← data_event P]
  exact plainMapping_data P (by simp [SignedClaims.event, DomainEvent.type])

theorem redactLevels_field (P : Platform) {name : String} (h : name ∈ eventFieldNames) (s : String) :
    redactLevels P [] maxRedactionDepth name [name] (.str s) =
      .str (redactEventText P [] [name] s) :=
  redactLevels_str (openName_of_mem h) _ _ s

/-- The stored data of a lease's event, field by field. -/
theorem redactEventData_issuanceData_perm (P : Platform) {c : SignedClaims} (h : Legible P c) :
    (redactEventData P [] c.issuanceData).Perm
      { c with
        keyId := redactEventText P [] ["key_id"] c.keyId
        audience := redactEventText P [] ["audience"] c.audience }.issuanceData := by
  refine (redactEventData_perm (plainMapping_issuanceData P c) []).trans (.of_eq ?_)
  have hint : ∀ name ∈ eventFieldNames, ∀ n : ℤ,
      redactLevels P [] maxRedactionDepth name [name] (.int n) = .int n := fun name hname n =>
    redactLevels_int (openName_of_mem hname) _ _ n
  simp only [SignedClaims.issuanceData, List.map_cons, List.map_nil]
  rw [redactLevels_field P (by simp [eventFieldNames]), redactLevels_field P (by simp [eventFieldNames]),
    hint _ (by simp [eventFieldNames]), hint _ (by simp [eventFieldNames]),
    redactLevels_field P (by simp [eventFieldNames]), redactLevels_field P (by simp [eventFieldNames]),
    hint _ (by simp [eventFieldNames]), h.nonce, h.expiresAt]

/-- The stored data is the expected one exactly if redaction keeps the configured texts. -/
theorem pyEq_issuanceData_iff (P : Platform) {c : SignedClaims} (h : Legible P c) :
    (Json.obj (redactEventData P [] c.issuanceData)).PyEq (.obj c.issuanceData) ↔
      c.namesKept P := by
  have hperm := redactEventData_issuanceData_perm P h
  have hnodup : ∀ d : SignedClaims, (d.issuanceData.map Prod.fst).Nodup := fun d =>
    (plainMapping_issuanceData P d).nodup
  constructor
  · intro heq
    have hfind := Json.find_of_normalize_eq heq (hnodup c)
      ((hperm.map Prod.fst).nodup_iff.mpr (hnodup _))
    have hkey := hfind "key_id"
    have haudience := hfind "audience"
    rw [Json.find_perm hperm ((hperm.map Prod.fst).nodup_iff.mpr (hnodup _))] at hkey haudience
    simpa [SignedClaims.issuanceData, Json.find_cons, Json.normalize, Json.numeric,
      SignedClaims.namesKept] using And.intro hkey haudience
  · rintro ⟨hkey, haudience⟩
    rw [hkey, haudience] at hperm
    exact Json.pyEq_obj_of_perm hperm (hnodup c)

/-! ## Acceptance by position -/

theorem Numbered.sequence_eq {before after : List EventRecord} {r : EventRecord}
    (h : Numbered (before ++ r :: after)) : r.sequence = before.length + 1 := by
  have hget := congrArg (fun l => l[before.length]?) h
  simp only [List.map_append, List.map_cons, List.length_append, List.length_cons] at hget
  rw [List.getElem?_append_right (by simp), List.length_map, Nat.sub_self,
    List.getElem?_cons_zero, List.getElem?_range' (by omega)] at hget
  have := Option.some.inj hget
  omega

theorem Numbered.sequence_injOn {events : List EventRecord} (h : Numbered events) {r t : EventRecord}
    (hr : r ∈ events) (ht : t ∈ events) (hsame : r.sequence = t.sequence) : r = t := by
  have hnodup : (events.map EventRecord.sequence).Nodup := by
    rw [h]
    exact List.nodup_range'
  exact List.inj_on_of_nodup_map hnodup hr ht hsame

/-- The stream from the normalized parameters to the lease and on; `read` was there when the worker
read the stream version. -/
structure LeaseShape (P : Platform) (events : List EventRecord) (c : SignedClaims)
    (before : List EventRecord) (r : EventRecord) (read later : List EventRecord) (l : EventRecord)
    (after : List EventRecord) : Prop where
  events_eq : events = before ++ r :: (read ++ (later ++ l :: after))
  before_types : ∀ e ∈ before,
    e.type? ≠ some .parametersNormalized ∧ e.type? ≠ some .dispatchLeaseIssued
  normalized : r.type? = some .parametersNormalized
  enqueued : ∀ e ∈ read ++ (later ++ after), e.type? = some .jobEnqueued
  lease : l.event = "DispatchLeaseIssued"
  data : l.data = redactEventData P [] c.issuanceData
  version : c.streamVersion = (before ++ r :: read).length
  legible : Legible P c

theorem EventRecord.event_eq_of_type? {r : EventRecord} {t : EventType} (h : r.type? = some t) :
    r.event = t.eventName := by
  have hfound := List.find?_some h
  exact (beq_iff_eq.mp hfound).symm

section

variable {P : Platform} {events before read later after : List EventRecord} {c : SignedClaims}
  {r l : EventRecord}

theorem LeaseShape.find?_eq (h : LeaseShape P events c before r read later l after) :
    events.find? (fun r => r.event == "DispatchLeaseIssued" &&
      decide (Json.find r.data "nonce" = some (.str c.nonce))) = some l := by
  have hother : ∀ e : EventRecord, e.type? ≠ some .dispatchLeaseIssued →
      (e.event == "DispatchLeaseIssued") = false := by
    intro e he
    rw [beq_eq_false_iff_ne]
    intro hname
    exact he (by rw [EventRecord.type?, hname]; rfl)
  have hnonce : Json.find l.data "nonce" = some (.str c.nonce) := by
    rw [h.data, find_redactEventData (plainMapping_issuanceData P c)]
    have hfind : Json.find c.issuanceData "nonce" = some (.str c.nonce) := rfl
    rw [hfind, Option.map_some, redactLevels_field P (by simp [eventFieldNames]), h.legible.nonce]
  have hbefore : ∀ e ∈ before ++ r :: (read ++ later),
      ¬ (e.event == "DispatchLeaseIssued" &&
        decide (Json.find e.data "nonce" = some (.str c.nonce))) = true := by
    intro e he
    have htype : e.type? ≠ some .dispatchLeaseIssued := by
      rcases List.mem_append.mp he with he | he
      · exact (h.before_types e he).2
      · rcases List.mem_cons.mp he with rfl | he
        · rw [h.normalized]
          decide
        · rw [h.enqueued e (by
            rcases List.mem_append.mp he with he | he <;> simp [he])]
          decide
    simp [hother e htype]
  have hsplit : events = (before ++ r :: (read ++ later)) ++ l :: after := by
    rw [h.events_eq]
    simp
  rw [hsplit, List.find?_append, List.find?_eq_none.mpr hbefore, Option.none_or,
    List.find?_cons_of_pos (by simp [h.lease, hnonce])]

/-- The check passes exactly if redaction kept the configured texts and nothing came between the
normalized parameters, the read of the version and the lease, or after it. -/
theorem LeaseShape.accepted_iff (h : LeaseShape P events c before r read later l after)
    (hnum : Numbered events) :
    (issuanceEvent events c).isSome = true ↔
      c.namesKept P ∧ read = [] ∧ later = [] ∧ after = [] := by
  have hl : l.sequence = before.length + 1 + read.length + later.length + 1 := by
    have hsplit : events = (before ++ r :: (read ++ later)) ++ l :: after := by
      rw [h.events_eq]
      simp
    rw [Numbered.sequence_eq (hsplit ▸ hnum)]
    simp
    omega
  have hversion : c.streamVersion = before.length + 1 + read.length := by
    rw [h.version]
    simp
    omega
  have hadjacent : (l.sequence : ℤ) = c.streamVersion + 1 ↔ later = [] := by
    rw [hl, hversion, ← List.length_eq_zero_iff]
    omega
  have hlast : (∀ e ∈ events, e.sequence ≤ l.sequence) ↔ after = [] := by
    constructor
    · intro hall
      cases hafter : after with
      | nil => rfl
      | cons e es =>
        have hsplit : events = (before ++ r :: (read ++ (later ++ [l]))) ++ e :: es := by
          rw [h.events_eq, hafter]
          simp
        have he := Numbered.sequence_eq (hsplit ▸ hnum)
        have hle := hall e (by rw [hsplit]; simp)
        simp at he
        omega
    · rintro rfl e he
      have hsplit : events = (before ++ r :: (read ++ later)) ++ [l] := by
        rw [h.events_eq]
        simp
      have hpair := hnum.pairwise_lt
      rw [hsplit] at hpair he
      rcases List.mem_append.mp he with he | he
      · exact ((List.pairwise_append.mp hpair).2.2 e he l List.mem_cons_self).le
      · rw [List.mem_singleton.mp he]
  have hafter : (∃ e ∈ events, (e.sequence : ℤ) = c.streamVersion ∧
      e.event = "ParametersNormalized") ↔ read = [] := by
    constructor
    · rintro ⟨e, he, hsequence, hname⟩
      by_contra hne
      -- The record at the version that was read is the last of `read`.
      obtain ⟨front, x, rfl⟩ : ∃ front x, read = front ++ [x] :=
        ⟨read.dropLast, read.getLast hne, (List.dropLast_append_getLast hne).symm⟩
      have hsplit : events = (before ++ r :: front) ++ x :: (later ++ l :: after) := by
        rw [h.events_eq]
        simp
      have hx := Numbered.sequence_eq (hsplit ▸ hnum)
      have hsame : e = x := by
        refine hnum.sequence_injOn he (by rw [hsplit]; simp) ?_
        simp only [List.length_append, List.length_cons, List.length_nil] at hx hversion
        omega
      rw [hsame, EventRecord.event_eq_of_type? (h.enqueued x (by simp))] at hname
      exact absurd hname (by decide)
    · rintro rfl
      have hr := Numbered.sequence_eq (h.events_eq ▸ hnum)
      refine ⟨r, by rw [h.events_eq]; simp, ?_, EventRecord.event_eq_of_type? h.normalized⟩
      rw [hr, hversion]
      simp
  have hiff : (issuanceEvent events c).isSome = true ↔
      (Json.obj l.data).PyEq (.obj c.issuanceData) ∧ (l.sequence : ℤ) = c.streamVersion + 1 ∧
        (∀ e ∈ events, e.sequence ≤ l.sequence) ∧
        ∃ e ∈ events, (e.sequence : ℤ) = c.streamVersion ∧ e.event = "ParametersNormalized" := by
    simp only [issuanceEvent, h.find?_eq, Option.isSome_iff_exists, Option.bind_eq_bind,
      Option.bind_some, Option.bind_eq_some_iff, Option.guard_eq_some', Option.pure_def,
      Option.some.injEq]
    simp
  rw [hiff, h.data, pyEq_issuanceData_iff P h.legible, hadjacent, hlast, hafter]
  tauto

/-- Every `JobEnqueued` of the stream precedes every `ParametersNormalized`. -/
def EnqueuedFirst (events : List EventRecord) : Prop :=
  ∀ r ∈ events, r.type? = some .parametersNormalized →
    ∀ e ∈ events, e.type? = some .jobEnqueued → e.sequence < r.sequence

theorem LeaseShape.enqueuedFirst_iff (h : LeaseShape P events c before r read later l after)
    (hnum : Numbered events) : EnqueuedFirst events ↔ read = [] ∧ later = [] ∧ after = [] := by
  have hpair := hnum.pairwise_lt
  rw [h.events_eq, List.pairwise_append] at hpair
  obtain ⟨_, hsuffix, hbefore⟩ := hpair
  constructor
  · intro hfirst
    have hnone : ∀ e ∈ read ++ (later ++ after), False := by
      intro e he
      have hmem : e ∈ read ++ (later ++ l :: after) := by
        rcases List.mem_append.mp he with he | he
        · exact List.mem_append_left _ he
        · rcases List.mem_append.mp he with he | he <;> simp [he]
      have hlt := hfirst r (by rw [h.events_eq]; simp) h.normalized e
        (by rw [h.events_eq]; simp only [List.mem_append, List.mem_cons] at hmem ⊢; tauto)
        (h.enqueued e he)
      have hgt := (List.pairwise_cons.mp hsuffix).1 e hmem
      omega
    simpa using List.eq_nil_iff_forall_not_mem.mpr hnone
  · rintro ⟨rfl, rfl, rfl⟩ t ht hnormalized e he henqueued
    have hlease : l.type? = some .dispatchLeaseIssued := by
      rw [EventRecord.type?, h.lease]
      rfl
    have hevents : events = before ++ [r, l] := h.events_eq
    rw [hevents] at ht he
    have hr : t = r := by
      simp only [List.mem_append, List.mem_cons, List.not_mem_nil, or_false] at ht
      rcases ht with ht | ht | ht
      · exact absurd hnormalized (h.before_types t ht).1
      · exact ht
      · rw [ht, hlease] at hnormalized
        cases hnormalized
    have hin : e ∈ before := by
      simp only [List.mem_append, List.mem_cons, List.not_mem_nil, or_false] at he
      rcases he with he | he | he
      · exact he
      · rw [he, h.normalized] at henqueued
        cases henqueued
      · rw [he, hlease] at henqueued
        cases henqueued
    rw [hr]
    exact hbefore e hin r List.mem_cons_self

end

end NetboxRpc
