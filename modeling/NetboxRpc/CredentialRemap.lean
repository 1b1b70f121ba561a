import Mathlib.Data.Int.Notation
import NetboxRpc.KeyedTable

/-!
# `rpc_remap_credentials_to_openbao`

The command walks the two allowlist tables and gives every row that still only has a legacy
credential the pk of a login assignment of the migrated credential. A dry run reports what the
command would do. In a real run the command creates assignments, and a created assignment changes
what the queries of the later rows return.

The rows of a table come from one cursor, so the loop sees them as they were when the loop of that
table began.
-/

namespace NetboxRpc

namespace Remap

/-! ## Stored rows -/

inductive Allowlist
  | linuxService
  | netBoxPlugin
  deriving DecidableEq, Repr

def Allowlist.modelName : Allowlist → String
  | linuxService => "rpclinuxserviceallowlist"
  | netBoxPlugin => "rpcnetboxpluginallowlist"

structure AllowlistRow where
  pk : ℕ
  sshCredentialOverride : Option ℕ
  openbaoAssignmentId : Option ℤ
  deriving DecidableEq, Repr

structure Credential where
  pk : ℕ
  importSource : Option String
  deriving DecidableEq, Repr

structure CredentialAssignment where
  pk : ℤ
  credentialId : ℕ
  assignedObjectTypeId : ℕ
  assignedObjectId : ℕ
  purpose : String
  enabled : Bool
  description : String
  deriving DecidableEq, Repr

abbrev AllowlistTable := KeyedTable AllowlistRow AllowlistRow.pk

abbrev CredentialTable := KeyedTable Credential Credential.pk

abbrev AssignmentTable := KeyedTable CredentialAssignment CredentialAssignment.pk

structure Database where
  allowlist : Allowlist → AllowlistTable
  credentials : CredentialTable
  assignments : AssignmentTable

/-- What netbox-openbao and the database do outside the command. -/
structure Openbao where
  installed : Bool
  /-- The pk that a saved assignment gets. -/
  nextPk : AssignmentTable → ℤ
  nextPk_new : ∀ t, nextPk t ∉ t.rows.map CredentialAssignment.pk
  /-- The message of the `ValidationError`, or `none` when `full_clean` accepts. -/
  fullClean : AssignmentTable → CredentialAssignment → Option String

/-! ## The command -/

def importSourcePrefix : String := "netbox_nms.DeviceCredential"

def loginPurpose : String := "login"

structure RemapOutcome where
  updated : ℕ := 0
  alreadySet : ℕ := 0
  noLegacyValue : ℕ := 0
  unmatchedCredential : List String := []
  ambiguousCredential : List String := []
  needsManualAssignment : List String := []
  deriving DecidableEq, Repr

def RemapOutcome.merged (self other : RemapOutcome) : RemapOutcome where
  updated := self.updated + other.updated
  alreadySet := self.alreadySet + other.alreadySet
  noLegacyValue := self.noLegacyValue + other.noLegacyValue
  unmatchedCredential := self.unmatchedCredential ++ other.unmatchedCredential
  ambiguousCredential := self.ambiguousCredential ++ other.ambiguousCredential
  needsManualAssignment := self.needsManualAssignment ++ other.needsManualAssignment

def CredentialTable.imported (credentials : CredentialTable) (legacyPk : ℕ) : List Credential :=
  credentials.rows.filter fun c => c.importSource == some s!"{importSourcePrefix}:{legacyPk}"

def resolveCredentialPk (credentials : CredentialTable) (legacyPk : ℕ) : Option ℕ :=
  match ((credentials.imported legacyPk).map Credential.pk).take 2 with
  | [pk] => some pk
  | _ => none

def AssignmentTable.logins (t : AssignmentTable) (credentialPk : ℕ) : List CredentialAssignment :=
  t.rows.filter fun a => a.credentialId == credentialPk && a.purpose == loginPurpose && a.enabled

def AssignmentTable.ofCredential (t : AssignmentTable) (credentialPk : ℕ) :
    List CredentialAssignment :=
  t.rows.filter fun a => a.credentialId == credentialPk

def loginFor (openbao : Openbao) (t : AssignmentTable) (credentialPk : ℕ)
    (adopted : CredentialAssignment) : CredentialAssignment where
  pk := openbao.nextPk t
  credentialId := credentialPk
  assignedObjectTypeId := adopted.assignedObjectTypeId
  assignedObjectId := adopted.assignedObjectId
  purpose := loginPurpose
  enabled := true
  description := "Created by rpc_remap_credentials_to_openbao."

theorem loginFor_new (openbao : Openbao) (t : AssignmentTable) (credentialPk : ℕ)
    (adopted : CredentialAssignment) :
    (loginFor openbao t credentialPk adopted).pk ∉ t.rows.map CredentialAssignment.pk :=
  openbao.nextPk_new t

def resolveOrCreateAssignment (openbao : Openbao) (t : AssignmentTable) (credentialPk : ℕ)
    (dryRun : Bool) : Except String (Option ℤ) × AssignmentTable :=
  match (t.logins credentialPk).take 2 with
  | [login] => (.ok (some login.pk), t)
  | _ :: _ :: _ => (.ok none, t)
  | [] =>
    match (t.ofCredential credentialPk).take 2 with
    | [adopted] =>
      if dryRun then
        -- the sentinel for "would create"
        (.ok (some (-1)), t)
      else
        match openbao.fullClean t (loginFor openbao t credentialPk adopted) with
        | some message => (.error message, t)
        | none => (.ok (some (openbao.nextPk t)),
            t.insert (loginFor openbao t credentialPk adopted)
              (loginFor_new openbao t credentialPk adopted))
    | _ => (.ok none, t)

def Database.saveAssignmentId (db : Database) (allowlist : Allowlist) (rowPk : ℕ)
    (assignmentPk : ℤ) : Database :=
  { db with
    allowlist := Function.update db.allowlist allowlist
      ((db.allowlist allowlist).update rowPk
        (fun r => { r with openbaoAssignmentId := some assignmentPk }) fun _ => rfl) }

def rowLabel (allowlist : Allowlist) (row : AllowlistRow) (legacyPk : ℕ) : String :=
  s!"{allowlist.modelName}:{row.pk} (legacy pk {legacyPk})"

def remapRow (openbao : Openbao) (dryRun : Bool) (allowlist : Allowlist) (row : AllowlistRow)
    (db : Database) : Except String RemapOutcome × Database :=
  match row.openbaoAssignmentId with
  | some _ => (.ok { alreadySet := 1 }, db)
  | none =>
    match row.sshCredentialOverride with
    | none => (.ok { noLegacyValue := 1 }, db)
    | some legacyPk =>
      match resolveCredentialPk db.credentials legacyPk with
      | none => (.ok { unmatchedCredential := [rowLabel allowlist row legacyPk] }, db)
      | some credentialPk =>
        match resolveOrCreateAssignment openbao db.assignments credentialPk dryRun with
        | (.error message, t) => (.error message, { db with assignments := t })
        | (.ok none, t) => (.ok { needsManualAssignment := [rowLabel allowlist row legacyPk] },
            { db with assignments := t })
        | (.ok (some assignmentPk), t) => (.ok { updated := 1 },
            if dryRun then { db with assignments := t }
            else { db with assignments := t }.saveAssignmentId allowlist row.pk assignmentPk)

def remapRows (openbao : Openbao) (dryRun : Bool) (allowlist : Allowlist) :
    List AllowlistRow → RemapOutcome → Database → Except String RemapOutcome × Database
  | [], totals, db => (.ok totals, db)
  | row :: rest, totals, db =>
    match remapRow openbao dryRun allowlist row db with
    | (.error message, db) => (.error message, db)
    | (.ok outcome, db) => remapRows openbao dryRun allowlist rest (totals.merged outcome) db

def remapModels (openbao : Openbao) (dryRun : Bool) :
    List Allowlist → RemapOutcome → Database → Except String RemapOutcome × Database
  | [], totals, db => (.ok totals, db)
  | allowlist :: rest, totals, db =>
    match remapRows openbao dryRun allowlist (db.allowlist allowlist).rows totals db with
    | (.error message, db) => (.error message, db)
    | (.ok totals, db) => remapModels openbao dryRun rest totals db

def report (dryRun : Bool) (totals : RemapOutcome) : List String :=
  let verb := if dryRun then "Would update" else "Updated"
  let entries (heading : String) (labels : List String) : List String :=
    if labels.isEmpty then [] else heading :: labels.map ("  " ++ ·)
  [s!"{verb} {totals.updated} row(s).",
    s!"Already had openbao_assignment_id: {totals.alreadySet}",
    s!"No legacy ssh_credential_override: {totals.noLegacyValue}"] ++
    entries "No migrated credential found:" totals.unmatchedCredential ++
    entries ("Credential migrated but the target assignment is ambiguous or unknown -- " ++
      "create/disambiguate manually:") totals.needsManualAssignment

inductive CommandResult
  | commandError (message : String)
  | validationError (message : String)
  | completed (totals : RemapOutcome) (output : List String)
  deriving DecidableEq, Repr

def handle (openbao : Openbao) (dryRun : Bool) (db : Database) : CommandResult × Database :=
  if !openbao.installed then
    (.commandError "netbox-openbao is not installed; there is nothing to remap to.", db)
  else
    match remapModels openbao dryRun [.linuxService, .netBoxPlugin] {} db with
    | (.error message, db) => (.validationError message, db)
    | (.ok totals, db) => (.completed totals (report dryRun totals), db)

/-! ## Looking up and creating assignments -/

variable {openbao : Openbao} {t t' : AssignmentTable} {c credentialPk : ℕ}

/-- `full_clean` accepts every assignment that the command creates. -/
def Openbao.Accepts (openbao : Openbao) : Prop :=
  ∀ t created, openbao.fullClean t created = none

/-- A credential has one enabled login, or has none and a single assignment to adopt. -/
def AssignmentTable.Assignable (t : AssignmentTable) (c : ℕ) : Prop :=
  (∃ login, t.logins c = [login]) ∨ (t.logins c = [] ∧ ∃ adopted, t.ofCredential c = [adopted])

theorem AssignmentTable.mem_logins_iff {a : CredentialAssignment} : a ∈ t.logins c ↔
    a ∈ t.rows ∧ a.credentialId = c ∧ a.purpose = loginPurpose ∧ a.enabled = true := by
  rw [logins, List.mem_filter]
  simp [and_assoc]

/-- The result of granting the assignment `pk` to the credential `c`: assignments are only added,
and every credential is as assignable as before. -/
structure Granted (t t' : AssignmentTable) (c : ℕ) (pk : ℤ) : Prop where
  subset : t.rows ⊆ t'.rows
  login : ∃ a ∈ t'.logins c, a.pk = pk
  assignable_iff : ∀ other, t'.Assignable other ↔ t.Assignable other

theorem resolve_of_not_assignable (h : ¬ t.Assignable c) (dryRun : Bool) :
    resolveOrCreateAssignment openbao t c dryRun = (.ok none, t) := by
  rcases hlogins : t.logins c with _ | ⟨login, _ | ⟨second, others⟩⟩
  · rcases hall : t.ofCredential c with _ | ⟨adopted, _ | ⟨second, others⟩⟩
    · simp [resolveOrCreateAssignment, hlogins, hall]
    · exact absurd (.inr ⟨hlogins, adopted, hall⟩) h
    · simp [resolveOrCreateAssignment, hlogins, hall]
  · exact absurd (.inl ⟨login, hlogins⟩) h
  · simp [resolveOrCreateAssignment, hlogins]

theorem resolve_assignable_dry (openbao : Openbao) (h : t.Assignable c) :
    ∃ pk, resolveOrCreateAssignment openbao t c true = (.ok (some pk), t) := by
  rcases h with ⟨login, hlogins⟩ | ⟨hlogins, adopted, hall⟩
  · exact ⟨login.pk, by simp [resolveOrCreateAssignment, hlogins]⟩
  · exact ⟨-1, by simp [resolveOrCreateAssignment, hlogins, hall]⟩

/-- Creating the missing login makes its credential have exactly one, so no credential becomes
more or less assignable. -/
theorem granted_create (openbao : Openbao) (hlogins : t.logins c = []) {adopted : CredentialAssignment}
    (hall : t.ofCredential c = [adopted]) :
    Granted t (t.insert (loginFor openbao t c adopted) (loginFor_new openbao t c adopted)) c
      (openbao.nextPk t) where
  subset := List.subset_append_left _ _
  login := by
    refine ⟨loginFor openbao t c adopted, ?_, rfl⟩
    rw [AssignmentTable.mem_logins_iff]
    exact ⟨by simp, rfl, rfl, rfl⟩
  assignable_iff := by
    intro other
    by_cases hother : other = c
    · subst hother
      have hcreated : AssignmentTable.logins
          (t.insert (loginFor openbao t other adopted) (loginFor_new openbao t other adopted))
            other = [loginFor openbao t other adopted] := by
        rw [AssignmentTable.logins] at hlogins ⊢
        rw [KeyedTable.insert_rows, List.filter_append, hlogins]
        simp [loginFor]
      exact ⟨fun _ => .inr ⟨hlogins, adopted, hall⟩, fun _ => .inl ⟨_, hcreated⟩⟩
    · have hskip : (loginFor openbao t c adopted).credentialId ≠ other := fun h => hother h.symm
      simp [AssignmentTable.Assignable, AssignmentTable.logins, AssignmentTable.ofCredential,
        List.filter_append, hskip]

theorem resolve_assignable_real (openbao : Openbao) (h : t.Assignable c) :
    (∃ message, ¬ openbao.Accepts ∧
      resolveOrCreateAssignment openbao t c false = (.error message, t)) ∨
    ∃ pk t', Granted t t' c pk ∧
      resolveOrCreateAssignment openbao t c false = (.ok (some pk), t') := by
  rcases h with ⟨login, hlogins⟩ | ⟨hlogins, adopted, hall⟩
  · refine .inr ⟨login.pk, t, ⟨List.Subset.refl _, ⟨login, ?_, rfl⟩, fun _ => Iff.rfl⟩, ?_⟩
    · rw [hlogins]
      exact List.mem_singleton_self login
    · simp [resolveOrCreateAssignment, hlogins]
  · cases hclean : openbao.fullClean t (loginFor openbao t c adopted) with
    | some message =>
      refine .inl ⟨message, fun haccepts => ?_, by
        simp [resolveOrCreateAssignment, hlogins, hall, hclean]⟩
      rw [haccepts] at hclean
      cases hclean
    | none => exact .inr ⟨_, _, granted_create openbao hlogins hall, by
        simp [resolveOrCreateAssignment, hlogins, hall, hclean]⟩

/-! ## One row -/

section Row

variable {db db₀ db' : Database} {allowlist : Allowlist} {row : AllowlistRow}

/-- The command has an assignment for the row: the row has only a legacy credential, and the
credential it migrated to is assignable. -/
def Pending (db : Database) (row : AllowlistRow) (c : ℕ) : Prop :=
  row.openbaoAssignmentId = none ∧ ∃ legacyPk, row.sshCredentialOverride = some legacyPk ∧
    resolveCredentialPk db.credentials legacyPk = some c ∧ db.assignments.Assignable c

def Settled (db : Database) (row : AllowlistRow) : Prop := ∀ c, ¬ Pending db row c

def settledOutcome (credentials : CredentialTable) (allowlist : Allowlist) (row : AllowlistRow) :
    RemapOutcome :=
  match row.openbaoAssignmentId, row.sshCredentialOverride with
  | some _, _ => { alreadySet := 1 }
  | none, none => { noLegacyValue := 1 }
  | none, some legacyPk =>
    match resolveCredentialPk credentials legacyPk with
    | none => { unmatchedCredential := [rowLabel allowlist row legacyPk] }
    | some _ => { needsManualAssignment := [rowLabel allowlist row legacyPk] }

theorem settledOutcome_updated (credentials : CredentialTable) :
    (settledOutcome credentials allowlist row).updated = 0 := by
  unfold settledOutcome
  split
  · rfl
  · rfl
  · split <;> rfl

theorem remapRow_of_settled (h : Settled db row) (dryRun : Bool) :
    remapRow openbao dryRun allowlist row db =
      (.ok (settledOutcome db.credentials allowlist row), db) := by
  unfold remapRow settledOutcome
  cases hid : row.openbaoAssignmentId with
  | some id => rfl
  | none =>
    cases hlegacy : row.sshCredentialOverride with
    | none => rfl
    | some legacyPk =>
      cases hcredential : resolveCredentialPk db.credentials legacyPk with
      | none => simp only [hcredential]
      | some c =>
        have hmanual : ¬ db.assignments.Assignable c := fun hassignable =>
          h c ⟨hid, legacyPk, hlegacy, hcredential, hassignable⟩
        simp only [hcredential, resolve_of_not_assignable hmanual]

theorem remapRow_of_pending_dry (h : Pending db row c) :
    remapRow openbao true allowlist row db = (.ok { updated := 1 }, db) := by
  obtain ⟨hid, legacyPk, hlegacy, hcredential, hassignable⟩ := h
  obtain ⟨pk, hresolve⟩ := resolve_assignable_dry openbao hassignable
  unfold remapRow
  simp only [hid, hlegacy, hcredential, hresolve, if_true]

theorem remapRow_of_pending_real (openbao : Openbao) (allowlist : Allowlist)
    (h : Pending db row c) :
    (∃ message, ¬ openbao.Accepts ∧
      remapRow openbao false allowlist row db = (.error message, db)) ∨
    ∃ pk t', Granted db.assignments t' c pk ∧
      remapRow openbao false allowlist row db = (.ok { updated := 1 },
        { db with assignments := t' }.saveAssignmentId allowlist row.pk pk) := by
  obtain ⟨hid, legacyPk, hlegacy, hcredential, hassignable⟩ := h
  rcases resolve_assignable_real openbao hassignable with
    ⟨message, hrejects, hresolve⟩ | ⟨pk, t', hgranted, hresolve⟩
  · refine .inl ⟨message, hrejects, ?_⟩
    unfold remapRow
    simp only [hid, hlegacy, hcredential, hresolve]
  · refine .inr ⟨pk, t', hgranted, ?_⟩
    unfold remapRow
    simp only [hid, hlegacy, hcredential, hresolve, Bool.false_eq_true, if_false]

theorem remapRow_dry_state : (remapRow openbao true allowlist row db).2 = db := by
  by_cases hsettled : Settled db row
  · rw [remapRow_of_settled hsettled]
  · obtain ⟨c, hpending⟩ := not_forall_not.mp hsettled
    rw [remapRow_of_pending_dry hpending]

/-! ### What later rows still see -/

structure Agrees (db db' : Database) : Prop where
  credentials : db'.credentials = db.credentials
  assignable_iff : ∀ c, db'.assignments.Assignable c ↔ db.assignments.Assignable c

theorem Agrees.refl (db : Database) : Agrees db db := ⟨rfl, fun _ => Iff.rfl⟩

theorem Agrees.trans (h : Agrees db₀ db) (h' : Agrees db db') : Agrees db₀ db' :=
  ⟨h'.credentials.trans h.credentials,
    fun c => (h'.assignable_iff c).trans (h.assignable_iff c)⟩

theorem Agrees.pending_iff (h : Agrees db db') : Pending db' row c ↔ Pending db row c := by
  simp only [Pending, h.credentials, h.assignable_iff]

theorem Agrees.settled_iff (h : Agrees db db') : Settled db' row ↔ Settled db row :=
  forall_congr' fun _ => not_congr h.pending_iff

theorem remapRow_agrees : Agrees db (remapRow openbao false allowlist row db).2 := by
  by_cases hsettled : Settled db row
  · rw [remapRow_of_settled hsettled]
    exact .refl db
  · obtain ⟨c, hpending⟩ := not_forall_not.mp hsettled
    rcases remapRow_of_pending_real openbao allowlist hpending with
      ⟨message, -, hrow⟩ | ⟨pk, t', hgranted, hrow⟩
    · rw [hrow]
      exact .refl db
    · rw [hrow]
      exact ⟨rfl, hgranted.assignable_iff⟩

/-- A dry run says about a row what the real run then does with it, also after the real run has
created assignments for other rows. -/
theorem remapRow_predicted (haccepts : openbao.Accepts) (h : Agrees db₀ db) :
    (remapRow openbao false allowlist row db).1 = (remapRow openbao true allowlist row db₀).1 := by
  by_cases hsettled : Settled db₀ row
  · rw [remapRow_of_settled hsettled, remapRow_of_settled (h.settled_iff.mpr hsettled),
      h.credentials]
  · obtain ⟨c, hpending⟩ := not_forall_not.mp hsettled
    rw [remapRow_of_pending_dry hpending]
    rcases remapRow_of_pending_real openbao allowlist (h.pending_iff.mpr hpending) with
      ⟨message, hrejects, hrow⟩ | ⟨pk, t', hgranted, hrow⟩
    · exact absurd haccepts hrejects
    · rw [hrow]

/-! ### What a real run writes -/

/-- The row is as before, or had no assignment and now has an enabled login of the credential that
its legacy credential migrated to. -/
def Remapped (db : Database) (before after : AllowlistRow) : Prop :=
  after = before ∨
    (before.openbaoAssignmentId = none ∧ ∃ legacyPk credential, ∃ a ∈ db.assignments.rows,
      before.sshCredentialOverride = some legacyPk ∧
      db.credentials.imported legacyPk = [credential] ∧ a.credentialId = credential.pk ∧
      a.purpose = loginPurpose ∧ a.enabled = true ∧
      after = { before with openbaoAssignmentId := some a.pk })

structure Evolves (db db' : Database) : Prop where
  credentials : db'.credentials = db.credentials
  assignments : db.assignments.rows ⊆ db'.assignments.rows
  rows : ∀ allowlist, List.Forall₂ (Remapped db') (db.allowlist allowlist).rows
    (db'.allowlist allowlist).rows

theorem Evolves.refl (db : Database) : Evolves db db where
  credentials := rfl
  assignments := List.Subset.refl _
  rows := fun _ => List.forall₂_same.mpr fun _ _ => .inl rfl

theorem Remapped.mono (h : Evolves db db') {before after : AllowlistRow}
    (hrow : Remapped db before after) : Remapped db' before after := by
  rcases hrow with rfl | ⟨hid, legacyPk, credential, a, ha, hlegacy, himported, hrest⟩
  · exact .inl rfl
  · exact .inr ⟨hid, legacyPk, credential, a, h.assignments ha, hlegacy,
      by rw [h.credentials, himported], hrest⟩

theorem Remapped.trans {first second third : AllowlistRow} (h : Remapped db first second)
    (h' : Remapped db second third) : Remapped db first third := by
  rcases h with rfl | ⟨hid, legacyPk, credential, a, ha, hlegacy, himported, hof, hlogin, hon, rfl⟩
  · exact h'
  · rcases h' with rfl | ⟨hid', -⟩
    · exact .inr ⟨hid, legacyPk, credential, a, ha, hlegacy, himported, hof, hlogin, hon, rfl⟩
    · cases hid'

theorem Evolves.trans (h : Evolves db₀ db) (h' : Evolves db db') : Evolves db₀ db' where
  credentials := h'.credentials.trans h.credentials
  assignments := List.Subset.trans h.assignments h'.assignments
  rows := fun allowlist => forall₂_trans (fun _ _ _ hfirst hsecond => (hfirst.mono h').trans hsecond)
    (h.rows allowlist) (h'.rows allowlist)

theorem resolveCredentialPk_eq_some {credentials : CredentialTable} {legacyPk : ℕ}
    (h : resolveCredentialPk credentials legacyPk = some c) :
    ∃ credential, credentials.imported legacyPk = [credential] ∧ credential.pk = c := by
  unfold resolveCredentialPk at h
  rcases himported : credentials.imported legacyPk with _ | ⟨credential, _ | ⟨second, others⟩⟩
  · simp [himported] at h
  · exact ⟨credential, rfl, by simpa [himported] using h⟩
  · simp [himported] at h

theorem saveAssignmentId_allowlist_self (pk : ℕ) (id : ℤ) :
    (db.saveAssignmentId allowlist pk id).allowlist allowlist =
      (db.allowlist allowlist).update pk (fun r => { r with openbaoAssignmentId := some id })
        fun _ => rfl :=
  Function.update_self ..

theorem saveAssignmentId_allowlist_ne (pk : ℕ) (id : ℤ) {other : Allowlist}
    (h : other ≠ allowlist) :
    (db.saveAssignmentId allowlist pk id).allowlist other = db.allowlist other :=
  Function.update_of_ne h ..

theorem evolves_save (hrow : row ∈ (db.allowlist allowlist).rows) (h : Pending db row c) {pk : ℤ}
    (hgranted : Granted db.assignments t' c pk) :
    Evolves db ({ db with assignments := t' }.saveAssignmentId allowlist row.pk pk) where
  credentials := rfl
  assignments := hgranted.subset
  rows := by
    intro other
    by_cases hother : other = allowlist
    · subst hother
      rw [saveAssignmentId_allowlist_self]
      apply KeyedTable.forall₂_update
      · exact fun r => .inl rfl
      · intro r hr hkey
        obtain rfl := (db.allowlist other).eq_of_key hr hrow hkey
        obtain ⟨hid, legacyPk, hlegacy, hcredential, -⟩ := h
        obtain ⟨credential, himported, hpk⟩ := resolveCredentialPk_eq_some hcredential
        obtain ⟨a, ha, rfl⟩ := hgranted.login
        rw [AssignmentTable.mem_logins_iff] at ha
        obtain ⟨ha, hof, hlogin, hon⟩ := ha
        exact .inr ⟨hid, legacyPk, credential, a, ha, hlegacy, himported, hof.trans hpk.symm,
          hlogin, hon, rfl⟩
    · rw [saveAssignmentId_allowlist_ne row.pk pk hother]
      exact List.forall₂_same.mpr fun _ _ => .inl rfl

structure RowStep (allowlist : Allowlist) (row : AllowlistRow) (db db' : Database) : Prop where
  evolves : Evolves db db'
  agrees : Agrees db db'
  other_table : ∀ other, other ≠ allowlist → db'.allowlist other = db.allowlist other
  other_row : ∀ r ∈ (db.allowlist allowlist).rows, r ≠ row → r ∈ (db'.allowlist allowlist).rows

theorem RowStep.refl (allowlist : Allowlist) (row : AllowlistRow) (db : Database) :
    RowStep allowlist row db db :=
  ⟨.refl db, .refl db, fun _ _ => rfl, fun _ hr _ => hr⟩

theorem rowStep_save (hrow : row ∈ (db.allowlist allowlist).rows) (h : Pending db row c) {pk : ℤ}
    (hgranted : Granted db.assignments t' c pk) :
    RowStep allowlist row db
      ({ db with assignments := t' }.saveAssignmentId allowlist row.pk pk) where
  evolves := evolves_save hrow h hgranted
  agrees := ⟨rfl, hgranted.assignable_iff⟩
  other_table := fun _ hother => saveAssignmentId_allowlist_ne row.pk pk hother
  other_row := by
    intro r hr hne
    rw [saveAssignmentId_allowlist_self, KeyedTable.mem_update_iff]
    exact .inr ⟨hr, fun hkey => hne ((db.allowlist allowlist).eq_of_key hr hrow hkey)⟩

theorem remapRow_step (hrow : row ∈ (db.allowlist allowlist).rows) :
    RowStep allowlist row db (remapRow openbao false allowlist row db).2 := by
  by_cases hsettled : Settled db row
  · rw [remapRow_of_settled hsettled]
    exact .refl allowlist row db
  · obtain ⟨c, hpending⟩ := not_forall_not.mp hsettled
    rcases remapRow_of_pending_real openbao allowlist hpending with
      ⟨message, -, heq⟩ | ⟨pk, t', hgranted, heq⟩
    · rw [heq]
      exact .refl allowlist row db
    · rw [heq]
      exact rowStep_save hrow hpending hgranted

/-- After its step the row is settled; the other rows are those of before. -/
theorem remapRow_settles (haccepts : openbao.Accepts)
    (hrow : row ∈ (db.allowlist allowlist).rows) {r : AllowlistRow}
    (hr : r ∈ ((remapRow openbao false allowlist row db).2.allowlist allowlist).rows) :
    Settled (remapRow openbao false allowlist row db).2 r ∨
      (r ∈ (db.allowlist allowlist).rows ∧ r ≠ row) := by
  by_cases hsettled : Settled db row
  · rw [remapRow_of_settled hsettled] at hr ⊢
    by_cases hself : r = row
    · subst hself
      exact .inl hsettled
    · exact .inr ⟨hr, hself⟩
  · obtain ⟨c, hpending⟩ := not_forall_not.mp hsettled
    rcases remapRow_of_pending_real openbao allowlist hpending with
      ⟨message, hrejects, -⟩ | ⟨pk, t', hgranted, heq⟩
    · exact absurd haccepts hrejects
    · rw [heq] at hr ⊢
      simp only at hr ⊢
      rw [saveAssignmentId_allowlist_self, KeyedTable.mem_update_iff] at hr
      rcases hr with ⟨r₀, -, -, rfl⟩ | ⟨hr, hkey⟩
      · left
        rintro c' ⟨hid, -⟩
        cases hid
      · exact .inr ⟨hr, fun hself => hkey (congrArg AllowlistRow.pk hself)⟩

end Row

/-! ## The loops -/

section Loops

variable {dryRun : Bool} {allowlist : Allowlist} {db db₀ : Database} {totals : RemapOutcome}

/-- An invariant of the rows still to come and the database holds where the loop ends, which is
after the last row unless an assignment was refused. -/
theorem remapRows_invariant {I : List AllowlistRow → Database → Prop}
    (hstep : ∀ row rest db, I (row :: rest) db → I rest (remapRow openbao dryRun allowlist row db).2)
    (rows : List AllowlistRow) (totals : RemapOutcome) (db : Database) (h : I rows db) :
    ∃ rest, I rest (remapRows openbao dryRun allowlist rows totals db).2 ∧
      (∀ result, (remapRows openbao dryRun allowlist rows totals db).1 = .ok result →
        rest = []) := by
  induction rows generalizing totals db with
  | nil => exact ⟨[], h, fun _ _ => rfl⟩
  | cons row rest ih =>
    have hrest := hstep row rest db h
    unfold remapRows
    revert hrest
    rcases remapRow openbao dryRun allowlist row db with ⟨_ | outcome, db'⟩ <;> intro hrest
    · exact ⟨rest, hrest, fun _ hresult => by cases hresult⟩
    · exact ih (totals.merged outcome) db' hrest

theorem remapRows_dry_state (rows : List AllowlistRow) :
    (remapRows openbao true allowlist rows totals db).2 = db := by
  obtain ⟨-, hstate, -⟩ := @remapRows_invariant openbao true allowlist (fun _ db' => db' = db)
    (fun row rest db' h => by rw [remapRow_dry_state, h]) rows totals db rfl
  exact hstate

theorem remapRows_predicted (haccepts : openbao.Accepts) (rows : List AllowlistRow)
    (totals : RemapOutcome) (h : Agrees db₀ db) :
    (remapRows openbao false allowlist rows totals db).1 =
      (remapRows openbao true allowlist rows totals db₀).1 := by
  induction rows generalizing totals db with
  | nil => rfl
  | cons row rest ih =>
    have hresult := @remapRow_predicted openbao db db₀ allowlist row haccepts h
    have hstate := @remapRow_dry_state openbao db₀ allowlist row
    have hagrees := h.trans (@remapRow_agrees openbao db allowlist row)
    unfold remapRows
    revert hresult hstate hagrees
    rcases remapRow openbao false allowlist row db with ⟨real, db'⟩
    rcases remapRow openbao true allowlist row db₀ with ⟨dry, db₀'⟩
    rintro rfl rfl hagrees
    cases real with
    | error message => rfl
    | ok outcome => exact ih (totals.merged outcome) hagrees

/-- What holds while a real run walks the rows of one model: the rows to come are still stored as
the cursor read them, and the rows already walked are settled. -/
structure Walking (openbao : Openbao) (allowlist : Allowlist) (db₀ : Database)
    (rest : List AllowlistRow) (db : Database) : Prop where
  evolves : Evolves db₀ db
  agrees : Agrees db₀ db
  other_table : ∀ other, other ≠ allowlist → db.allowlist other = db₀.allowlist other
  nodup : rest.Nodup
  stored : ∀ r ∈ rest, r ∈ (db.allowlist allowlist).rows
  walked : openbao.Accepts → ∀ r ∈ (db.allowlist allowlist).rows, r ∈ rest ∨ Settled db r

theorem walking_start (openbao : Openbao) (allowlist : Allowlist) (db : Database) :
    Walking openbao allowlist db (db.allowlist allowlist).rows db where
  evolves := .refl db
  agrees := .refl db
  other_table := fun _ _ => rfl
  nodup := (db.allowlist allowlist).nodup_keys.of_map _
  stored := fun _ hr => hr
  walked := fun _ _ hr => .inl hr

theorem Walking.step {row : AllowlistRow} {rest : List AllowlistRow}
    (h : Walking openbao allowlist db₀ (row :: rest) db) :
    Walking openbao allowlist db₀ rest (remapRow openbao false allowlist row db).2 := by
  have hrow := h.stored row (List.mem_cons_self ..)
  obtain ⟨hfresh, hnodup⟩ := List.nodup_cons.mp h.nodup
  have hstep := @remapRow_step openbao db allowlist row hrow
  constructor
  · exact h.evolves.trans hstep.evolves
  · exact h.agrees.trans hstep.agrees
  · exact fun other hother => (hstep.other_table other hother).trans (h.other_table other hother)
  · exact hnodup
  · intro r hr
    have hne : r ≠ row := fun hself => hfresh (hself ▸ hr)
    exact hstep.other_row r (h.stored r (List.mem_cons_of_mem row hr)) hne
  · intro haccepts r hr
    rcases remapRow_settles haccepts hrow hr with hsettled | ⟨hbefore, hne⟩
    · exact .inr hsettled
    · rcases h.walked haccepts r hbefore with hmem | hsettled
      · exact .inl ((List.mem_cons.mp hmem).resolve_left hne)
      · exact .inr (hstep.agrees.settled_iff.mpr hsettled)

theorem remapRows_walking (openbao : Openbao) (allowlist : Allowlist) (totals : RemapOutcome)
    (db : Database) :
    ∃ rest, Walking openbao allowlist db rest
        (remapRows openbao false allowlist (db.allowlist allowlist).rows totals db).2 ∧
      ∀ result, (remapRows openbao false allowlist (db.allowlist allowlist).rows totals db).1 =
        .ok result → rest = [] :=
  remapRows_invariant (fun _ _ _ h => h.step) _ totals db (walking_start openbao allowlist db)

theorem remapRows_of_settled (rows : List AllowlistRow) (totals : RemapOutcome)
    (h : ∀ row ∈ rows, Settled db row) :
    ∃ totals', remapRows openbao dryRun allowlist rows totals db = (.ok totals', db) ∧
      totals'.updated = totals.updated := by
  induction rows generalizing totals with
  | nil => exact ⟨totals, rfl, rfl⟩
  | cons row rest ih =>
    rw [List.forall_mem_cons] at h
    obtain ⟨totals', hrest, hupdated⟩ :=
      ih (totals.merged (settledOutcome db.credentials allowlist row)) h.2
    refine ⟨totals', ?_, ?_⟩
    · rw [remapRows, remapRow_of_settled h.1]
      exact hrest
    · rw [hupdated, RemapOutcome.merged, settledOutcome_updated, Nat.add_zero]

theorem remapRows_ok (haccepts : openbao.Accepts) (rows : List AllowlistRow)
    (totals : RemapOutcome) (db : Database) :
    ∃ result, (remapRows openbao dryRun allowlist rows totals db).1 = .ok result := by
  induction rows generalizing totals db with
  | nil => exact ⟨totals, rfl⟩
  | cons row rest ih =>
    have hok : ∃ outcome, (remapRow openbao dryRun allowlist row db).1 = .ok outcome := by
      by_cases hsettled : Settled db row
      · exact ⟨_, by rw [remapRow_of_settled hsettled]⟩
      · obtain ⟨c, hpending⟩ := not_forall_not.mp hsettled
        have hdry : (remapRow openbao true allowlist row db).1 = .ok { updated := 1 } := by
          rw [remapRow_of_pending_dry hpending]
        cases dryRun with
        | true => exact ⟨_, hdry⟩
        | false => exact ⟨_, (remapRow_predicted haccepts (.refl db)).trans hdry⟩
    obtain ⟨outcome, houtcome⟩ := hok
    unfold remapRows
    revert houtcome
    rcases remapRow openbao dryRun allowlist row db with ⟨result, db'⟩
    rintro rfl
    exact ih (totals.merged outcome) db'

/-! ### The loop over the models -/

theorem remapModels_dry_state (models : List Allowlist) (totals : RemapOutcome) :
    (remapModels openbao true models totals db).2 = db := by
  induction models generalizing totals with
  | nil => rfl
  | cons allowlist rest ih =>
    have hstate := @remapRows_dry_state openbao allowlist db totals (db.allowlist allowlist).rows
    unfold remapModels
    revert hstate
    rcases remapRows openbao true allowlist (db.allowlist allowlist).rows totals db with
      ⟨_ | result, db'⟩
    · exact id
    · rintro rfl
      exact ih result

theorem remapModels_of_settled (models : List Allowlist) (totals : RemapOutcome)
    (h : ∀ allowlist, ∀ row ∈ (db.allowlist allowlist).rows, Settled db row) :
    ∃ totals', remapModels openbao dryRun models totals db = (.ok totals', db) ∧
      totals'.updated = totals.updated := by
  induction models generalizing totals with
  | nil => exact ⟨totals, rfl, rfl⟩
  | cons allowlist rest ih =>
    obtain ⟨result, hrows, hupdated⟩ := @remapRows_of_settled openbao dryRun allowlist db _ totals
      (h allowlist)
    obtain ⟨totals', hrest, hupdated'⟩ := ih result
    refine ⟨totals', ?_, hupdated'.trans hupdated⟩
    rw [remapModels, hrows]
    exact hrest

theorem remapModels_evolves (models : List Allowlist) (totals : RemapOutcome) (db : Database) :
    Evolves db (remapModels openbao false models totals db).2 := by
  induction models generalizing totals db with
  | nil => exact .refl db
  | cons allowlist rest ih =>
    obtain ⟨_, hwalking, _⟩ := remapRows_walking openbao allowlist totals db
    unfold remapModels
    revert hwalking
    rcases remapRows openbao false allowlist (db.allowlist allowlist).rows totals db with
      ⟨_ | result, db'⟩ <;> intro hwalking
    · exact hwalking.evolves
    · exact hwalking.evolves.trans (ih result db')

/-- A dry run over the models that are left predicts the real run that has already walked the
other models. -/
theorem remapModels_predicted (haccepts : openbao.Accepts) {models : List Allowlist}
    (hnodup : models.Nodup) (totals : RemapOutcome) (h : Agrees db₀ db)
    (hrows : ∀ allowlist ∈ models, db.allowlist allowlist = db₀.allowlist allowlist) :
    (remapModels openbao false models totals db).1 =
      (remapModels openbao true models totals db₀).1 := by
  induction models generalizing totals db with
  | nil => rfl
  | cons allowlist rest ih =>
    obtain ⟨hfresh, hnodup⟩ := List.nodup_cons.mp hnodup
    obtain ⟨hself, hothers⟩ := List.forall_mem_cons.mp hrows
    obtain ⟨_, hwalking, _⟩ := remapRows_walking openbao allowlist totals db
    have hresult := @remapRows_predicted openbao allowlist db db₀ haccepts
      (db.allowlist allowlist).rows totals h
    have hstate := @remapRows_dry_state openbao allowlist db₀ totals (db.allowlist allowlist).rows
    unfold remapModels
    rw [← hself]
    revert hwalking hresult hstate
    rcases remapRows openbao false allowlist (db.allowlist allowlist).rows totals db with
      ⟨real, db'⟩
    rcases remapRows openbao true allowlist (db.allowlist allowlist).rows totals db₀ with
      ⟨dry, db₀'⟩
    rintro hwalking rfl rfl
    cases real with
    | error message => rfl
    | ok result =>
      refine ih hnodup result (h.trans hwalking.agrees) fun other hother => ?_
      have hne : other ≠ allowlist := fun heq => hfresh (heq ▸ hother)
      exact (hwalking.other_table other hne).trans (hothers other hother)

theorem remapModels_settled (haccepts : openbao.Accepts) (models : List Allowlist)
    (totals : RemapOutcome) (db : Database)
    (h : ∀ allowlist, allowlist ∈ models ∨ ∀ row ∈ (db.allowlist allowlist).rows, Settled db row) :
    (∃ result, (remapModels openbao false models totals db).1 = .ok result) ∧
      ∀ allowlist, ∀ row ∈ ((remapModels openbao false models totals db).2.allowlist allowlist).rows,
        Settled (remapModels openbao false models totals db).2 row := by
  induction models generalizing totals db with
  | nil => exact ⟨⟨totals, rfl⟩, fun allowlist => (h allowlist).resolve_left (List.not_mem_nil)⟩
  | cons allowlist rest ih =>
    obtain ⟨left, hwalking, hdone⟩ := remapRows_walking openbao allowlist totals db
    obtain ⟨result, hok⟩ := @remapRows_ok openbao false allowlist haccepts
      (db.allowlist allowlist).rows totals db
    obtain rfl := hdone result hok
    unfold remapModels
    revert hwalking hok
    rcases remapRows openbao false allowlist (db.allowlist allowlist).rows totals db with
      ⟨real, db'⟩
    rintro rfl hwalking
    apply ih result db'
    intro other
    by_cases hother : other = allowlist
    · subst hother
      right
      intro row hrow
      exact (hwalking.walked haccepts row hrow).resolve_left List.not_mem_nil
    · refine (h other).imp (fun hmem => (List.mem_cons.mp hmem).resolve_left hother) ?_
      intro hsettled row hrow
      rw [hwalking.other_table other hother] at hrow
      exact hwalking.agrees.settled_iff.mpr (hsettled row hrow)

end Loops

/-! ## The command -/

def CommandResult.SameReport : CommandResult → CommandResult → Prop
  | completed totals output, completed totals' output' =>
    totals' = totals ∧ output'.tail = output.tail
  | commandError message, commandError message' => message' = message
  | _, _ => False

theorem report_tail (totals : RemapOutcome) : (report false totals).tail = (report true totals).tail :=
  rfl

/-- A dry run writes nothing and reports what the real run then does. The real run only gives rows
without an assignment a login of their migrated credential, and a second one changes nothing. -/
theorem dry_run_predicts_remap (openbao : Openbao) (haccepts : openbao.Accepts) (db : Database) :
    (handle openbao true db).2 = db ∧
      (handle openbao true db).1.SameReport (handle openbao false db).1 ∧
      Evolves db (handle openbao false db).2 ∧
      (handle openbao false (handle openbao false db).2).2 = (handle openbao false db).2 ∧
      ∀ totals output,
        (handle openbao false (handle openbao false db).2).1 = .completed totals output →
          totals.updated = 0 := by
  cases hinstalled : openbao.installed with
  | false =>
    simp only [handle, hinstalled, Bool.not_false, if_true]
    exact ⟨trivial, rfl, .refl db, trivial, fun _ _ h => by cases h⟩
  | true =>
    have hmodels : ∀ allowlist, allowlist ∈ [Allowlist.linuxService, .netBoxPlugin] := by
      intro allowlist
      cases allowlist <;> decide
    have hstate := @remapModels_dry_state openbao db [.linuxService, .netBoxPlugin] {}
    have hresult := @remapModels_predicted openbao db db haccepts [.linuxService, .netBoxPlugin]
      (by decide) {} (.refl db) fun _ _ => rfl
    have hevolves := @remapModels_evolves openbao [.linuxService, .netBoxPlugin] {} db
    obtain ⟨⟨totals, hok⟩, hsettled⟩ := remapModels_settled haccepts
      [.linuxService, .netBoxPlugin] {} db fun allowlist => .inl (hmodels allowlist)
    simp only [handle, hinstalled, Bool.not_true, Bool.false_eq_true, if_false]
    revert hstate hresult hevolves hok hsettled
    rcases remapModels openbao true [.linuxService, .netBoxPlugin] {} db with ⟨dry, db₁⟩
    rcases remapModels openbao false [.linuxService, .netBoxPlugin] {} db with ⟨real, db₂⟩
    rintro rfl rfl hevolves hsettled rfl
    obtain ⟨totals', hagain, hupdated⟩ :=
      @remapModels_of_settled openbao false db₂ [.linuxService, .netBoxPlugin] {} hsettled
    simp only [hagain]
    refine ⟨trivial, ⟨rfl, report_tail totals⟩, hevolves, trivial, ?_⟩
    intro final output hfinal
    cases hfinal
    exact hupdated

def acceptingOpenbao : Openbao where
  installed := true
  nextPk := fun t => (t.rows.map CredentialAssignment.pk).foldr max 0 + 1
  nextPk_new := by
    intro t
    have hbelow : ∀ pks : List ℤ, ∀ pk ∈ pks, pk ≤ pks.foldr max 0 := by
      intro pks
      induction pks with
      | nil => exact fun _ h => absurd h List.not_mem_nil
      | cons first rest ih =>
        rw [List.forall_mem_cons]
        exact ⟨Int.le_max_left .., fun pk hpk => Int.le_trans (ih pk hpk) (Int.le_max_right ..)⟩
    intro hused
    have := hbelow _ _ hused
    omega
  fullClean := fun _ _ => none

def sharedCredential : Database where
  allowlist := fun _ => ⟨[⟨1, some 7, none⟩], by decide⟩
  credentials := ⟨[⟨50, some "netbox_nms.DeviceCredential:7"⟩], by decide⟩
  assignments := ⟨[⟨3, 50, 20, 9, "login", false, ""⟩], by decide⟩

theorem dry_run_predicts_remap_shared :
    (handle acceptingOpenbao true sharedCredential).1 = .completed { updated := 2 }
        ["Would update 2 row(s).", "Already had openbao_assignment_id: 0",
          "No legacy ssh_credential_override: 0"] ∧
      (handle acceptingOpenbao true sharedCredential).1.SameReport
        (handle acceptingOpenbao false sharedCredential).1 :=
  ⟨by decide +kernel, (dry_run_predicts_remap acceptingOpenbao (fun _ _ => rfl) sharedCredential).2.1⟩

end Remap

end NetboxRpc
