import NetboxRpc.KeyedTable
import NetboxRpc.ProtectedFields
import NetboxRpc.RunPrefixes

/-!
# Edits of procedures

The two ways to edit a stored procedure, `RPCProcedureSerializer.update` and `RPCProcedureForm.save`,
and bulk updates. Each edit runs under the advisory lock of `lock_procedure_scope`, so edits follow
one another; what an editor read before the lock is an arbitrary stale copy. Who may approve a
procedure is NetBox's evaluation of the grants and may look at any field of any procedure.

An editor who cannot approve a procedure can only tighten it, and no edit of theirs brings it into
their approve scope.
-/

namespace NetboxRpc

abbrev JsonColumn := { v : Json // v ≠ .null }

structure ProcedureRow where
  pk : ℕ
  transportPinned : Bool
  approvalRequired : Bool
  effect : String
  enabled : Bool
  transportDriver : String
  transportDriverChain : List String
  handlerId : String
  name : String
  version : ℕ
  targetModels : JsonColumn
  paramsSchema : JsonColumn
  timeoutSeconds : ℕ
  resultSchema : JsonColumn
  outputParser : String
  outputSchema : JsonColumn
  tags : Finset ℕ
  customFieldData : JsonColumn
  description : String
  comments : String

abbrev ProcedureTable := KeyedTable ProcedureRow ProcedureRow.pk

structure ProcedureEdit where
  transportPinned : Option Bool := none
  approvalRequired : Option Bool := none
  effect : Option String := none
  enabled : Option Bool := none
  transportDriver : Option String := none
  transportDriverChain : Option (List String) := none
  handlerId : Option String := none
  name : Option String := none
  version : Option ℕ := none
  targetModels : Option JsonColumn := none
  paramsSchema : Option JsonColumn := none
  timeoutSeconds : Option ℕ := none
  resultSchema : Option JsonColumn := none
  outputParser : Option String := none
  outputSchema : Option JsonColumn := none
  tags : Option (List ℕ) := none
  addTags : List ℕ := []
  removeTags : List ℕ := []
  customFieldData : Option JsonColumn := none
  description : Option String := none
  comments : Option String := none

/-! ## Columns -/

def jsonTexts (texts : List String) : Json := .arr (texts.map .str)

def tagKeys (keys : List ℕ) : Json :=
  .arr ((keys.insertionSort (· ≤ ·)).map fun k : ℕ => Json.int k)

namespace ProcedureRow

def column (row : ProcedureRow) : ProtectedField → Json
  | .transportPinned => .bool row.transportPinned
  | .approvalRequired => .bool row.approvalRequired
  | .effect => .str row.effect
  | .enabled => .bool row.enabled
  | .transportDriver => .str row.transportDriver
  | .transportDriverChain => jsonTexts row.transportDriverChain
  | .handlerId => .str row.handlerId
  | .name => .str row.name
  | .version => .int row.version
  | .targetModels => row.targetModels
  | .paramsSchema => row.paramsSchema
  | .timeoutSeconds => .int row.timeoutSeconds
  | .resultSchema => row.resultSchema
  | .outputParser => .str row.outputParser
  | .outputSchema => row.outputSchema
  | .tags => tagKeys (row.tags.sort (· ≤ ·))
  | .customFieldData => row.customFieldData

def snapshot (row : ProcedureRow) (f : ProtectedField) : Option Json := some (row.column f)

def requestedTags (row : ProcedureRow) (edit : ProcedureEdit) : Option (List ℕ) :=
  if edit.tags = none ∧ (edit.addTags ≠ [] ∨ edit.removeTags ≠ []) then
    some (((row.tags ∪ edit.addTags.toFinset) \ edit.removeTags.toFinset).sort (· ≤ ·))
  else edit.tags

def requestedProtectedValues (row : ProcedureRow) (edit : ProcedureEdit) :
    ProtectedField → Option Json
  | .transportPinned => edit.transportPinned.map .bool
  | .approvalRequired => edit.approvalRequired.map .bool
  | .effect => edit.effect.map .str
  | .enabled => edit.enabled.map .bool
  | .transportDriver => edit.transportDriver.map .str
  | .transportDriverChain => edit.transportDriverChain.map jsonTexts
  | .handlerId => edit.handlerId.map .str
  | .name => edit.name.map .str
  | .version => edit.version.map fun n : ℕ => Json.int n
  | .targetModels => edit.targetModels.map Subtype.val
  | .paramsSchema => edit.paramsSchema.map Subtype.val
  | .timeoutSeconds => edit.timeoutSeconds.map fun n : ℕ => Json.int n
  | .resultSchema => edit.resultSchema.map Subtype.val
  | .outputParser => edit.outputParser.map .str
  | .outputSchema => edit.outputSchema.map Subtype.val
  | .tags => (row.requestedTags edit).map tagKeys
  | .customFieldData => edit.customFieldData.map Subtype.val

/-- The row that is saved: requested values, for the rest the locked row in the protected fields and
the editor's copy in the others. NetBox sets the tags, or adds and removes some. -/
def save (row stale : ProcedureRow) (edit : ProcedureEdit) : ProcedureRow where
  pk := row.pk
  transportPinned := edit.transportPinned.getD row.transportPinned
  approvalRequired := edit.approvalRequired.getD row.approvalRequired
  effect := edit.effect.getD row.effect
  enabled := edit.enabled.getD row.enabled
  transportDriver := edit.transportDriver.getD row.transportDriver
  transportDriverChain := edit.transportDriverChain.getD row.transportDriverChain
  handlerId := edit.handlerId.getD row.handlerId
  name := edit.name.getD row.name
  version := edit.version.getD row.version
  targetModels := edit.targetModels.getD row.targetModels
  paramsSchema := edit.paramsSchema.getD row.paramsSchema
  timeoutSeconds := edit.timeoutSeconds.getD row.timeoutSeconds
  resultSchema := edit.resultSchema.getD row.resultSchema
  outputParser := edit.outputParser.getD row.outputParser
  outputSchema := edit.outputSchema.getD row.outputSchema
  tags := (((edit.tags.map List.toFinset).getD row.tags) ∪ edit.addTags.toFinset) \
    edit.removeTags.toFinset
  customFieldData := edit.customFieldData.getD row.customFieldData
  description := edit.description.getD stale.description
  comments := edit.comments.getD stale.comments

end ProcedureRow

/-! ## Edits under the lock -/

def ProcedureEdit.TagsOnce (edit : ProcedureEdit) : Prop :=
  edit.tags = none ∨ edit.addTags = [] ∧ edit.removeTags = []

instance (edit : ProcedureEdit) : Decidable edit.TagsOnce := inferInstanceAs (Decidable (_ ∨ _))

/-- NetBox's own validation of the values of a REST request, before the plugin sees them. -/
abbrev Validation := ProcedureEdit → Bool

/-- NetBox refuses `tags` together with `add_tags` or `remove_tags`, and the plugin's check of the
tags relies on it: it compares `tags` alone when all three are there. -/
def Validation.RefusesMixedTags (V : Validation) : Prop := ∀ edit, V edit = true → edit.TagsOnce

/-- NetBox's object permissions: whether the grants let a user approve a procedure. -/
abbrev Access (Grants User : Type) := Grants → User → ProcedureTable → ℕ → Bool

structure EditState (Grants : Type) where
  grants : Grants
  procedures : ProcedureTable

inductive EditError
  | doesNotExist
  | refused (fields : List (String × String))
  | approvalScopeGain
  deriving DecidableEq

structure EditRequest where
  pk : ℕ
  stale : ProcedureRow
  edit : ProcedureEdit

section

variable {Grants User : Type} (A : Access Grants User)

def approvableProcedurePks (s : EditState Grants) (user : User) : List ℕ :=
  (s.procedures.rows.map ProcedureRow.pk).filter (A s.grants user s.procedures)

def ProcedureTable.save (t : ProcedureTable) (row : ProcedureRow) : ProcedureTable :=
  t.update row.pk (fun old => { row with pk := old.pk }) (fun _ => rfl)

def EditState.write (s : EditState Grants) (row : ProcedureRow) : EditState Grants :=
  { s with procedures := ProcedureTable.save s.procedures row }

def gainsApprovalScope (before after : EditState Grants) (user : User) : Bool :=
  (approvableProcedurePks A after user).any fun pk => pk ∉ approvableProcedurePks A before user

def updateProcedure (s : EditState Grants) (user : User) (request : EditRequest) :
    Except EditError (EditState Grants) :=
  match s.procedures.rows.find? (fun row => row.pk = request.pk) with
  | none => .error .doesNotExist
  | some stored =>
    let mayApprove := A s.grants user s.procedures stored.pk
    let refused := protectedFieldRefusals (some stored.snapshot)
      (stored.requestedProtectedValues request.edit) mayApprove
    if refused ≠ [] then .error (.refused refused)
    else
      let saved := s.write (stored.save request.stale request.edit)
      if gainsApprovalScope A s saved user then .error .approvalScopeGain else .ok saved

def updateStep (user : User) (s : EditState Grants) (request : EditRequest) :
    Option (EditState Grants) := (updateProcedure A s user request).toOption

/-- `perform_bulk_update`: one transaction around the single updates. -/
def bulkUpdate (s : EditState Grants) (user : User) :
    List EditRequest → Except EditError (EditState Grants)
  | [] => .ok s
  | request :: rest => do
    let t ← updateProcedure A s user request
    bulkUpdate t user rest

inductive ProcedureAction (Grants User : Type)
  /-- A REST update. -/
  | update (user : User) (request : EditRequest)
  | bulk (user : User) (requests : List EditRequest)
  /-- The form always sends the tags and the custom fields, and no tags to add or remove. -/
  | form (user : User) (request : EditRequest) (tags : List ℕ) (customFieldData : JsonColumn)
  /-- The grants change. -/
  | regrant (grants : Grants)

def formRequest (request : EditRequest) (tags : List ℕ) (customFieldData : JsonColumn) :
    EditRequest :=
  { request with
    edit := { request.edit with
      tags := some tags, addTags := [], removeTags := [], customFieldData := some customFieldData } }

def procedureStep (V : Validation) (s : EditState Grants) :
    ProcedureAction Grants User → Option (EditState Grants)
  | .update user request => if V request.edit then updateStep A user s request else none
  | .bulk user requests =>
    if requests.all (fun request => V request.edit) then (bulkUpdate A s user requests).toOption
    else none
  | .form user request tags customFieldData =>
    updateStep A user s (formRequest request tags customFieldData)
  | .regrant grants => some { s with grants := grants }

end

/-! ## One edit -/

theorem effectRank_known (v : Json) :
    (∀ d, effectRank d v = d) ∨ ∃ r, 0 ≤ r ∧ ∀ d, effectRank d v = r := by
  unfold effectRank
  split
  · exact .inr ⟨0, by omega, fun _ => rfl⟩
  · exact .inr ⟨1, by omega, fun _ => rfl⟩
  · exact .inr ⟨2, by omega, fun _ => rfl⟩
  · exact .inl (fun _ => rfl)

namespace FieldRule

theorem Keeps.refl (rule : FieldRule) (v : Json) : rule.Keeps v v := by
  cases rule with
  | lowering => exact id
  | effect => exact .inl rfl
  | enabling => exact id
  | change => exact sameComparable_refl v

theorem Keeps.trans {rule : FieldRule} {u v w : Json} (huv : rule.Keeps u v)
    (hvw : rule.Keeps v w) : rule.Keeps u w := by
  cases rule with
  | lowering => exact fun hu => hvw (huv hu)
  | enabling => exact fun hu => hvw (huv hu)
  | change => exact sameComparable_trans u v w huv hvw
  | effect =>
    rcases huv with rfl | huv
    · exact hvw
    rcases hvw with rfl | hvw
    · exact .inr huv
    -- the effect in the middle was accepted as a raise, so it has a rank
    rcases effectRank_known v with hv | ⟨r, hr, hv⟩
    · rcases effectRank_known u with hu | ⟨r, hr, hu⟩ <;> rw [hv, hu] at huv <;> omega
    · rw [hv] at huv hvw
      exact .inr (huv.trans hvw)

/-- A rule that does not refuse keeps what it protects. -/
theorem keeps_of_not_refused {rule : FieldRule} {first : Json} {requested : Option Json}
    (hflag : rule = .lowering → ∀ v, requested = some v → ∃ b, v = .bool b)
    (h : rule.refuses (some first) requested false = false) :
    rule.Keeps first (requested.getD first) := by
  cases requested with
  | none => exact .refl rule first
  | some v =>
    cases rule with
    | lowering =>
      rintro rfl
      obtain ⟨b, rfl⟩ := hflag rfl v rfl
      cases b with
      | true => rfl
      | false => cases h
    | effect =>
      by_contra hnot
      obtain ⟨hne, hrank⟩ := not_or.mp hnot
      simp only [Option.getD_some] at hne hrank
      simp [refuses, effectLoweringIsRefused, hne, hrank] at h
    | enabling =>
      rintro rfl
      by_contra hne
      simp only [Option.getD_some] at hne
      simp [refuses, enablingIsRefused, hne] at h
    | change =>
      by_contra hne
      simp only [Keeps, Option.getD_some] at hne
      simp [refuses, changeIsRefused, hne] at h

end FieldRule

/-- The later row protects at least what the earlier one did. -/
def Tightened (first last : ProcedureRow) : Prop :=
  ∀ f : ProtectedField, f.rule.Keeps (first.column f) (last.column f)

theorem Tightened.refl (row : ProcedureRow) : Tightened row row := fun f => .refl f.rule _

theorem Tightened.trans {a b c : ProcedureRow} (hab : Tightened a b) (hbc : Tightened b c) :
    Tightened a c := fun f => (hab f).trans (hbc f)

theorem sameItems_ints {ks ls : List ℕ}
    (h : sameItems (ks.map fun k : ℕ => Json.int k) (ls.map fun k : ℕ => Json.int k) = true) :
    ks = ls := by
  induction ks generalizing ls with
  | nil =>
    cases ls with
    | nil => rfl
    | cons l ls => cases h
  | cons k ks ih =>
    cases ls with
    | nil => cases h
    | cons l ls =>
      simp only [List.map_cons, sameItems, sameComparable, Bool.and_eq_true, decide_eq_true_eq,
        Int.natCast_inj] at h
      rw [h.1, ih h.2]

theorem toFinset_of_tagKeys {ks ls : List ℕ} (h : sameComparable (tagKeys ks) (tagKeys ls) = true) :
    ks.toFinset = ls.toFinset := by
  rw [tagKeys, tagKeys, sameComparable] at h
  have hsorted := sameItems_ints h
  have hperm : ks.Perm ls := by
    have hks := List.perm_insertionSort (· ≤ ·) ks
    rw [hsorted] at hks
    exact hks.symm.trans (List.perm_insertionSort (· ≤ ·) ls)
  exact List.toFinset_eq_of_perm _ _ hperm

namespace ProcedureRow

theorem column_save (row stale : ProcedureRow) (edit : ProcedureEdit) {f : ProtectedField}
    (hf : f ≠ .tags) :
    (row.save stale edit).column f = (row.requestedProtectedValues edit f).getD (row.column f) := by
  cases f
  case tags => exact absurd rfl hf
  all_goals simp only [save, column, requestedProtectedValues, Option.getD_map]

theorem column_save_tags (row stale : ProcedureRow) {edit : ProcedureEdit} (hedit : edit.TagsOnce)
    (hsame : sameComparable (row.column .tags)
      ((row.requestedProtectedValues edit .tags).getD (row.column .tags)) = true) :
    sameComparable (row.column .tags) ((row.save stale edit).column .tags) = true := by
  simp only [requestedProtectedValues] at hsame
  cases htags : edit.tags with
  | none =>
    by_cases hchange : edit.addTags ≠ [] ∨ edit.removeTags ≠ []
    · rw [requestedTags, if_pos ⟨htags, hchange⟩] at hsame
      simpa only [save, column, htags, Option.map_none, Option.map_some, Option.getD_none,
        Option.getD_some] using hsame
    · obtain ⟨hadd, hremove⟩ := not_or.mp hchange
      have hkept : (row.save stale edit).tags = row.tags := by
        simp [save, htags, not_not.mp hadd, not_not.mp hremove]
      rw [column, column, hkept]
      exact sameComparable_refl _
  | some tags =>
    obtain ⟨hadd, hremove⟩ : edit.addTags = [] ∧ edit.removeTags = [] := by
      rcases hedit with hnone | hboth
      · rw [hnone] at htags
        cases htags
      · exact hboth
    rw [requestedTags, if_neg (by simp [htags]), htags] at hsame
    have hset : row.tags = tags.toFinset := by
      rw [← toFinset_of_tagKeys hsame, Finset.sort_toFinset]
    have hkept : (row.save stale edit).tags = row.tags := by
      simp [save, htags, hadd, hremove, hset]
    rw [column, column, hkept]
    exact sameComparable_refl _

theorem requested_flag {row : ProcedureRow} {edit : ProcedureEdit} {f : ProtectedField}
    (hrule : f.rule = .lowering) {v : Json} (hv : row.requestedProtectedValues edit f = some v) :
    ∃ b, v = .bool b := by
  cases f
  case transportPinned | approvalRequired =>
    obtain ⟨b, -, rfl⟩ := Option.map_eq_some_iff.mp hv
    exact ⟨b, rfl⟩
  all_goals cases hrule

/-- An edit that no rule refuses tightens the row, whatever the stale copy was. -/
theorem tightened_save {row : ProcedureRow} (stale : ProcedureRow) {edit : ProcedureEdit}
    (hedit : edit.TagsOnce)
    (h : protectedFieldRefusals (some row.snapshot) (row.requestedProtectedValues edit) false = []) :
    Tightened row (row.save stale edit) := by
  intro f
  have hkeeps : f.rule.Keeps (row.column f)
      ((row.requestedProtectedValues edit f).getD (row.column f)) := by
    apply FieldRule.keeps_of_not_refused _ (refuses_eq_false h f)
    intro hrule v hv
    exact requested_flag hrule hv
  by_cases hf : f = .tags
  · subst hf
    exact column_save_tags row stale hedit hkeeps
  · rw [column_save row stale edit hf]
    exact hkeeps

end ProcedureRow

section

variable {Grants User : Type} {A : Access Grants User} {s t : EditState Grants} {user : User}
  {request : EditRequest}

/-- What an accepted update did. -/
theorem updateProcedure_ok (h : updateProcedure A s user request = .ok t) :
    ∃ stored ∈ s.procedures.rows, stored.pk = request.pk ∧
      protectedFieldRefusals (some stored.snapshot) (stored.requestedProtectedValues request.edit)
        (A s.grants user s.procedures stored.pk) = [] ∧
      t = s.write (stored.save request.stale request.edit) ∧
      gainsApprovalScope A s t user = false := by
  unfold updateProcedure at h
  cases hfind : s.procedures.rows.find? (fun row => row.pk = request.pk) with
  | none =>
    rw [hfind] at h
    cases h
  | some stored =>
    rw [hfind] at h
    dsimp only at h
    split_ifs at h with hrefused hgain
    obtain rfl := Except.ok.inj h
    refine ⟨stored, List.mem_of_find?_eq_some hfind, ?_, not_not.mp hrefused, rfl, ?_⟩
    · simpa using List.find?_some hfind
    · exact Bool.eq_false_of_not_eq_true hgain

theorem mem_write {row r : ProcedureRow} {old : ProcedureRow} (hold : old ∈ s.procedures.rows)
    (hpk : old.pk = row.pk) :
    r ∈ (s.write row).procedures.rows ↔ r = row ∨ (r ∈ s.procedures.rows ∧ r.pk ≠ row.pk) := by
  rw [EditState.write, ProcedureTable.save, KeyedTable.mem_update_iff]
  refine or_congr_left ⟨?_, ?_⟩
  · rintro ⟨r₀, -, hkey, rfl⟩
    rw [hkey]
  · rintro rfl
    exact ⟨old, hold, hpk, by rw [hpk]⟩

theorem mem_pks_write {row old : ProcedureRow} (hold : old ∈ s.procedures.rows)
    (hsame : old.pk = row.pk) {pk : ℕ} (hpk : pk ∈ s.procedures.rows.map ProcedureRow.pk) :
    pk ∈ (s.write row).procedures.rows.map ProcedureRow.pk := by
  obtain ⟨r, hr, rfl⟩ := List.mem_map.mp hpk
  by_cases hkey : r.pk = row.pk
  · exact List.mem_map.mpr ⟨row, (mem_write hold hsame).mpr (.inl rfl), hkey.symm⟩
  · exact List.mem_map.mpr ⟨r, (mem_write hold hsame).mpr (.inr ⟨hr, hkey⟩), rfl⟩

def HasTightened (first : ProcedureRow) (s : EditState Grants) : Prop :=
  ∃ row ∈ s.procedures.rows, row.pk = first.pk ∧ Tightened first row

/-- An accepted update by a user who may not approve the procedure, or of another procedure. -/
theorem HasTightened.after_update {first : ProcedureRow} (hs : HasTightened first s)
    (hedit : request.edit.TagsOnce)
    (happrove : request.pk = first.pk → A s.grants user s.procedures first.pk = false)
    (h : updateProcedure A s user request = .ok t) : HasTightened first t := by
  obtain ⟨row, hrow, hpk, htight⟩ := hs
  obtain ⟨stored, hstored, hrequest, hrefusals, rfl, -⟩ := updateProcedure_ok h
  have hsaved : stored.pk = (stored.save request.stale request.edit).pk := rfl
  by_cases hsame : stored.pk = first.pk
  · obtain rfl : row = stored := s.procedures.eq_of_key hrow hstored (hpk.trans hsame.symm)
    rw [hpk, happrove (hrequest.symm.trans hpk)] at hrefusals
    refine ⟨_, (mem_write hstored hsaved).mpr (.inl rfl), hpk, htight.trans ?_⟩
    exact ProcedureRow.tightened_save request.stale hedit hrefusals
  · refine ⟨row, (mem_write hstored hsaved).mpr (.inr ⟨hrow, ?_⟩), hpk, htight⟩
    exact fun heq => hsame (heq.symm.trans hpk)

/-- An accepted update does not bring a procedure into the editor's approve scope. -/
theorem approves_updateProcedure {pk : ℕ} (hpk : pk ∈ s.procedures.rows.map ProcedureRow.pk)
    (hno : A s.grants user s.procedures pk = false)
    (h : updateProcedure A s user request = .ok t) :
    A t.grants user t.procedures pk = false := by
  obtain ⟨stored, hstored, hrequest, -, ht, hgain⟩ := updateProcedure_ok h
  by_contra hyes
  have hafter : pk ∈ approvableProcedurePks A t user := by
    refine List.mem_filter.mpr ⟨?_, Bool.eq_true_of_not_eq_false hyes⟩
    have hsaved : stored.pk = (stored.save request.stale request.edit).pk := rfl
    rw [ht]
    exact mem_pks_write hstored hsaved hpk
  have hbefore : pk ∉ approvableProcedurePks A s user := by
    intro hmem
    rw [(List.mem_filter.mp hmem).2] at hno
    cases hno
  have hany : gainsApprovalScope A s t user = true :=
    List.any_eq_true.mpr ⟨pk, hafter, by simpa using hbefore⟩
  rw [hgain] at hany
  cases hany

theorem ok_of_toOption {ε α : Type} {x : Except ε α} {a : α} (h : x.toOption = some a) :
    x = .ok a := by
  cases x with
  | error e => cases h
  | ok b =>
    obtain rfl := Option.some.inj h
    rfl

theorem bulkUpdate_cons {requests : List EditRequest}
    (h : bulkUpdate A s user (request :: requests) = .ok t) :
    ∃ u, updateProcedure A s user request = .ok u ∧ bulkUpdate A u user requests = .ok t := by
  rw [bulkUpdate] at h
  cases hfirst : updateProcedure A s user request with
  | error e =>
    rw [hfirst] at h
    cases h
  | ok u =>
    rw [hfirst] at h
    exact ⟨u, rfl, h⟩

/-! ## Runs of edits by users without the permission -/

def disabledProcedure : ProcedureRow :=
  { pk := 1, transportPinned := true, approvalRequired := true, effect := "write", enabled := false,
    transportDriver := "asyncssh", transportDriverChain := [], handlerId := "h", name := "p",
    version := 1, targetModels := ⟨.arr [], by simp⟩, paramsSchema := ⟨.obj [], by simp⟩,
    timeoutSeconds := 30, resultSchema := ⟨.obj [], by simp⟩, outputParser := "none",
    outputSchema := ⟨.obj [], by simp⟩, tags := ∅, customFieldData := ⟨.obj [], by simp⟩,
    description := "", comments := "" }

def oneDisabled : EditState Unit := ⟨(), ⟨[disabledProcedure], List.nodup_singleton _⟩⟩

def approvesByComments : Access Unit Unit := fun _ _ table pk =>
  table.rows.any fun row => row.pk = pk && row.comments = "mine"

def raiseEffect : EditRequest := ⟨1, disabledProcedure, { effect := some "destructive" }⟩
def claimByComments : EditRequest := ⟨1, disabledProcedure, { comments := some "mine" }⟩
def enableProcedure : EditRequest := ⟨1, disabledProcedure, { enabled := some true }⟩

/-- Nobody who edits the procedure may approve it at that moment. -/
def ProcedureAction.Unapproved (A : Access Grants User) (pk : ℕ) (s : EditState Grants) :
    ProcedureAction Grants User → Prop
  | .update user request | .form user request _ _ =>
    request.pk = pk → A s.grants user s.procedures pk = false
  | .bulk user requests => Transition.Meets (updateStep A user)
      (fun s r => r.pk = pk → A s.grants user s.procedures pk = false) s requests
  | .regrant _ => True

theorem of_step_update {V : Validation} (h : procedureStep A V s (.update user request) = some t) :
    V request.edit = true ∧ updateStep A user s request = some t := by
  rw [procedureStep] at h
  split_ifs at h with hvalid
  exact ⟨hvalid, h⟩

theorem of_step_bulk {V : Validation} {requests : List EditRequest}
    (h : procedureStep A V s (.bulk user requests) = some t) :
    (∀ request ∈ requests, V request.edit = true) ∧
      (bulkUpdate A s user requests).toOption = some t := by
  rw [procedureStep] at h
  split_ifs at h with hvalid
  exact ⟨List.all_eq_true.mp hvalid, h⟩

theorem tagsOnce_formRequest (tags : List ℕ) (customFieldData : JsonColumn) :
    (formRequest request tags customFieldData).edit.TagsOnce := .inr ⟨rfl, rfl⟩

theorem HasTightened.after_bulk {first : ProcedureRow} {requests : List EditRequest}
    (hs : HasTightened first s) (hedits : ∀ request ∈ requests, request.edit.TagsOnce)
    (hmeets : Transition.Meets (updateStep A user)
      (fun s r => r.pk = first.pk → A s.grants user s.procedures first.pk = false) s requests)
    (h : bulkUpdate A s user requests = .ok t) : HasTightened first t := by
  induction requests generalizing s with
  | nil =>
    obtain rfl := Except.ok.inj h
    exact hs
  | cons request requests ih =>
    obtain ⟨u, hfirst, hrest⟩ := bulkUpdate_cons h
    have hstep : updateStep A user s request = some u := by rw [updateStep, hfirst]; rfl
    obtain ⟨happrove, hmeets⟩ := hmeets
    rw [Transition.next_of_step hstep] at hmeets
    have hu := hs.after_update (hedits request List.mem_cons_self) (happrove (by rw [hstep]; rfl)) hfirst
    exact ih hu (fun r hr => hedits r (List.mem_cons_of_mem request hr)) hmeets hrest

def tagsValidation : Validation := fun edit => decide edit.TagsOnce

theorem refusesMixedTags_tagsValidation : tagsValidation.RefusesMixedTags :=
  fun _ h => of_decide_eq_true h

def ProcedureAction.By (user : User) : ProcedureAction Grants User → Prop
  | .update editor _ | .bulk editor _ | .form editor _ _ _ => editor = user
  | .regrant _ => False

def HeldTight (A : Access Grants User) (user : User) (first : ProcedureRow)
    (s : EditState Grants) : Prop :=
  A s.grants user s.procedures first.pk = false ∧ HasTightened first s

theorem HeldTight.after_update {first : ProcedureRow} (hs : HeldTight A user first s)
    (hedit : request.edit.TagsOnce) (h : updateProcedure A s user request = .ok t) :
    HeldTight A user first t := by
  obtain ⟨hno, htight⟩ := hs
  have hpk : first.pk ∈ s.procedures.rows.map ProcedureRow.pk := by
    obtain ⟨row, hrow, hpk, -⟩ := htight
    exact List.mem_map.mpr ⟨row, hrow, hpk⟩
  exact ⟨approves_updateProcedure hpk hno h, htight.after_update hedit (fun _ => hno) h⟩

theorem HeldTight.after_bulk {first : ProcedureRow} {requests : List EditRequest}
    (hs : HeldTight A user first s) (hedits : ∀ request ∈ requests, request.edit.TagsOnce)
    (h : bulkUpdate A s user requests = .ok t) : HeldTight A user first t := by
  induction requests generalizing s with
  | nil =>
    obtain rfl := Except.ok.inj h
    exact hs
  | cons request requests ih =>
    obtain ⟨u, hfirst, hrest⟩ := bulkUpdate_cons h
    have hu := hs.after_update (hedits request List.mem_cons_self) hfirst
    exact ih hu (fun r hr => hedits r (List.mem_cons_of_mem request hr)) hrest

theorem HeldTight.after_step {V : Validation} (hV : V.RefusesMixedTags) {first : ProcedureRow}
    {action : ProcedureAction Grants User} (hs : HeldTight A user first s) (hown : action.By user)
    (hstep : procedureStep A V s action = some t) : HeldTight A user first t := by
  cases action with
  | update editor request =>
    obtain rfl := hown
    obtain ⟨hvalid, hstep⟩ := of_step_update hstep
    exact hs.after_update (hV _ hvalid) (ok_of_toOption hstep)
  | bulk editor requests =>
    obtain rfl := hown
    obtain ⟨hvalid, hstep⟩ := of_step_bulk hstep
    exact hs.after_bulk (fun request hr => hV _ (hvalid request hr)) (ok_of_toOption hstep)
  | form editor request tags customFieldData =>
    obtain rfl := hown
    exact hs.after_update (tagsOnce_formRequest tags customFieldData) (ok_of_toOption hstep)
  | regrant grants => exact hown.elim

end

end NetboxRpc
