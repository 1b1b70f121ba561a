import Mathlib.Data.List.Dedup
import NetboxRpc.ProcedureCommands
import NetboxRpc.ProducerChains
import NetboxRpc.RunPrefixes
import NetboxRpc.TemplateReferences

/-!
# Command chains stay resolvable

A command that `clean` accepts finds its variables among the earlier commands of its procedure and
takes nothing away from the others. Deleting a command is not checked, and neither is what a command
leaves behind in the procedure it moves away from. Whether the chains stay resolvable depends on
these departures alone.
-/

namespace NetboxRpc

open ProducerChains

def Catalog.rowsOf (cat : Catalog) (procedure : ℕ) : List CommandRow :=
  cat.commands.rows.filter fun row => row.procedure = procedure

theorem Catalog.mem_rowsOf {cat : Catalog} {procedure : ℕ} {row : CommandRow} :
    row ∈ cat.rowsOf procedure ↔ row ∈ cat.commands.rows ∧ row.procedure = procedure := by
  simp [Catalog.rowsOf]

abbrev ChainResolved (E : Jinja.Engine) (rows : List CommandRow) : Prop :=
  Resolved (fun row : CommandRow => row.sequence) CommandRow.outputVar (CommandRow.referenced E) rows

/-- Every referenced variable is the output of an earlier command of the same procedure. -/
def Catalog.Resolvable (E : Jinja.Engine) (cat : Catalog) : Prop :=
  ∀ procedure, ChainResolved E (cat.rowsOf procedure)

def Catalog.UniqueVars (cat : Catalog) : Prop :=
  ∀ procedure, Unambiguous CommandRow.outputVar (cat.rowsOf procedure)

/-! ## What an accepted row brings -/

theorem mem_producedBefore {rows : List CommandRow} {sequence : ℕ} {x : String} :
    x ∈ producedBefore rows sequence ↔
      Available (fun row : CommandRow => row.sequence) CommandRow.outputVar rows sequence x := by
  simp only [producedBefore, List.mem_filterMap, List.mem_filter, decide_eq_true_eq, Available,
    and_assoc]

section

variable {L : CommandLibrary} {cat : Catalog} {row : CommandRow}

theorem mem_siblingCommands (h : (cat.procedures row.procedure).isSome) {sib : CommandRow} :
    sib ∈ cat.siblingCommands row ↔
      sib ∈ cat.commands.rows ∧ sib.procedure = row.procedure ∧ sib.pk ≠ row.pk := by
  rw [Catalog.siblingCommands, if_pos h]
  simp

structure AcceptedRow (L : CommandLibrary) (cat : Catalog) (row : CommandRow) : Prop where
  exists_procedure : (cat.procedures row.procedure).isSome
  argv : argvErrors L cat row = []
  capture : validateCapture L row.producesVar row.captureKind row.captureExpression
    ((cat.siblingCommands row).filterMap CommandRow.outputVar) = []
  chain : chainConsistencyErrors L row (cat.siblingCommands row) = []

theorem AcceptedRow.of_accepts (h : accepts L cat row = true) : AcceptedRow L cat row := by
  simp only [accepts, Bool.and_eq_true, List.isEmpty_iff] at h
  obtain ⟨⟨hprocedure, hclean⟩, -⟩ := h
  have hfields := List.filter_eq_nil_iff.mp hclean
  simp only [List.mem_cons, List.not_mem_nil, or_false, forall_eq_or_imp, forall_eq,
    decide_eq_true_eq, not_not] at hfields
  obtain ⟨-, -, hargv, -, -, hcapture, hchain⟩ := hfields
  exact ⟨hprocedure, hargv, hcapture, hchain⟩

theorem mem_tokenVars {E : Jinja.Engine} {token : Json} {x : String} (hx : x ∈ tokenVars E token) :
    ⟨"vars", some x⟩ ∈ (analyzeToken E token).refs := by
  cases token with
  | str token =>
    obtain ⟨⟨root, attr⟩, href, hattr⟩ := List.mem_filterMap.mp hx
    dsimp only at hattr
    split_ifs at hattr with hroot
    obtain ⟨hattr, -⟩ := Option.filter_eq_some_iff.mp hattr
    rwa [hroot, hattr] at href
  | _ => cases hx

theorem mem_referenced {E : Jinja.Engine} {row : CommandRow} {x : String}
    (hx : x ∈ row.referenced E) : row.mode = "jinja" ∧
      ∃ tokens, row.argv = .arr tokens ∧ ∃ token ∈ tokens, x ∈ tokenVars E token := by
  unfold CommandRow.referenced at hx
  split_ifs at hx with hmode
  · split at hx
    · rename_i tokens hargv
      exact ⟨hmode, tokens, hargv, List.mem_flatMap.mp hx⟩
    · cases hx
  · cases hx

theorem AcceptedRow.validateJinjaArgv (h : AcceptedRow L cat row) (hmode : row.mode = "jinja") :
    NetboxRpc.validateJinjaArgv L.engine
      { paramNames := cat.paramNames row
        producedVars := producedBefore (cat.siblingCommands row) row.sequence
        forEachPresent := row.forEachParam ≠ "" } row.argv = [] := by
  have herrors := h.argv
  unfold argvErrors at herrors
  split at herrors
  · rwa [if_pos hmode] at herrors
  · cases herrors

theorem AcceptedRow.own (h : AcceptedRow L cat row) {x : String} (hx : x ∈ row.referenced L.engine) :
    Available (fun row : CommandRow => row.sequence) CommandRow.outputVar (cat.siblingCommands row)
      row.sequence x := by
  obtain ⟨hmode, tokens, hargv, token, htoken, hvar⟩ := mem_referenced hx
  have hvalid := h.validateJinjaArgv hmode
  rw [hargv] at hvalid
  rw [← mem_producedBefore]
  obtain ⟨key, hkey, hsame⟩ := ((errors_of_accepted hvalid htoken).2 _ (mem_tokenVars hvar)).of_vars
  obtain rfl := Option.some.inj hsame
  exact hkey

/-- The variables that the siblings of an accepted row use are produced with the row in place. -/
theorem AcceptedRow.others (h : AcceptedRow L cat row) {sib : CommandRow}
    (hsib : sib ∈ cat.siblingCommands row) {x : String} (hx : x ∈ sib.referenced L.engine) :
    Available (fun row : CommandRow => row.sequence) CommandRow.outputVar
      (cat.siblingCommands row ++ [row]) sib.sequence x := by
  have hmissing := List.filterMap_eq_nil_iff.mp h.chain sib hsib
  dsimp only at hmissing
  split_ifs at hmissing with hnone
  rw [← mem_producedBefore]
  by_contra hbefore
  have hmem : x ∈ (((sib.referenced L.engine).dedup.filter
      (· ∉ producedBefore (cat.siblingCommands row ++ [row]) sib.sequence)).insertionSort (· ≤ ·)) := by
    simp [List.mem_dedup.mpr hx, hbefore]
  rw [hnone] at hmem
  cases hmem

theorem AcceptedRow.fresh (h : AcceptedRow L cat row) {sib : CommandRow}
    (hsib : sib ∈ cat.siblingCommands row) {x : String} (hx : row.outputVar = some x) :
    sib.outputVar ≠ some x := by
  intro hsame
  have hmem : x ∈ (cat.siblingCommands row).filterMap CommandRow.outputVar :=
    List.mem_filterMap.mpr ⟨sib, hsib, hsame⟩
  have hcapture := h.capture
  unfold CommandRow.outputVar at hx
  split_ifs at hx with hempty
  obtain rfl := Option.some.inj hx
  rw [validateCapture, if_neg hempty] at hcapture
  simp [hmem] at hcapture

/-! ## One change -/

def CatalogAction.TakesOut (row : CommandRow) : CatalogAction → Prop
  | .delete pk => row.pk = pk
  | .edit new => row.pk = new.pk ∧ row.procedure ≠ new.procedure
  | .create _ | .editProcedure _ _ => False

def Catalog.Unneeded (E : Jinja.Engine) (cat : Catalog) (row : CommandRow) : Prop :=
  ∀ other ∈ cat.commands.rows, other.procedure = row.procedure → other.pk ≠ row.pk →
    ∀ x ∈ other.referenced E, row.outputVar ≠ some x

/-- Whatever the action takes out of a procedure is not needed there. -/
def LeavesNothingOpen (E : Jinja.Engine) (cat : Catalog) (action : CatalogAction) : Prop :=
  ∀ row ∈ cat.commands.rows, action.TakesOut row → cat.Unneeded E row

/-- A row that arrives at its procedure, whose other rows are the siblings that the check saw. -/
theorem AcceptedRow.arrive (h : AcceptedRow L cat row) {rows : List CommandRow}
    (hrows : ∀ r, r ∈ rows ↔ r = row ∨ r ∈ cat.siblingCommands row) (hunique : cat.UniqueVars) :
    ChainResolved L.engine rows ∧ Unambiguous CommandRow.outputVar rows := by
  constructor
  · rw [ChainResolved, resolved_arrive_iff hrows]
    exact ⟨fun x hx => h.own hx, fun sib hsib x hx => h.others hsib hx⟩
  · refine Unambiguous.arrive hrows ?_ (fun sib hsib x hx => h.fresh hsib hx)
    refine (hunique row.procedure).mono (fun sib hsib => ?_)
    obtain ⟨hmem, hproc, -⟩ := (mem_siblingCommands h.exists_procedure).mp hsib
    exact Catalog.mem_rowsOf.mpr ⟨hmem, hproc⟩

/-- A row that leaves its procedure. -/
theorem resolved_takeOut_iff (hresolvable : cat.Resolvable L.engine) (hunique : cat.UniqueVars)
    (hrow : row ∈ cat.commands.rows) {rows : List CommandRow}
    (hrows : ∀ r, r ∈ rows ↔ r ∈ cat.rowsOf row.procedure ∧ r.pk ≠ row.pk) :
    ChainResolved L.engine rows ↔ cat.Unneeded L.engine row := by
  have hmem : row ∈ cat.rowsOf row.procedure := Catalog.mem_rowsOf.mpr ⟨hrow, rfl⟩
  have hne : ∀ r, r ∈ rows ↔ r ∈ cat.rowsOf row.procedure ∧ r ≠ row := by
    intro r
    rw [hrows]
    refine and_congr_right (fun hr => not_congr ⟨fun hpk => ?_, fun heq => by rw [heq]⟩)
    exact cat.commands.eq_of_key (Catalog.mem_rowsOf.mp hr).1 hrow hpk
  rw [ChainResolved, resolved_leave_iff hne hmem (hresolvable _) (hunique _)]
  constructor
  · intro h other hother hproc hpk x hx
    exact h other ((hrows other).mpr ⟨Catalog.mem_rowsOf.mpr ⟨hother, hproc⟩, hpk⟩) x hx
  · intro h other hother x hx
    obtain ⟨hin, hpk⟩ := (hrows other).mp hother
    obtain ⟨hin, hproc⟩ := Catalog.mem_rowsOf.mp hin
    exact h other hin hproc hpk x hx

inductive Changes (L : CommandLibrary) (cat cat' : Catalog) (action : CatalogAction) : Prop
  | save (row : CommandRow) (accepted : AcceptedRow L cat row)
      (rows : ∀ p r, r ∈ cat'.rowsOf p ↔
        (r = row ∧ row.procedure = p) ∨ (r ∈ cat.rowsOf p ∧ r.pk ≠ row.pk))
      (takesOut : ∀ r ∈ cat.commands.rows,
        (action.TakesOut r ↔ r.pk = row.pk ∧ r.procedure ≠ row.procedure))
  | remove (pk : ℕ) (rows : ∀ p r, r ∈ cat'.rowsOf p ↔ r ∈ cat.rowsOf p ∧ r.pk ≠ pk)
      (takesOut : ∀ r, action.TakesOut r ↔ r.pk = pk)
  | keep (rows : ∀ p r, r ∈ cat'.rowsOf p ↔ r ∈ cat.rowsOf p) (takesOut : ∀ r, ¬ action.TakesOut r)

theorem mem_save {t : CommandTable} {old r : CommandRow} (hold : old ∈ t.rows)
    (hpk : old.pk = row.pk) :
    r ∈ (CommandTable.save t row).rows ↔ r = row ∨ (r ∈ t.rows ∧ r.pk ≠ row.pk) := by
  rw [CommandTable.save, KeyedTable.mem_update_iff]
  refine or_congr_left ⟨?_, ?_⟩
  · rintro ⟨r₀, -, hkey, rfl⟩
    rw [hkey]
  · rintro rfl
    exact ⟨old, hold, hpk, by rw [hpk]⟩

theorem mem_insert {t : CommandTable} {r : CommandRow} (h : row.pk ∉ t.rows.map CommandRow.pk) :
    r ∈ (t.insert row h).rows ↔ r = row ∨ (r ∈ t.rows ∧ r.pk ≠ row.pk) := by
  rw [KeyedTable.insert_rows, List.mem_append, List.mem_singleton, or_comm]
  refine or_congr_right ⟨fun hr => ⟨hr, fun hpk => h ?_⟩, fun hr => hr.1⟩
  exact List.mem_map.mpr ⟨r, hr, hpk⟩

/-- The rows of a procedure after a row was saved. -/
theorem mem_rowsOf_of_saved {t : CommandTable} {p : ℕ} {r : CommandRow}
    (h : r ∈ t.rows ↔ r = row ∨ (r ∈ cat.commands.rows ∧ r.pk ≠ row.pk)) :
    r ∈ ({ cat with commands := t } : Catalog).rowsOf p ↔
      (r = row ∧ row.procedure = p) ∨ (r ∈ cat.rowsOf p ∧ r.pk ≠ row.pk) := by
  rw [Catalog.mem_rowsOf, Catalog.mem_rowsOf, h]
  constructor
  · rintro ⟨rfl | ⟨hr, hne⟩, hp⟩
    · exact .inl ⟨rfl, hp⟩
    · exact .inr ⟨⟨hr, hp⟩, hne⟩
  · rintro (⟨rfl, hp⟩ | ⟨⟨hr, hp⟩, hne⟩)
    · exact ⟨.inl rfl, hp⟩
    · exact ⟨.inr ⟨hr, hne⟩, hp⟩

theorem changes_of_catalogStep {cat' : Catalog} {action : CatalogAction}
    (h : catalogStep L cat action = some cat') : Changes L cat cat' action := by
  cases action with
  | create row =>
    rw [catalogStep] at h
    split_ifs at h with hfresh haccepts
    obtain rfl := Option.some.inj h
    refine .save row (.of_accepts haccepts) (fun p r => ?_) (fun r hr => ?_)
    · exact mem_rowsOf_of_saved (mem_insert hfresh)
    · refine ⟨fun hout => hout.elim, fun hout => hfresh ?_⟩
      exact List.mem_map.mpr ⟨r, hr, hout.1⟩
  | edit row =>
    rw [catalogStep] at h
    split_ifs at h with hcond
    obtain ⟨hpk, haccepts⟩ := hcond
    obtain rfl := Option.some.inj h
    obtain ⟨old, hold, hsame⟩ := List.mem_map.mp hpk
    refine .save row (.of_accepts haccepts) (fun p r => ?_) (fun r _ => Iff.rfl)
    exact mem_rowsOf_of_saved (mem_save hold hsame)
  | delete pk =>
    obtain rfl := Option.some.inj h
    refine .remove pk (fun p r => ?_) (fun r => Iff.rfl)
    simp only [Catalog.mem_rowsOf, CommandTable.remove, List.mem_filter, decide_eq_true_eq]
    exact and_right_comm
  | editProcedure pk schema =>
    rw [catalogStep] at h
    split_ifs at h
    obtain rfl := Option.some.inj h
    exact .keep (fun p r => Iff.rfl) (fun r hout => hout)

section

variable {cat' : Catalog} {action : CatalogAction}

theorem AcceptedRow.mem_rowsOf (h : AcceptedRow L cat row)
    (hrows : ∀ p r, r ∈ cat'.rowsOf p ↔
      (r = row ∧ row.procedure = p) ∨ (r ∈ cat.rowsOf p ∧ r.pk ≠ row.pk)) (r : CommandRow) :
    r ∈ cat'.rowsOf row.procedure ↔ r = row ∨ r ∈ cat.siblingCommands row := by
  rw [hrows, mem_siblingCommands h.exists_procedure, Catalog.mem_rowsOf, and_assoc]
  simp only [and_true]

theorem Changes.uniqueVars (h : Changes L cat cat' action) (hunique : cat.UniqueVars) :
    cat'.UniqueVars := by
  intro p
  cases h with
  | save row accepted rows takesOut =>
    by_cases hp : row.procedure = p
    · subst hp
      exact (accepted.arrive (accepted.mem_rowsOf rows) hunique).2
    · refine (hunique p).mono (fun r hr => ?_)
      rcases (rows p r).mp hr with ⟨-, hp'⟩ | ⟨hr, -⟩
      · exact absurd hp' hp
      · exact hr
  | remove pk rows takesOut => exact (hunique p).mono (fun r hr => ((rows p r).mp hr).1)
  | keep rows takesOut => exact (hunique p).mono (fun r hr => (rows p r).mp hr)

theorem chainResolved_of_untouched {pk p : ℕ} (hresolvable : cat.Resolvable L.engine)
    (hrows : ∀ r, r ∈ cat'.rowsOf p ↔ r ∈ cat.rowsOf p ∧ r.pk ≠ pk)
    (hnone : ∀ r ∈ cat.rowsOf p, r.pk ≠ pk) : ChainResolved L.engine (cat'.rowsOf p) := by
  refine (resolved_congr (fun r => ?_)).mpr (hresolvable p)
  rw [hrows]
  exact ⟨fun h => h.1, fun hr => ⟨hr, hnone r hr⟩⟩

/-- A procedure that loses the row of a primary key, if it has one. -/
theorem chainResolved_without_iff {pk p : ℕ} (hresolvable : cat.Resolvable L.engine)
    (hunique : cat.UniqueVars)
    (hrows : ∀ r, r ∈ cat'.rowsOf p ↔ r ∈ cat.rowsOf p ∧ r.pk ≠ pk) :
    ChainResolved L.engine (cat'.rowsOf p) ↔
      ∀ r ∈ cat.rowsOf p, r.pk = pk → cat.Unneeded L.engine r := by
  by_cases hexists : ∃ r ∈ cat.rowsOf p, r.pk = pk
  · obtain ⟨old, hold, rfl⟩ := hexists
    obtain ⟨hmem, rfl⟩ := Catalog.mem_rowsOf.mp hold
    rw [resolved_takeOut_iff hresolvable hunique hmem hrows]
    refine ⟨fun h r hr hpk => ?_, fun h => h old hold rfl⟩
    rwa [cat.commands.eq_of_key (Catalog.mem_rowsOf.mp hr).1 hmem hpk]
  · have hnone : ∀ r ∈ cat.rowsOf p, r.pk ≠ pk := fun r hr hpk => hexists ⟨r, hr, hpk⟩
    refine ⟨fun _ r hr hpk => absurd hpk (hnone r hr), fun _ => ?_⟩
    exact chainResolved_of_untouched hresolvable hrows hnone

/-- A change keeps the chains resolvable exactly if it leaves nothing open. -/
theorem Changes.resolvable_iff (h : Changes L cat cat' action)
    (hresolvable : cat.Resolvable L.engine) (hunique : cat.UniqueVars) :
    cat'.Resolvable L.engine ↔ LeavesNothingOpen L.engine cat action := by
  cases h with
  | save row accepted rows takesOut =>
    have hother : ∀ p, row.procedure ≠ p → ∀ r,
        r ∈ cat'.rowsOf p ↔ r ∈ cat.rowsOf p ∧ r.pk ≠ row.pk := by
      intro p hp r
      rw [rows]
      simp [hp]
    constructor
    · intro h r hr hout
      obtain ⟨hpk, hproc⟩ := (takesOut r hr).mp hout
      have hleft := h r.procedure
      rw [chainResolved_without_iff hresolvable hunique (hother _ (Ne.symm hproc))] at hleft
      exact hleft r (Catalog.mem_rowsOf.mpr ⟨hr, rfl⟩) hpk
    · intro h p
      by_cases hp : row.procedure = p
      · subst hp
        exact (accepted.arrive (accepted.mem_rowsOf rows) hunique).1
      · rw [chainResolved_without_iff hresolvable hunique (hother p hp)]
        intro r hr hpk
        obtain ⟨hmem, hproc⟩ := Catalog.mem_rowsOf.mp hr
        exact h r hmem ((takesOut r hmem).mpr ⟨hpk, fun heq => hp (heq.symm.trans hproc)⟩)
  | remove pk rows takesOut =>
    constructor
    · intro h r hr hout
      have hleft := h r.procedure
      rw [chainResolved_without_iff hresolvable hunique (rows _)] at hleft
      exact hleft r (Catalog.mem_rowsOf.mpr ⟨hr, rfl⟩) ((takesOut r).mp hout)
    · intro h p
      rw [chainResolved_without_iff hresolvable hunique (rows p)]
      intro r hr hpk
      exact h r (Catalog.mem_rowsOf.mp hr).1 ((takesOut r).mpr hpk)
  | keep rows takesOut =>
    refine ⟨fun _ r _ hout => absurd hout (takesOut r), fun _ p => ?_⟩
    exact (resolved_congr (rows p)).mpr (hresolvable p)

end

end

/-! ## Whole runs -/

theorem uniqueVars_of_empty {cat : Catalog} (hempty : cat.commands.rows = []) :
    cat.UniqueVars := by
  intro p r hr
  have hmem := (Catalog.mem_rowsOf.mp hr).1
  rw [hempty] at hmem
  cases hmem

theorem resolvable_of_empty {cat : Catalog} (E : Jinja.Engine)
    (hempty : cat.commands.rows = []) : cat.Resolvable E := by
  intro p r hr
  have hmem := (Catalog.mem_rowsOf.mp hr).1
  rw [hempty] at hmem
  cases hmem

theorem throughout_resolvable_iff (L : CommandLibrary) {cat : Catalog}
    (hempty : cat.commands.rows = []) (actions : List CatalogAction) :
    Transition.Throughout (catalogStep L) (Catalog.Resolvable L.engine) cat actions ↔
      Transition.Meets (catalogStep L) (LeavesNothingOpen L.engine) cat actions := by
  refine Transition.throughout_iff_meets (fun s a t h => (changes_of_catalogStep h).uniqueVars) ?_
    (uniqueVars_of_empty hempty) (resolvable_of_empty L.engine hempty) actions
  intro s a t h hunique hresolvable
  exact (changes_of_catalogStep h).resolvable_iff hresolvable hunique

/-- Command chains: in every run of accepted changes from procedures without commands no variable
of a procedure is produced twice, and the chains are resolvable throughout exactly if no delete and
no move to another procedure takes out a variable that a command left behind refers to. -/
theorem command_chains_resolvable_iff (L : CommandLibrary) (cat : Catalog)
    (hempty : cat.commands.rows = []) (actions : List CatalogAction) :
    Transition.Throughout (catalogStep L) Catalog.UniqueVars cat actions ∧
      (Transition.Throughout (catalogStep L) (Catalog.Resolvable L.engine) cat actions ↔
        Transition.Meets (catalogStep L) (LeavesNothingOpen L.engine) cat actions) := by
  constructor
  · intro done ahead _
    exact Transition.run_invariant (fun s a t h => (changes_of_catalogStep h).uniqueVars) done
      (uniqueVars_of_empty hempty)
  · exact throughout_resolvable_iff L hempty actions

def producer : CommandRow :=
  { sequence := 1, stepType := "shell_argv", deviceCliMode := "", argv := .arr [.str "hostname"],
    renderMode := "literal", producesVar := "x", captureKind := "stdout", captureExpression := "",
    conditionParam := "", conditionNegate := false, forEachParam := "", continueOnError := false,
    pk := 1, procedure := 1 }

def consumer : CommandRow :=
  { producer with
    sequence := 2, argv := .arr [.str "\x7b\x7b vars.x \x7d\x7d"], renderMode := "jinja",
    producesVar := "", captureKind := "", pk := 2 }

def varsLibrary : CommandLibrary :=
  ⟨.onTree [.getattr (.name "vars") "x"], fun _ => .ok 1, fun _ => true⟩

def oneProcedure : Catalog := ⟨fun k => if k = 1 then some (.obj []) else none, ⟨[], List.nodup_nil⟩⟩

theorem command_chains_resolvable_iff_delete :
    (Transition.run (catalogStep varsLibrary) oneProcedure
        [.create producer, .create consumer, .delete 1]).commands.rows.length = 1 ∧
      (Transition.Throughout (catalogStep varsLibrary) (Catalog.Resolvable varsLibrary.engine)
          oneProcedure [.create producer, .create consumer, .delete 1] ↔
        Transition.Meets (catalogStep varsLibrary) (LeavesNothingOpen varsLibrary.engine)
          oneProcedure [.create producer, .create consumer, .delete 1]) :=
  ⟨by decide, (command_chains_resolvable_iff varsLibrary oneProcedure rfl _).2⟩

/-! ## What the stored templates name -/

def Catalog.TemplatesChecked (E : Jinja.Engine) (cat : Catalog) : Prop :=
  ∀ row ∈ cat.commands.rows, row.mode = "jinja" →
    ∃ scope : Scope, "" ∉ scope.producedVars ∧ validateJinjaArgv E scope row.argv = []

theorem not_mem_producedBefore (rows : List CommandRow) (sequence : ℕ) :
    "" ∉ producedBefore rows sequence := by
  intro hmem
  obtain ⟨row, -, hvar⟩ := List.mem_filterMap.mp hmem
  unfold CommandRow.outputVar at hvar
  split_ifs at hvar with hempty
  exact hempty (Option.some.inj hvar)

theorem Changes.templatesChecked {L : CommandLibrary} {cat cat' : Catalog} {action : CatalogAction}
    (h : Changes L cat cat' action) (hchecked : cat.TemplatesChecked L.engine) :
    cat'.TemplatesChecked L.engine := by
  intro r hr hmode
  have hrow : r ∈ cat'.rowsOf r.procedure := Catalog.mem_rowsOf.mpr ⟨hr, rfl⟩
  cases h with
  | save row accepted rows takesOut =>
    rcases (rows _ _).mp hrow with ⟨rfl, -⟩ | ⟨hold, -⟩
    · exact ⟨_, not_mem_producedBefore _ _, accepted.validateJinjaArgv hmode⟩
    · exact hchecked r (Catalog.mem_rowsOf.mp hold).1 hmode
  | remove pk rows takesOut =>
    exact hchecked r (Catalog.mem_rowsOf.mp ((rows _ _).mp hrow).1).1 hmode
  | keep rows takesOut => exact hchecked r (Catalog.mem_rowsOf.mp ((rows _ _).mp hrow)).1 hmode

/-- After any run of accepted changes that leaves nothing open, a stored template names the variables
one by one: the name `vars` stands only below an access with a spelled-out key, and the key is the
output of an earlier command of the same procedure. -/
theorem stored_templates_name_earlier_vars (L : CommandLibrary) (hfinds : L.engine.FindsAll)
    (cat : Catalog) (hempty : cat.commands.rows = []) (actions : List CatalogAction)
    (hmeets : Transition.Meets (catalogStep L) (LeavesNothingOpen L.engine) cat actions)
    {row : CommandRow} (hrow : row ∈ (Transition.run (catalogStep L) cat actions).commands.rows)
    (hmode : row.mode = "jinja") {tokens : List Json} (hargv : row.argv = .arr tokens)
    {token : String} (htoken : .str token ∈ tokens) {nodes : List Jinja.Node}
    (hparse : L.engine.parse token = .ok nodes) {path : List ℕ} {i : ℕ}
    (hname : TreeSearch.nodeAt Jinja.Node.children (path ++ [i]) (.output nodes) =
      some (.name "vars")) :
    ∃ node key, TreeSearch.nodeAt Jinja.Node.children path (.output nodes) = some node ∧ i = 0 ∧
      accessOf node = some (.name "vars", some key) ∧
      ∃ earlier ∈ (Transition.run (catalogStep L) cat actions).rowsOf row.procedure,
        earlier.sequence < row.sequence ∧ earlier.outputVar = some key := by
  have hfinal : (Transition.run (catalogStep L) cat actions).Resolvable L.engine :=
    (throughout_resolvable_iff L hempty actions).mpr hmeets actions [] (List.append_nil _).symm
  have hchecked : (Transition.run (catalogStep L) cat actions).TemplatesChecked L.engine := by
    refine Transition.run_invariant (fun s a t h => (changes_of_catalogStep h).templatesChecked)
      actions (fun r hr => ?_)
    rw [hempty] at hr
    cases hr
  obtain ⟨scope, hnonempty, hvalid⟩ := hchecked row hrow hmode
  rw [hargv] at hvalid
  obtain ⟨s, nodes', hs, hformed⟩ :=
    (tokenErrors_eq_nil_iff hfinds).mp (tokenErrors_of_accepted hvalid htoken)
  obtain rfl := Json.str.inj hs
  obtain rfl : nodes = nodes' := Except.ok.inj (hparse.symm.trans hformed.parse)
  obtain ⟨node, hnode, hchild⟩ := TreeSearch.exists_parent hname
  have hnode' := hformed.checked path node hnode
  -- a bare `vars` is no permitted reference
  have haccessed : accessOf node ≠ none ∧ i = 0 := by
    by_contra hboth
    obtain ⟨key, -, hkey⟩ := (hnode'.bare i "vars" hchild (by tauto)).of_vars
    cases hkey
  obtain ⟨hsome, rfl⟩ := haccessed
  obtain ⟨⟨inner, attr⟩, haccess⟩ := Option.ne_none_iff_exists'.mp hsome
  have hinner := getElem?_children_of_accessOf haccess
  rw [hchild] at hinner
  obtain rfl := Option.some.inj hinner
  obtain ⟨key, hkey, rfl⟩ := (hnode'.access "vars" attr haccess).of_vars
  refine ⟨node, key, hnode, rfl, haccess, ?_⟩
  have hpath : path ≠ [] := by
    rintro rfl
    obtain rfl := Option.some.inj hnode
    cases haccess
  have href : ⟨"vars", some key⟩ ∈ (analyzeToken L.engine (.str token)).refs := by
    rw [(analyzeToken_of_parse hformed.nonempty hformed.available hformed.expression hparse).2]
    exact List.mem_append_left _ (mem_accessRefs ((hfinds _ _ _).mpr ⟨hpath, hnode⟩) haccess)
  have hreferenced : key ∈ row.referenced L.engine := by
    rw [CommandRow.referenced, if_pos hmode, hargv]
    refine List.mem_flatMap.mpr ⟨_, htoken, List.mem_filterMap.mpr ⟨_, href, ?_⟩⟩
    have hne : key ≠ "" := by
      rintro rfl
      exact hnonempty hkey
    simp [hne]
  exact hfinal row.procedure row (Catalog.mem_rowsOf.mpr ⟨hrow, rfl⟩) key hreferenced

theorem stored_templates_name_earlier_vars_consumer :
    ∃ node key, TreeSearch.nodeAt Jinja.Node.children [0]
        (.output [.getattr (.name "vars") "x"]) = some node ∧ 0 = 0 ∧
      accessOf node = some (.name "vars", some key) ∧
      ∃ earlier ∈ (Transition.run (catalogStep varsLibrary) oneProcedure
          [.create producer, .create consumer]).rowsOf consumer.procedure,
        earlier.sequence < consumer.sequence ∧ earlier.outputVar = some key := by
  have hmeets : Transition.Meets (catalogStep varsLibrary) (LeavesNothingOpen varsLibrary.engine)
      oneProcedure [.create producer, .create consumer] :=
    ⟨fun _ _ _ hout => hout.elim, fun _ _ _ hout => hout.elim, trivial⟩
  have hrow : consumer ∈ (Transition.run (catalogStep varsLibrary) oneProcedure
      [.create producer, .create consumer]).commands.rows := List.mem_of_getElem? (i := 1) rfl
  have hname : TreeSearch.nodeAt Jinja.Node.children ([0] ++ [0])
      (.output [.getattr (.name "vars") "x"]) = some (.name "vars") := rfl
  exact stored_templates_name_earlier_vars varsLibrary (Jinja.Engine.findsAll_onTree _) oneProcedure
    rfl _ hmeets hrow rfl rfl List.mem_cons_self rfl hname

end NetboxRpc
