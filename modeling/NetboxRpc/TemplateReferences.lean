import NetboxRpc.CommandTemplating

/-!
# What an accepted template names

The checks of a token go over the lists that `find_all` yields. `Checked` says what they ask of one
node of the syntax tree, and a token is accepted exactly when every node is checked.
-/

namespace NetboxRpc

open Jinja

inductive Scope.Permits (scope : Scope) : VarRef → Prop
  | item (attr : Option String) (h : scope.forEachPresent = true) : Permits scope ⟨"item", attr⟩
  | param {key : String} (h : key ∈ scope.paramNames) : Permits scope ⟨"params", some key⟩
  | var {key : String} (h : key ∈ scope.producedVars) : Permits scope ⟨"vars", some key⟩
  | runtime {key : String} (h : key ∈ jinjaRuntimeKeys) : Permits scope ⟨"runtime", some key⟩
  | target (key : String) : Permits scope ⟨"target", some key⟩

theorem Scope.Permits.of_vars {scope : Scope} {attr : Option String}
    (h : scope.Permits ⟨"vars", attr⟩) : ∃ key ∈ scope.producedVars, attr = some key := by
  generalize href : (⟨"vars", attr⟩ : VarRef) = ref at h
  cases h with
  | var hkey =>
    cases href
    exact ⟨_, hkey, rfl⟩
  | _ => simp at href

theorem Scope.permits_of_validateRef {E : Engine} {scope : Scope} {ref : VarRef}
    (h : validateRef E scope ref = []) : scope.Permits ref := by
  obtain ⟨root, attr⟩ := ref
  unfold validateRef at h
  by_cases hroot : jinjaContextRoots.contains root = true
  · rw [if_neg (by simpa using hroot)] at h
    by_cases hitem : root = "item"
    · subst hitem
      rw [if_pos rfl] at h
      by_cases heach : scope.forEachPresent = true
      · exact .item attr heach
      · rw [if_neg heach] at h
        cases h
    · rw [if_neg hitem] at h
      cases attr with
      | none => cases h
      | some key =>
        dsimp only at h
        split_ifs at h with hparam hvar hruntime
        rcases (by simpa [jinjaContextRoots, hitem] using hroot :
          root = "params" ∨ root = "runtime" ∨ root = "target" ∨ root = "vars") with
          rfl | rfl | rfl | rfl
        · exact .param (by simpa using hparam)
        · exact .runtime (by simpa using hruntime)
        · exact .target key
        · exact .var (by simpa using hvar)
  · rw [if_pos (by simpa using hroot)] at h
    cases h

theorem Scope.Permits.validateRef_eq {E : Engine} {scope : Scope} {ref : VarRef}
    (h : scope.Permits ref) : validateRef E scope ref = [] := by
  cases h with
  | item attr heach => simp [validateRef, jinjaContextRoots, heach]
  | param hkey => simp [validateRef, jinjaContextRoots, hkey]
  | var hkey => simp [validateRef, jinjaContextRoots, hkey]
  | runtime hkey => simp [validateRef, jinjaContextRoots, hkey]
  | target key => simp [validateRef, jinjaContextRoots]

/-! ## Accepted tokens -/

theorem tokenErrors_of_accepted {E : Engine} {scope : Scope} {tokens : List Json}
    (h : validateJinjaArgv E scope (.arr tokens) = []) {token : Json} (ht : token ∈ tokens) :
    tokenErrors E scope token = [] := by
  cases tokens with
  | nil => cases ht
  | cons first rest =>
    obtain ⟨i, hi⟩ := List.mem_iff_getElem?.mp ht
    rw [validateJinjaArgv, List.flatMap_eq_nil_iff] at h
    have hmem : (token, i) ∈ (first :: rest).zipIdx := by
      rw [List.mem_zipIdx_iff_getElem?]
      exact hi
    exact List.map_eq_nil_iff.mp (h _ hmem)

theorem errors_of_accepted {E : Engine} {scope : Scope} {tokens : List Json}
    (h : validateJinjaArgv E scope (.arr tokens) = []) {token : Json} (ht : token ∈ tokens) :
    (analyzeToken E token).errors = [] ∧ ∀ ref ∈ (analyzeToken E token).refs, scope.Permits ref := by
  obtain ⟨herrors, hrefs⟩ := List.append_eq_nil_iff.mp (tokenErrors_of_accepted h ht)
  refine ⟨herrors, fun ref href => ?_⟩
  exact Scope.permits_of_validateRef (List.flatMap_eq_nil_iff.mp hrefs ref href)

/-! ## The checks of one node -/

structure Checked (permits : VarRef → Prop) (node : Node) : Prop where
  call : ∀ callee args kwargs dynArgs dynKwargs, node ≠ .call callee args kwargs dynArgs dynKwargs
  filter : ∀ operand name args kwargs dynArgs dynKwargs,
    node = .filter operand name args kwargs dynArgs dynKwargs → name ∈ allowedFilters
  data : ∀ data, node = .templateData data → isLiteralSafe data = true
  const : ∀ s, node = .const (.str s) → isLiteralSafe s = true
  key : ∀ inner attr, accessOf node = some (inner, some attr) → isPrivate attr = false
  access : ∀ root attr, accessOf node = some (.name root, attr) → permits ⟨root, attr⟩
  bare : ∀ (i : ℕ) root, node.children[i]? = some (.name root) → (accessOf node = none ∨ i ≠ 0) →
    permits ⟨root, none⟩

theorem getElem?_children_of_accessOf {node inner : Node} {attr : Option String}
    (h : accessOf node = some (inner, attr)) : node.children[0]? = some inner := by
  cases node <;> cases h <;> rfl

theorem mem_attributedNameIds {found : FoundNodes} {path : List ℕ} :
    path ∈ attributedNameIds found ↔
      ∃ above node root attr, (above, node) ∈ found ∧
        accessOf node = some (.name root, attr) ∧ path = above ++ [0] := by
  constructor
  · intro hmem
    obtain ⟨⟨above, node⟩, hfound, hid⟩ := List.mem_filterMap.mp hmem
    split at hid
    · rename_i root attr haccess
      exact ⟨above, node, root, attr, hfound, haccess, (Option.some.inj hid).symm⟩
    · cases hid
  · rintro ⟨above, node, root, attr, hfound, haccess, rfl⟩
    exact List.mem_filterMap.mpr ⟨_, hfound, by simp [haccess]⟩

theorem mem_accessRefs {found : FoundNodes} {path : List ℕ} {node : Node} {root : String}
    {attr : Option String} (hfound : (path, node) ∈ found)
    (haccess : accessOf node = some (.name root, attr)) : ⟨root, attr⟩ ∈ accessRefs found :=
  List.mem_filterMap.mpr ⟨_, hfound, by simp [haccess]⟩

theorem mem_bareRefs {found : FoundNodes} {path : List ℕ} {root : String}
    (hfound : (path, .name root) ∈ found) (hfree : path ∉ attributedNameIds found) :
    ⟨root, none⟩ ∈ bareRefs found :=
  List.mem_filterMap.mpr ⟨_, hfound, by simp [hfree]⟩

theorem of_mem_accessRefs {found : FoundNodes} {ref : VarRef} (h : ref ∈ accessRefs found) :
    ∃ path node, (path, node) ∈ found ∧ accessOf node = some (.name ref.root, ref.attr) := by
  obtain ⟨⟨path, node⟩, hfound, href⟩ := List.mem_filterMap.mp h
  split at href
  · rename_i root attr haccess
    obtain rfl := Option.some.inj href
    exact ⟨path, node, hfound, haccess⟩
  · cases href

theorem of_mem_bareRefs {found : FoundNodes} {ref : VarRef} (h : ref ∈ bareRefs found) :
    ref.attr = none ∧
      ∃ path, (path, .name ref.root) ∈ found ∧ path ∉ attributedNameIds found := by
  obtain ⟨⟨path, node⟩, hfound, href⟩ := List.mem_filterMap.mp h
  split at href
  · rename_i root hname
    dsimp only at hname
    split_ifs at href with hid
    obtain rfl := Option.some.inj href
    rw [hname] at hfound
    exact ⟨rfl, path, hfound, by simpa using hid⟩
  · cases href

structure CleanFound (E : Engine) (token : String) (found : FoundNodes) : Prop where
  call : callErrors E token found = []
  filter : filterErrors E token found = []
  data : dataErrors E token found = []
  const : constErrors E token found = []
  access : privateErrors E token found = []

section

variable {E : Engine} {permits : VarRef → Prop} {token : String} {nodes : List Node}

/-- A name is an accessed node only as the first child of an access. -/
theorem not_mem_attributedNameIds (hfinds : E.FindsAll) {path : List ℕ} {node : Node} {i : ℕ}
    (hnode : TreeSearch.nodeAt Node.children path (.output nodes) = some node)
    (hbare : accessOf node = none ∨ i ≠ 0) :
    path ++ [i] ∉ attributedNameIds (E.findAll nodes) := by
  rw [mem_attributedNameIds]
  rintro ⟨above, node', root, attr, hfound, haccess, heq⟩
  obtain ⟨rfl, hlast⟩ := List.append_inj' heq rfl
  have hi : i = 0 := (List.cons.inj hlast).1
  obtain rfl : node = node' := Option.some.inj (hnode.symm.trans ((hfinds _ _ _).mp hfound).2)
  rcases hbare with hnone | hne
  · rw [hnone] at haccess
    cases haccess
  · exact hne hi

theorem CleanFound.checked (hfinds : E.FindsAll) (h : CleanFound E token (E.findAll nodes))
    (hrefs : ∀ ref ∈ accessRefs (E.findAll nodes) ++ bareRefs (E.findAll nodes), permits ref)
    {path : List ℕ} {node : Node}
    (hnode : TreeSearch.nodeAt Node.children path (.output nodes) = some node) :
    Checked permits node := by
  have hbare : ∀ (i : ℕ) root, node.children[i]? = some (.name root) →
      (accessOf node = none ∨ i ≠ 0) → permits ⟨root, none⟩ := by
    intro i root hname hbare
    have hfound : (path ++ [i], Node.name root) ∈ E.findAll nodes :=
      (hfinds _ _ _).mpr ⟨by simp, TreeSearch.nodeAt_child hnode hname⟩
    refine hrefs _ (List.mem_append_right _ (mem_bareRefs hfound ?_))
    exact not_mem_attributedNameIds hfinds hnode hbare
  by_cases hpath : path = []
  · subst hpath
    obtain rfl : Node.output nodes = node := Option.some.inj hnode
    constructor
    case bare => exact hbare
    all_goals simp [accessOf]
  have hfound : (path, node) ∈ E.findAll nodes := (hfinds _ _ _).mpr ⟨hpath, hnode⟩
  refine ⟨?_, ?_, ?_, ?_, ?_, ?_, hbare⟩
  · rintro callee args kwargs dynArgs dynKwargs rfl
    have hcall := h.call
    rw [callErrors, if_pos (List.any_eq_true.mpr ⟨_, hfound, rfl⟩)] at hcall
    cases hcall
  · rintro operand name args kwargs dynArgs dynKwargs rfl
    have hfilter := List.filterMap_eq_nil_iff.mp h.filter _ hfound
    simpa using hfilter
  · rintro data rfl
    have hdata := List.filterMap_eq_nil_iff.mp h.data _ hfound
    simpa using hdata
  · rintro s rfl
    have hconst := List.filterMap_eq_nil_iff.mp h.const _ hfound
    simpa using hconst
  · intro inner attr haccess
    have hprivate := List.filterMap_eq_nil_iff.mp h.access _ hfound
    simpa [haccess] using hprivate
  · intro root attr haccess
    exact hrefs _ (List.mem_append_left _ (mem_accessRefs hfound haccess))

/-- A tree whose nodes are all checked gives no error. -/
theorem CleanFound.of_checked {found : FoundNodes}
    (h : ∀ path node, (path, node) ∈ found → Checked permits node) : CleanFound E token found where
  call := by
    refine if_neg (fun hany => ?_)
    obtain ⟨⟨path, node⟩, hfound, hcall⟩ := List.any_eq_true.mp hany
    dsimp only at hcall
    split at hcall
    · exact (h path _ hfound).call _ _ _ _ _ rfl
    · cases hcall
  filter := by
    rw [filterErrors, List.filterMap_eq_nil_iff]
    rintro ⟨path, node⟩ hfound
    split
    · rename_i hnode
      have hname := (h path node hfound).filter _ _ _ _ _ _ hnode
      exact if_pos (by simpa using hname)
    · rfl
  data := by
    rw [dataErrors, List.filterMap_eq_nil_iff]
    rintro ⟨path, node⟩ hfound
    split
    · rename_i hnode
      exact if_pos ((h path node hfound).data _ hnode)
    · rfl
  const := by
    rw [constErrors, List.filterMap_eq_nil_iff]
    rintro ⟨path, node⟩ hfound
    split
    · rename_i hnode
      exact if_pos ((h path node hfound).const _ hnode)
    · rfl
  access := by
    rw [privateErrors, List.filterMap_eq_nil_iff]
    rintro ⟨path, node⟩ hfound
    split
    · rename_i haccess
      have hpublic := (h path node hfound).key _ _ haccess
      exact if_neg (by rw [hpublic]; exact Bool.false_ne_true)
    · rfl

/-- The references of a tree whose nodes are all checked. -/
theorem permits_of_checked (hfinds : E.FindsAll)
    (h : ∀ path node, TreeSearch.nodeAt Node.children path (.output nodes) = some node →
      Checked permits node) :
    ∀ ref ∈ accessRefs (E.findAll nodes) ++ bareRefs (E.findAll nodes), permits ref := by
  intro ref href
  rcases List.mem_append.mp href with href | href
  · obtain ⟨path, node, hfound, haccess⟩ := of_mem_accessRefs href
    exact (h path node ((hfinds _ _ _).mp hfound).2).access _ _ haccess
  · obtain ⟨hattr, path, hfound, hfree⟩ := of_mem_bareRefs href
    obtain ⟨hpath, hname⟩ := (hfinds _ _ _).mp hfound
    obtain ⟨above, i, rfl⟩ := List.eq_nil_or_concat' path |>.resolve_left hpath
    obtain ⟨parent, hparent, hchild⟩ := TreeSearch.exists_parent hname
    have hbare := (h above parent hparent).bare i ref.root hchild ?_
    · rwa [← hattr] at hbare
    · by_contra hboth
      obtain ⟨haccess, hi⟩ := not_or.mp hboth
      obtain rfl : i = 0 := Decidable.not_not.mp hi
      obtain ⟨⟨inner, attr⟩, haccess⟩ := Option.ne_none_iff_exists'.mp haccess
      have hinner := getElem?_children_of_accessOf haccess
      rw [hchild] at hinner
      obtain rfl := Option.some.inj hinner
      have habove : above ≠ [] := by
        rintro rfl
        obtain rfl := Option.some.inj hparent
        cases haccess
      exact hfree (mem_attributedNameIds.mpr
        ⟨above, parent, ref.root, attr, (hfinds _ _ _).mpr ⟨habove, hparent⟩, haccess, rfl⟩)

end

/-! ## Accepted templates -/

structure WellFormedToken (E : Engine) (scope : Scope) (token : String) (nodes : List Node) :
    Prop where
  nonempty : token ≠ ""
  available : E.available = true
  expression : hasStatement token = false
  parse : E.parse token = .ok nodes
  checked : ∀ path node, TreeSearch.nodeAt Node.children path (.output nodes) = some node →
    Checked scope.Permits node

theorem exists_parse_of_errors {E : Engine} {token : Json} (h : (analyzeToken E token).errors = []) :
    ∃ s nodes, token = .str s ∧ s ≠ "" ∧ E.available = true ∧ hasStatement s = false ∧
      E.parse s = .ok nodes := by
  unfold analyzeToken at h
  split at h
  · rename_i s
    split_ifs at h with hempty havailable hstatement
    split at h
    · cases h
    · rename_i nodes hparse
      exact ⟨s, nodes, rfl, hempty, by simpa using havailable, by simpa using hstatement, hparse⟩
  · cases h

theorem analyzeToken_of_parse {E : Engine} {token : String} {nodes : List Node} (hempty : token ≠ "")
    (havailable : E.available = true) (hstatement : hasStatement token = false)
    (hparse : E.parse token = .ok nodes) :
    ((analyzeToken E (.str token)).errors = [] ↔ CleanFound E token (E.findAll nodes)) ∧
      (analyzeToken E (.str token)).refs =
        accessRefs (E.findAll nodes) ++ bareRefs (E.findAll nodes) := by
  have hanalysis : analyzeToken E (.str token) = ⟨callErrors E token (E.findAll nodes) ++
      filterErrors E token (E.findAll nodes) ++ dataErrors E token (E.findAll nodes) ++
      constErrors E token (E.findAll nodes) ++ privateErrors E token (E.findAll nodes),
      accessRefs (E.findAll nodes) ++ bareRefs (E.findAll nodes)⟩ := by
    simp [analyzeToken, hempty, havailable, hstatement, hparse]
  rw [hanalysis]
  refine ⟨?_, rfl⟩
  simp only [List.append_eq_nil_iff]
  constructor
  · rintro ⟨⟨⟨⟨hcall, hfilter⟩, hdata⟩, hconst⟩, hprivate⟩
    exact ⟨hcall, hfilter, hdata, hconst, hprivate⟩
  · rintro ⟨hcall, hfilter, hdata, hconst, hprivate⟩
    exact ⟨⟨⟨⟨hcall, hfilter⟩, hdata⟩, hconst⟩, hprivate⟩

theorem tokenErrors_eq_nil_iff {E : Engine} (hfinds : E.FindsAll) {scope : Scope} {token : Json} :
    tokenErrors E scope token = [] ↔
      ∃ s nodes, token = .str s ∧ WellFormedToken E scope s nodes := by
  rw [tokenErrors, List.append_eq_nil_iff, List.flatMap_eq_nil_iff]
  constructor
  · rintro ⟨herrors, hrefs⟩
    obtain ⟨s, nodes, rfl, hempty, havailable, hstatement, hparse⟩ := exists_parse_of_errors herrors
    obtain ⟨hclean, heq⟩ := analyzeToken_of_parse hempty havailable hstatement hparse
    rw [heq] at hrefs
    refine ⟨s, nodes, rfl, hempty, havailable, hstatement, hparse, fun path node hnode => ?_⟩
    exact (hclean.mp herrors).checked hfinds
      (fun ref href => Scope.permits_of_validateRef (hrefs ref href)) hnode
  · rintro ⟨s, nodes, rfl, h⟩
    obtain ⟨hclean, heq⟩ := analyzeToken_of_parse h.nonempty h.available h.expression h.parse
    refine ⟨hclean.mpr (.of_checked fun path node hfound =>
      h.checked path node ((hfinds _ _ _).mp hfound).2), ?_⟩
    rw [heq]
    exact fun ref href => (permits_of_checked hfinds h.checked ref href).validateRef_eq

/-- Templates are accepted by their syntax trees: `validate_jinja_argv` finds nothing exactly when
there are tokens and every token is well formed. -/
theorem template_accepted_iff (E : Engine) (hfinds : E.FindsAll) (scope : Scope) (argv : Json) :
    validateJinjaArgv E scope argv = [] ↔ ∃ tokens, argv = .arr tokens ∧ tokens ≠ [] ∧
      ∀ token ∈ tokens, ∃ s nodes, token = .str s ∧ WellFormedToken E scope s nodes := by
  constructor
  · intro h
    cases argv with
    | arr tokens =>
      refine ⟨tokens, rfl, ?_, fun token ht => ?_⟩
      · rintro rfl
        cases h
      · exact (tokenErrors_eq_nil_iff hfinds).mp (tokenErrors_of_accepted h ht)
    | _ => cases h
  · rintro ⟨tokens, rfl, hne, hall⟩
    obtain ⟨first, rest, rfl⟩ := List.exists_cons_of_ne_nil hne
    rw [validateJinjaArgv, List.flatMap_eq_nil_iff]
    rintro ⟨token, i⟩ hmem
    have hsome : token ∈ first :: rest :=
      List.mem_of_getElem? (List.mem_zipIdx_iff_getElem?.mp hmem)
    rw [(tokenErrors_eq_nil_iff hfinds).mpr (hall token hsome)]
    rfl

/-- A token that reads a declared parameter, and one that reads the whole mapping. -/
theorem template_accepted_iff_params :
    (∃ tokens, (Json.arr [.str "\x7b\x7b params.host \x7d\x7d"]) = .arr tokens ∧ tokens ≠ [] ∧
      ∀ token ∈ tokens, ∃ s nodes, token = .str s ∧
        WellFormedToken (Engine.onTree [.getattr (.name "params") "host"]) ⟨["host"], [], false⟩ s
          nodes) ∧
    ¬ ∃ tokens, (Json.arr [.str "\x7b\x7b params \x7d\x7d"]) = .arr tokens ∧ tokens ≠ [] ∧
      ∀ token ∈ tokens, ∃ s nodes, token = .str s ∧
        WellFormedToken (Engine.onTree [.name "params"]) ⟨["host"], [], false⟩ s nodes := by
  constructor
  · refine (template_accepted_iff _ (Engine.findsAll_onTree _) _ _).mp ?_
    decide
  · rw [← template_accepted_iff _ (Engine.findsAll_onTree _)]
    decide

end NetboxRpc
