import NetboxRpc.StoredResults

/-!
# String limits of a result schema

A schema registers a limit for each string field that it lets grow beyond the default, by the
names on the way to it, and the relaxed schema drops the lengths found at registered paths. The
items of a list are registered under `*`, which a property may be named as well.
-/

namespace NetboxRpc

/-! ## Nodes -/

def belowKeyword {α : Type} (node : List String → Json → List α) (path : List String) :
    String × Json → List α
  | ("properties", .obj props) => props.flatMap (fun p => node (path ++ [p.1]) p.2)
  | ("items", items) => node (path ++ ["*"]) items
  | _ => []

/-- The nodes reached through `properties` and `items`, each with its flattened path. -/
def schemaNodes : ℕ → List String → Json → List (List String × Entries)
  | fuel + 1, path, .obj schema =>
    (path, schema) :: schema.flatMap (belowKeyword (schemaNodes fuel) path)
  | _, _, _ => []

/-- The node's own `maxLength` is an integer beyond the default bound of stored text. -/
def isWide (schema : Entries) : Bool :=
  match Json.find schema "maxLength" with
  | some (.int n) => decide ((maxEventStringLength : ℤ) < n)
  | _ => false

def hasMaxLength (schema : Entries) : Bool := schema.any (fun e => e.1 == "maxLength")

def mapKeyword (f : List String → Json → Json) (path : List String) : String × Json → String × Json
  | ("properties", .obj props) =>
    ("properties", .obj (props.map (fun p => (p.1, f (path ++ [p.1]) p.2))))
  | ("items", items) => ("items", f (path ++ ["*"]) items)
  | e => e

def stripMaxLength (selects : List String → Entries → Bool) : ℕ → List String → Json → Json
  | fuel + 1, path, .obj schema =>
    .obj ((if selects path schema then schema.filter (fun e => e.1 != "maxLength") else schema).map
      (mapKeyword (stripMaxLength selects fuel) path))
  | _, _, v => v

def relaxWideNodes (schema : Json) : Json :=
  stripMaxLength (fun _ node => isWide node) (JsonSchema.depth schema) [] schema

theorem stripMaxLengthAtPaths_eq (limits : StringLimits) (fuel : ℕ) (path : List String) (v : Json) :
    stripMaxLengthAtPaths limits fuel path v =
      stripMaxLength (fun path _ => limits.any (fun l => l.1 == path)) fuel path v := by
  induction fuel generalizing path v with
  | zero => rfl
  | succ fuel ih =>
    cases v with
    | obj schema =>
      have hfun : stripMaxLengthAtPaths limits fuel =
          stripMaxLength (fun path _ => limits.any (fun l => l.1 == path)) fuel :=
        funext fun path => funext fun v => ih path v
      rw [stripMaxLengthAtPaths, stripMaxLength, hfun]
      rfl
    | null | bool b | int n | float q | str s | arr items => rfl

@[simp] theorem mapKeyword_fst (f : List String → Json → Json) (path : List String)
    (e : String × Json) : (mapKeyword f path e).1 = e.1 := by
  unfold mapKeyword
  split <;> rfl

theorem hasMaxLength_map (f : List String → Json → Json) (path : List String) (schema : Entries) :
    hasMaxLength (schema.map (mapKeyword f path)) = hasMaxLength schema := by
  simp only [hasMaxLength, List.any_map, Function.comp_def, mapKeyword_fst]

theorem hasMaxLength_filter (schema : Entries) :
    hasMaxLength (schema.filter (fun e => e.1 != "maxLength")) = false := by
  rw [hasMaxLength, List.any_eq_false]
  intro e he
  simpa using (List.mem_filter.mp he).2

theorem filter_of_hasMaxLength_eq_false {schema : Entries} (h : hasMaxLength schema = false) :
    schema.filter (fun e => e.1 != "maxLength") = schema := by
  rw [hasMaxLength, List.any_eq_false] at h
  rw [List.filter_eq_self]
  intro e he
  simpa using h e he

/-- Two replacements agree below a keyword exactly when they agree on the nodes there. -/
theorem mapKeyword_eq_iff {f g : List String → Json → Json} {α : Type}
    {node : List String → Json → List α} {agree : α → Prop}
    (h : ∀ path v, f path v = g path v ↔ ∀ a ∈ node path v, agree a) (path : List String)
    (e : String × Json) :
    mapKeyword f path e = mapKeyword g path e ↔ ∀ a ∈ belowKeyword node path e, agree a := by
  unfold mapKeyword belowKeyword
  split
  · next props =>
    rw [Prod.mk.injEq, Json.obj.injEq, List.map_inj_left]
    simp only [true_and, Prod.mk.injEq, h, List.mem_flatMap]
    constructor
    · rintro hall a ⟨p, hp, ha⟩
      exact hall p hp a ha
    · intro hall p hp a ha
      exact hall a ⟨p, hp, ha⟩
  · simp only [Prod.mk.injEq, true_and, h]
  · simp

theorem belowKeyword_maxLength {α : Type} (node : List String → Json → List α)
    (path : List String) {e : String × Json} (h : e.1 = "maxLength") :
    belowKeyword node path e = [] := by
  unfold belowKeyword
  split
  · simp at h
  · simp at h
  · rfl

/-- Two selections strip alike exactly when they agree on every node that has a `maxLength`. -/
theorem stripMaxLength_eq_iff (selects others : List String → Entries → Bool) (fuel : ℕ)
    (path : List String) (v : Json) :
    stripMaxLength selects fuel path v = stripMaxLength others fuel path v ↔
      ∀ node ∈ schemaNodes fuel path v, hasMaxLength node.2 = true →
        selects node.1 node.2 = others node.1 node.2 := by
  induction fuel generalizing path v with
  | zero => simp [stripMaxLength, schemaNodes]
  | succ fuel ih =>
    cases v with
    | obj schema =>
      have hbelow := mapKeyword_eq_iff ih path
      rw [stripMaxLength, stripMaxLength, schemaNodes, Json.obj.injEq, List.forall_mem_cons]
      -- With the same node stripped on both sides, only the schemas below can differ.
      have hsame : ∀ kept : Entries, (∀ e ∈ schema, e.1 ≠ "maxLength" → e ∈ kept) → kept ⊆ schema →
          (kept.map (mapKeyword (stripMaxLength selects fuel) path) =
              kept.map (mapKeyword (stripMaxLength others fuel) path) ↔
            ∀ node ∈ schema.flatMap (belowKeyword (schemaNodes fuel) path),
              hasMaxLength node.2 = true → selects node.1 node.2 = others node.1 node.2) := by
        intro kept hkept hsub
        rw [List.map_inj_left]
        simp only [hbelow, List.mem_flatMap]
        constructor
        · rintro hall node ⟨e, he, hnode⟩
          refine hall e (hkept e he (fun hname => ?_)) node hnode
          rw [belowKeyword_maxLength _ _ hname] at hnode
          cases hnode
        · intro hall e he node hnode
          exact hall node ⟨e, hsub he, hnode⟩
      by_cases hsel : selects path schema = others path schema
      · rw [hsel, and_iff_right (fun _ => rfl)]
        split_ifs
        · exact hsame _ (fun e he hname => List.mem_filter.mpr ⟨he, by simpa using hname⟩)
            List.filter_sublist.subset
        · exact hsame schema (fun e he _ => he) (List.Subset.refl _)
      · cases hmax : hasMaxLength schema with
        | false =>
          rw [filter_of_hasMaxLength_eq_false hmax, ite_self, ite_self, and_iff_right (by simp)]
          exact hsame schema (fun e he _ => he) (List.Subset.refl _)
        | true =>
          have hfalse : ¬ ((true = true → selects path schema = others path schema) ∧
              ∀ node ∈ schema.flatMap (belowKeyword (schemaNodes fuel) path),
                hasMaxLength node.2 = true → selects node.1 node.2 = others node.1 node.2) :=
            fun h => hsel (h.1 rfl)
          refine iff_of_false (fun heq => ?_) hfalse
          have hnames := congrArg hasMaxLength heq
          rw [hasMaxLength_map, hasMaxLength_map] at hnames
          cases hleft : selects path schema <;> cases hright : others path schema <;>
            simp_all [hasMaxLength_filter]
    | null | bool b | int n | float q | str s | arr items => simp [stripMaxLength, schemaNodes]

/-! ## Registered limits -/

def wideLimit (node : List String × Entries) : Option (List String × ℕ) :=
  match Json.find node.2 "maxLength" with
  | some (.int n) => if (maxEventStringLength : ℤ) < n then some (node.1, n.toNat) else none
  | _ => none

theorem wideLimit_isSome (node : List String × Entries) :
    (wideLimit node).isSome = isWide node.2 := by
  unfold wideLimit isWide
  split
  · split_ifs with h
    · exact (decide_eq_true h).symm
    · exact (decide_eq_false h).symm
  · rfl

theorem fst_of_wideLimit {node : List String × Entries} {l : List String × ℕ}
    (h : wideLimit node = some l) : l.1 = node.1 := by
  unfold wideLimit at h
  split at h
  · split_ifs at h
    exact congrArg Prod.fst (Option.some.inj h).symm
  · cases h

/-- The nodes below a node are those below its `properties` and its `items`. -/
theorem mem_below_iff {schema : Entries} (hnodup : (schema.map Prod.fst).Nodup) {α : Type}
    (node : List String → Json → List α) (path : List String) (a : α) :
    a ∈ schema.flatMap (belowKeyword node path) ↔
      (∃ props, Json.find schema "properties" = some (.obj props) ∧
        ∃ p ∈ props, a ∈ node (path ++ [p.1]) p.2) ∨
      ∃ items, Json.find schema "items" = some items ∧ a ∈ node (path ++ ["*"]) items := by
  simp only [List.mem_flatMap, Json.find_eq_some_iff hnodup]
  constructor
  · rintro ⟨e, he, ha⟩
    unfold belowKeyword at ha
    split at ha
    · next props => exact .inl ⟨props, he, List.mem_flatMap.mp ha⟩
    · next items => exact .inr ⟨items, he, ha⟩
    · cases ha
  · rintro (⟨props, he, ha⟩ | ⟨items, he, ha⟩)
    · exact ⟨_, he, List.mem_flatMap.mpr ha⟩
    · exact ⟨_, he, ha⟩

def ownLimit (path : List String) (schema : Entries) (limits : StringLimits) : StringLimits :=
  match Json.find schema "maxLength" with
  | some (.int n) => if (maxEventStringLength : ℤ) < n then (path, n.toNat) :: limits else limits
  | _ => limits

def propertyLimits (collect : Json → List String → StringLimits → StringLimits)
    (path : List String) (schema : Entries) (limits : StringLimits) : StringLimits :=
  match Json.find schema "properties" with
  | some (.obj props) => props.foldl (fun limits p => collect p.2 (path ++ [p.1]) limits) limits
  | _ => limits

def itemLimits (collect : Json → List String → StringLimits → StringLimits)
    (path : List String) (schema : Entries) (limits : StringLimits) : StringLimits :=
  match Json.find schema "items" with
  | some items => collect items (path ++ ["*"]) limits
  | none => limits

theorem collectSchemaStringLimits_obj (fuel : ℕ) (path : List String) (schema : Entries)
    (limits : StringLimits) :
    collectSchemaStringLimits (fuel + 1) (.obj schema) path limits =
      itemLimits (collectSchemaStringLimits fuel) path schema
        (propertyLimits (collectSchemaStringLimits fuel) path schema
          (ownLimit path schema limits)) := rfl

theorem mem_ownLimit (path : List String) (schema : Entries) (limits : StringLimits)
    (l : List String × ℕ) :
    l ∈ ownLimit path schema limits ↔ l ∈ limits ∨ wideLimit (path, schema) = some l := by
  unfold wideLimit ownLimit
  cases hfind : Json.find schema "maxLength" with
  | none => simp
  | some v =>
    cases v with
    | int n =>
      by_cases hwide : (maxEventStringLength : ℤ) < n
      · simp [hwide, eq_comm, or_comm]
      · simp [hwide]
    | null | bool b | float q | str s | arr items | obj entries => simp

section

variable {collect : Json → List String → StringLimits → StringLimits}
  {registers : List String → Json → Prop} {schema : Entries} {l : List String × ℕ}
  (hcollect : ∀ v : Json, v.wellFormed = true → ∀ path limits,
    l ∈ collect v path limits ↔ l ∈ limits ∨ registers path v)
  (hwf : (Json.obj schema).wellFormed = true)

include hcollect hwf

theorem mem_itemLimits (path : List String) (limits : StringLimits) :
    l ∈ itemLimits collect path schema limits ↔ l ∈ limits ∨
      ∃ items, Json.find schema "items" = some items ∧ registers (path ++ ["*"]) items := by
  obtain ⟨hnodup, hvalues⟩ := Json.wellFormed_obj_iff.mp hwf
  unfold itemLimits
  cases hfind : Json.find schema "items" with
  | none => simp
  | some items =>
    have hitems := hvalues _ ((Json.find_eq_some_iff hnodup).mp hfind)
    rw [hcollect items hitems]
    simp

theorem mem_propertyLimits (path : List String) (limits : StringLimits) :
    l ∈ propertyLimits collect path schema limits ↔ l ∈ limits ∨
      ∃ props, Json.find schema "properties" = some (.obj props) ∧
        ∃ p ∈ props, registers (path ++ [p.1]) p.2 := by
  obtain ⟨hnodup, hvalues⟩ := Json.wellFormed_obj_iff.mp hwf
  have hfold : ∀ (props : Entries) (limits : StringLimits),
      (∀ p ∈ props, p.2.wellFormed = true) →
      (l ∈ props.foldl (fun limits p => collect p.2 (path ++ [p.1]) limits) limits ↔
        l ∈ limits ∨ ∃ p ∈ props, registers (path ++ [p.1]) p.2) := by
    intro props
    induction props with
    | nil => simp
    | cons p props ih =>
      intro limits hprops
      rw [List.foldl_cons, ih _ (fun q hq => hprops q (List.mem_cons_of_mem p hq)),
        hcollect p.2 (hprops p List.mem_cons_self), or_assoc, List.exists_mem_cons_iff]
  unfold propertyLimits
  split
  · next props hfind =>
    have hprops := hvalues _ ((Json.find_eq_some_iff hnodup).mp hfind)
    rw [hfold props limits (Json.wellFormed_obj_iff.mp hprops).2, hfind]
    simp
  · next hnone =>
    refine ⟨.inl, fun h => h.resolve_right ?_⟩
    rintro ⟨props, hfind, _⟩
    exact hnone props hfind

end

/-- A limit is registered exactly by a wide node, under the node's path. -/
theorem mem_collectSchemaStringLimits {fuel : ℕ} {v : Json} (hwf : v.wellFormed = true)
    (path : List String) (limits : StringLimits) (l : List String × ℕ) :
    l ∈ collectSchemaStringLimits fuel v path limits ↔
      l ∈ limits ∨ ∃ node ∈ schemaNodes fuel path v, wideLimit node = some l := by
  induction fuel generalizing v path limits with
  | zero => cases v <;> simp [collectSchemaStringLimits, schemaNodes]
  | succ fuel ih =>
    cases v with
    | obj schema =>
      have hcollect : ∀ v : Json, v.wellFormed = true → ∀ path limits,
          l ∈ collectSchemaStringLimits fuel v path limits ↔
            l ∈ limits ∨ ∃ node ∈ schemaNodes fuel path v, wideLimit node = some l :=
        fun v hv path limits => ih hv path limits
      have hbelow := mem_below_iff (Json.wellFormed_obj_iff.mp hwf).1 (schemaNodes fuel) path
      rw [collectSchemaStringLimits_obj, mem_itemLimits hcollect hwf,
        mem_propertyLimits hcollect hwf, mem_ownLimit, schemaNodes, List.exists_mem_cons_iff,
        or_assoc, or_assoc]
      refine or_congr_right (or_congr_right ?_)
      constructor
      · rintro (⟨props, hfind, p, hp, node, hnode, hl⟩ | ⟨items, hfind, node, hnode, hl⟩)
        · exact ⟨node, (hbelow node).mpr (.inl ⟨props, hfind, p, hp, hnode⟩), hl⟩
        · exact ⟨node, (hbelow node).mpr (.inr ⟨items, hfind, hnode⟩), hl⟩
      · rintro ⟨node, hnode, hl⟩
        rcases (hbelow node).mp hnode with ⟨props, hfind, p, hp, hnode⟩ | ⟨items, hfind, hnode⟩
        · exact .inl ⟨props, hfind, p, hp, node, hnode, hl⟩
        · exact .inr ⟨items, hfind, node, hnode, hl⟩
    | null | bool b | int n | float q | str s | arr items =>
      simp [collectSchemaStringLimits, schemaNodes]

def nodesOf (schema : Json) : List (List String × Entries) :=
  schemaNodes (JsonSchema.depth schema) [] schema

theorem mem_resultSchemaStringLimits {schema : Json} (hwf : schema.wellFormed = true)
    (path : List String) (limit : ℕ) :
    (path, limit) ∈ resultSchemaStringLimits schema ↔ ∃ node ∈ nodesOf schema, ∃ l,
      wideLimit node = some l ∧ l.1 = path ∧ l.2 - truncationMarker.length = limit := by
  unfold resultSchemaStringLimits nodesOf
  rw [List.mem_map]
  simp only [mem_collectSchemaStringLimits hwf, List.not_mem_nil, false_or, Prod.mk.injEq]
  constructor
  · rintro ⟨l, ⟨node, hnode, hl⟩, hpath, hlimit⟩
    exact ⟨node, hnode, l, hl, hpath, hlimit⟩
  · rintro ⟨node, hnode, l, hl, hpath, hlimit⟩
    exact ⟨l, ⟨node, hnode, hl⟩, hpath, hlimit⟩

theorem any_resultSchemaStringLimits {schema : Json} (hwf : schema.wellFormed = true)
    (path : List String) :
    (resultSchemaStringLimits schema).any (fun l => l.1 == path) = true ↔
      ∃ node ∈ nodesOf schema, node.1 = path ∧ isWide node.2 = true := by
  simp only [List.any_eq_true, beq_iff_eq]
  constructor
  · rintro ⟨⟨path', limit⟩, hmem, rfl⟩
    obtain ⟨node, hnode, l, hl, hpath, _⟩ := (mem_resultSchemaStringLimits hwf _ _).mp hmem
    refine ⟨node, hnode, (fst_of_wideLimit hl).symm.trans hpath, ?_⟩
    rw [← wideLimit_isSome, hl]
    rfl
  · rintro ⟨node, hnode, rfl, hwide⟩
    rw [← wideLimit_isSome, Option.isSome_iff_exists] at hwide
    obtain ⟨l, hl⟩ := hwide
    exact ⟨_, (mem_resultSchemaStringLimits hwf _ _).mpr
      ⟨node, hnode, l, hl, fst_of_wideLimit hl, rfl⟩, rfl⟩

/-- The relaxed schema is the original without the lengths of its wide nodes exactly when no wide
node shares its flattened path with a node of another length that is not wide. -/
theorem relaxation_minimal_iff (schema : Json) (hwf : schema.wellFormed = true) :
    relaxSchemaStringLengths schema (resultSchemaStringLimits schema) = relaxWideNodes schema ↔
      ∀ wide ∈ nodesOf schema, isWide wide.2 = true → ∀ node ∈ nodesOf schema,
        node.1 = wide.1 → hasMaxLength node.2 = true → isWide node.2 = true := by
  rw [relaxSchemaStringLengths, stripMaxLengthAtPaths_eq, relaxWideNodes, stripMaxLength_eq_iff]
  constructor
  · intro h wide hwide hisWide node hnode hpath hmax
    have hregistered := (any_resultSchemaStringLimits hwf node.1).mpr ⟨wide, hwide, hpath.symm, hisWide⟩
    rw [← h node hnode hmax]
    exact hregistered
  · intro h node hnode hmax
    rw [Bool.eq_iff_iff, any_resultSchemaStringLimits hwf]
    constructor
    · rintro ⟨wide, hwide, hpath, hisWide⟩
      exact h wide hwide hisWide node hnode hpath.symm hmax
    · intro hisWide
      exact ⟨node, hnode, rfl, hisWide⟩

def starSchema (length : ℤ) : Json :=
  .obj [("properties", .obj [("*", .obj [("maxLength", .int 5000)])]),
    ("items", .obj [("maxLength", .int length)])]

theorem relaxation_minimal_iff_star :
    (starSchema 6000).wellFormed = true ∧
      (relaxSchemaStringLengths (starSchema 6000) (resultSchemaStringLimits (starSchema 6000)) =
          relaxWideNodes (starSchema 6000) ↔
        ∀ wide ∈ nodesOf (starSchema 6000), isWide wide.2 = true →
          ∀ node ∈ nodesOf (starSchema 6000), node.1 = wide.1 →
            hasMaxLength node.2 = true → isWide node.2 = true) :=
  ⟨by decide, relaxation_minimal_iff (starSchema 6000) (by decide)⟩

/-- The items lose their length of ten with the wide property of the same path. -/
theorem narrow_length_dropped :
    relaxSchemaStringLengths (starSchema 10) (resultSchemaStringLimits (starSchema 10)) =
        .obj [("properties", .obj [("*", .obj [])]), ("items", .obj [])] ∧
      relaxWideNodes (starSchema 10) =
        .obj [("properties", .obj [("*", .obj [])]), ("items", .obj [("maxLength", .int 10)])] := by
  decide +kernel

end NetboxRpc
