import NetboxRpc.MappingEntries
import NetboxRpc.SchemaLimits
import NetboxRpc.ResponseShape
import NetboxRpc.StructuralMasking

/-!
# Wide fields of a stored result

A string at a path for which the schema declares a length beyond the default is stored within that
length, and as it is when it leaves room for the truncation marker.
-/

namespace NetboxRpc

open Regex

/-! ## Text without secret content -/

section

variable {word : Char → Bool} {text current : Text} {pieces : List Piece}

/-- The passes lose a key mark, or change nothing. -/
theorem countP_baseLoop {passes : ℕ} {result : Text × List Piece}
    (h : baseLoop word id passes current pieces = some result) :
    result = (current, pieces) ∨ result.1.countP isKeyMark < current.countP isKeyMark := by
  induction passes generalizing current pieces with
  | zero => cases h
  | succ passes ih =>
    simp only [baseLoop] at h
    split_ifs at h with hstop
    · exact .inl (Option.some.inj h).symm
    · right
      have hnext : (basePass word id current pieces).1 = redactSecretSpans word current :=
        basePass_fst word id current pieces
      have hlt : (redactSecretSpans word current).countP isKeyMark < current.countP isKeyMark := by
        refine countP_redactSecretSpans_lt (fun hnil => hstop ?_)
        rw [hnext, redactSecretSpans_of_nil hnil]
      rcases ih h with hsame | hless
      · rw [hsame, hnext]
        exact hlt
      · rw [hnext] at hless
        exact hless.trans hlt

theorem countP_maskStructural_le {structural : List Span} (h : Tracks text current pieces)
    (hspans : InOrder structural) :
    (maskStructural current pieces structural).countP isKeyMark ≤ current.countP isKeyMark := by
  obtain ⟨groups, hgroups, hranges⟩ :=
    exists_maskGroups h.fits h.positive h.sources_increasing hspans
  have hcount := @Ranges.countP_replace _ isKeyMark redactionMarker (by decide) current _ _
    hgroups.ordered
  rw [maskStructural, maskFrom_eq_replace, hranges]
  rw [List.drop_zero] at hcount
  omega

theorem sensitiveValueSpans_redactionMarker : sensitiveValueSpans redactionMarker = [] := by
  decide +kernel

/-- The structural stage loses a key mark, or stops right after masking. -/
theorem countP_structuralStage {structural : List Span} (h : Tracks text current pieces)
    (hspans : InOrder structural)
    (hmarker : structuralStage word id structural current pieces ≠ redactionMarker) :
    (structuralStage word id structural current pieces).countP isKeyMark < current.countP isKeyMark ∨
      structuralStage word id structural current pieces =
        if structural.isEmpty then current else maskStructural current pieces structural := by
  have hmasked := countP_maskStructural_le h hspans
  unfold structuralStage at hmarker ⊢
  split_ifs at hmarker ⊢ with hempty
  · exact .inr rfl
  · cases hagain : baseFixedPoint word id (id (maskStructural current pieces structural)) with
    | none =>
      rw [hagain] at hmarker
      exact absurd rfl hmarker
    | some again =>
      rcases countP_baseLoop hagain with hsame | hless
      · right
        rw [hsame]
        rfl
      · left
        exact hless.trans_le hmasked

/-- What redaction keeps is stable under each of its stages. -/
theorem stable_of_kept (hkept : redactSecretText word text = text)
    (href : nmsSecretReferenceRe.fullmatch text = false) (hmarker : text ≠ redactionMarker) :
    secretSpans word text = [] ∧ ((mergeSpans (sensitiveValueSpans text)).isEmpty = false →
      maskStructural text (wholePieces text) (mergeSpans (sensitiveValueSpans text)) = text) := by
  rw [redactSecretText, redactBounded, if_neg (by rw [href]; exact Bool.false_ne_true)] at hkept
  cases hbase : baseFixedPoint word id text with
  | none =>
    rw [hbase] at hkept
    exact absurd hkept.symm hmarker
  | some result =>
    rw [hbase] at hkept
    change structuralStage word id _ result.1 result.2 = text at hkept
    have htracks := tracks_baseFixedPoint hbase
    have hstage := countP_structuralStage htracks (inOrder_structural text)
      (by rw [hkept]; exact hmarker)
    rw [hkept] at hstage
    have hmasked := countP_maskStructural_le htracks (inOrder_structural text)
    rcases countP_baseLoop hbase with hsame | hless
    · obtain rfl := hsame
      refine ⟨redactSecretSpans_eq_self_iff.mp (baseFixed_of_baseLoop hbase), fun hempty => ?_⟩
      rcases hstage with hlt | heq
      · exact absurd hlt (lt_irrefl _)
      · rw [hempty, if_neg Bool.false_ne_true] at heq
        exact heq.symm
    · -- a mark lost in the passes cannot come back
      rcases hstage with hlt | heq
      · exact absurd (hlt.trans hless) (lt_irrefl _)
      · split_ifs at heq
        · rw [heq] at hless
          exact absurd hless (lt_irrefl _)
        · have hle := congrArg (List.countP isKeyMark) heq
          omega

/-- A text that redaction without a bound keeps is kept under any bound that keeps it. -/
theorem redactBounded_of_kept (hkept : redactSecretText word text = text) {bound : Text → Text}
    (hbound : bound text = text) : redactBounded word bound text = text := by
  cases href : nmsSecretReferenceRe.fullmatch text with
  | true => simp [redactBounded, href]
  | false =>
    by_cases hmarker : text = redactionMarker
    · have hspans : secretSpans word text = [] := by
        rw [hmarker]
        exact secretSpans_of_no_assignment (by decide) (by decide)
      exact redactBounded_of_clean hspans (hmarker ▸ sensitiveValueSpans_redactionMarker) hbound
    · obtain ⟨hspans, hmask⟩ := stable_of_kept hkept href hmarker
      have hfixed : BaseFixed word bound text := baseFixed_of_nil hspans hbound
      rw [redactBounded_of_baseFixed hfixed href, structuralStage]
      split_ifs with hempty
      · rfl
      · rw [hmask (Bool.eq_false_iff.mpr hempty), hbound, baseFixedPoint_of_baseFixed hfixed]

end

/-! ## Locations -/

inductive Step
  | key (name : String)
  | item (index : ℕ)

def Step.child? : Step → Json → Option Json
  | .key name, .obj entries => Json.find entries name
  | .item index, .arr items => items[index]?
  | _, _ => none

def valueAt? : List Step → Json → Option Json
  | [], v => some v
  | step :: steps, v => (step.child? v).bind (valueAt? steps)

def Step.name : Step → String
  | .key name => name
  | .item _ => "*"

/-- `w` lies at a location of `v` under names that are neither sensitive nor secret-bearing, and no
bound of a mapping or a list drops it on the way. -/
inductive Reaches (P : Platform) : Json → List Step → Json → Prop
  | here (v : Json) : Reaches P v [] v
  | key {entries : Entries} {name : String} {v w : Json} {steps : List Step}
      (mem : (name, v) ∈ (keptEntries entries).1) (openName : OpenName name)
      (plain : mappingNameIsSecretBearing P name = false)
      (unmarked : (keptEntries entries).2 = true → name ≠ "_truncated") (rest : Reaches P v steps w) :
      Reaches P (.obj entries) (.key name :: steps) w
  | item {items : List Json} {index : ℕ} {v w : Json} {steps : List Step}
      (get : (keptItems items).1[index]? = some v) (rest : Reaches P v steps w) :
      Reaches P (.arr items) (.item index :: steps) w

section

variable {P : Platform} {limits : StringLimits}

/-- An entry that a mapping keeps under its own name is redacted in its place. -/
theorem find_redactEventMapping_of_mem {entries : Entries} (hnodup : (entries.map Prod.fst).Nodup)
    {name : String} {v : Json} (hmem : (name, v) ∈ (keptEntries entries).1)
    (hplain : mappingNameIsSecretBearing P name = false)
    (hmark : (keptEntries entries).2 = true → name ≠ "_truncated")
    (child : String → List String → Json → Json) (path : List String) :
    Json.find (redactEventMapping P child path entries) name =
      some (child name (path ++ [name]) v) := by
  have hbounded : ((redactEventMapping P child path entries).map Prod.fst).Nodup :=
    (TextRules.boundedMapping_redactMapping (lawful_eventRules P) hnodup).nodup
  rw [Json.find_eq_some_iff hbounded, redactEventMapping_eq_rules,
    TextRules.redactMapping_eq child path hnodup, List.mem_append]
  left
  have hsnd : (name, v) ∈ ((eventRules P []).persistedEntries P (keptEntries entries).1).map
      Prod.snd := by
    rwa [TextRules.map_snd_persistedEntries, List.mem_insertionSort]
  obtain ⟨d, hd, hdv⟩ := List.mem_map.mp hsnd
  have hname : d.1 = name := by
    rcases TextRules.persists_of_mem hd with ⟨_, heq⟩ | ⟨hsecret, _⟩
    · rw [heq, hdv]
    · have hsecret' : mappingNameIsSecretBearing P name = true := by rwa [hdv] at hsecret
      rw [hplain] at hsecret'
      cases hsecret'
  refine List.mem_map.mpr ⟨d, hd, ?_⟩
  rw [TextRules.persistedValue, if_neg (fun h => hmark h.1 (hname.symm.trans h.2)), hname, hdv]

theorem getElem?_redactEventSequence {items : List Json} {index : ℕ} {v : Json}
    (hget : (keptItems items).1[index]? = some v) (child : String → List String → Json → Json)
    (key : String) (path : List String) :
    (redactEventSequence child key path items)[index]? = some (child key (path ++ ["*"]) v) := by
  have hlt : index < (keptItems items).1.length := (List.getElem?_eq_some_iff.mp hget).1
  rw [redactEventSequence, List.getElem?_append_left (by rwa [List.length_map]), List.getElem?_map,
    hget, Option.map_some]

/-- Redaction reaches a value by its location, with a bound that goes by the names on the way. -/
theorem valueAt?_redactLevels {v w : Json} {steps : List Step} (h : Reaches P v steps w)
    (hwf : v.wellFormed = true) {levels : ℕ} (hdepth : steps.length ≤ levels) {key : String}
    (hkey : OpenName key) (path : List String) :
    ∃ key', OpenName key' ∧ valueAt? steps (redactLevels P limits levels key path v) =
      some (redactLevels P limits (levels - steps.length) key' (path ++ steps.map Step.name) w) := by
  induction h generalizing levels key path with
  | here v => exact ⟨key, hkey, by rw [valueAt?, List.map_nil, List.append_nil]; rfl⟩
  | @key entries name v w steps hmem hopen hplain hmark _ ih =>
    obtain ⟨hnodup, hvalues⟩ := Json.wellFormed_obj_iff.mp hwf
    obtain ⟨levels, rfl⟩ : ∃ n, levels = n + 1 := ⟨levels - 1, by rw [List.length_cons] at hdepth; omega⟩
    have hobj : redactLevels P limits (levels + 1) key path (.obj entries) =
        .obj (redactEventMapping P (redactLevels P limits levels) path entries) := by
      simp [redactLevels, redactLevel, hkey.sensitive, hkey.unruled]
    have hchild := find_redactEventMapping_of_mem hnodup hmem hplain hmark
      (redactLevels P limits levels) path
    obtain ⟨key', hkey', hat⟩ := ih (hvalues _ ((keptEntries_sublist entries).subset hmem))
      (Nat.le_of_succ_le_succ hdepth) hopen (path ++ [name])
    refine ⟨key', hkey', ?_⟩
    rw [hobj, valueAt?, Step.child?, hchild, Option.bind_some, hat, List.length_cons,
      Nat.succ_sub_succ, List.append_assoc]
    rfl
  | @item items index v w steps hget _ ih =>
    have hvalues := Json.wellFormed_arr_iff.mp hwf
    obtain ⟨levels, rfl⟩ : ∃ n, levels = n + 1 := ⟨levels - 1, by rw [List.length_cons] at hdepth; omega⟩
    have harr : redactLevels P limits (levels + 1) key path (.arr items) =
        .arr (redactEventSequence (redactLevels P limits levels) key path items) := by
      simp [redactLevels, redactLevel, hkey.sensitive, hkey.unruled]
    have hchild := getElem?_redactEventSequence hget (redactLevels P limits levels) key path
    have hmem : v ∈ items := (keptItems_sublist items).subset (List.mem_of_getElem? hget)
    obtain ⟨key', hkey', hat⟩ := ih (hvalues v hmem) (Nat.le_of_succ_le_succ hdepth) hkey
      (path ++ ["*"])
    refine ⟨key', hkey', ?_⟩
    rw [harr, valueAt?, Step.child?, hchild, Option.bind_some, hat, List.length_cons,
      Nat.succ_sub_succ, List.append_assoc]
    rfl

theorem ledgerResult_eq_redactLevels (limits : StringLimits) (result : Entries) :
    ledgerResult P limits result =
      redactLevels P (underResult limits) maxRedactionDepth "result" ["result"] (.obj result) := by
  rw [ledgerResult, valueOf, find_redactEventData (plainMapping_result result)]
  rfl

theorem limitAt_underResult_cons (limits : StringLimits) (path : List String) :
    limitAt (underResult limits) ("result" :: path) = limitAt limits path := by
  have hfind : (underResult limits).find? (fun l => l.1 == "result" :: path) =
      (limits.find? (fun l => l.1 == path)).map (fun l => ("result" :: l.1, l.2)) := by
    rw [underResult, List.find?_map]
    rfl
  rw [limitAt, limitAt, hfind, Option.map_map]
  rfl

/-- A string of a result is stored at its location, redacted with the limit of its path. -/
theorem valueAt?_ledgerResult {result : Entries} (hwf : (Json.obj result).wellFormed = true)
    {steps : List Step} {s : String} (h : Reaches P (.obj result) steps (.str s))
    (hdepth : steps.length ≤ maxRedactionDepth) :
    valueAt? steps (ledgerResult P limits result) =
      some (.str (String.ofList (redactBounded P.word
        (boundText (limitAt limits (steps.map Step.name))) s.toList))) := by
  have hopen : OpenName "result" := openName_of_mem (by simp [eventFieldNames])
  obtain ⟨key, hkey, hat⟩ := @valueAt?_redactLevels P (underResult limits) _ _ _ h hwf _ hdepth _ hopen
    ["result"]
  rw [ledgerResult_eq_redactLevels, hat, redactLevels_str hkey, redactEventText,
    List.singleton_append, limitAt_underResult_cons]

end

/-! ## Wide fields -/

def WideAt (schema : Json) (path : List String) (length : ℕ) : Prop :=
  ∃ node ∈ nodesOf schema, node.1 = path ∧ Json.find node.2 "maxLength" = some (.int length) ∧
    maxEventStringLength < length

theorem wideLimit_eq_some_iff {node : List String × Entries} {path : List String} {length : ℕ} :
    wideLimit node = some (path, length) ↔ node.1 = path ∧
      Json.find node.2 "maxLength" = some (.int length) ∧ maxEventStringLength < length := by
  unfold wideLimit
  split
  · next n hn =>
    rw [hn]
    split_ifs with hlt
    · simp only [Option.some.injEq, Prod.mk.injEq, Json.int.injEq]
      constructor
      · rintro ⟨hpath, rfl⟩
        exact ⟨hpath, by omega, by omega⟩
      · rintro ⟨hpath, rfl, _⟩
        exact ⟨hpath, Int.toNat_natCast length⟩
    · simp only [Option.some.injEq, Json.int.injEq, false_iff, not_and]
      rintro _ rfl hlarge
      exact hlt (by exact_mod_cast hlarge)
  · next hnone =>
    simp only [reduceCtorEq, false_iff, not_and]
    intro _ hn
    exact absurd hn (hnone _)

/-- The limit of a path with one declared length leaves room for the marker. -/
theorem limitAt_of_wideAt {schema : Json} (hwf : schema.wellFormed = true) {path : List String}
    {length : ℕ} (hwide : WideAt schema path length)
    (honly : ∀ other, WideAt schema path other → other = length) :
    limitAt (resultSchemaStringLimits schema) path = length - truncationMarker.length := by
  have hany : (resultSchemaStringLimits schema).any (fun l => l.1 == path) = true := by
    obtain ⟨node, hnode, hpath, hlength, hlt⟩ := hwide
    refine (any_resultSchemaStringLimits hwf path).mpr ⟨node, hnode, hpath, ?_⟩
    rw [← wideLimit_isSome, wideLimit_eq_some_iff.mpr ⟨hpath, hlength, hlt⟩]
    rfl
  obtain ⟨l, hl⟩ := Option.isSome_iff_exists.mp (List.find?_isSome.mpr (List.any_eq_true.mp hany))
  have hpath : l.1 = path := by simpa using List.find?_some hl
  obtain ⟨node, hnode, m, hm, hmpath, hlimit⟩ :=
    (mem_resultSchemaStringLimits hwf l.1 l.2).mp (List.mem_of_find?_eq_some hl)
  have hsame := honly m.2 ⟨node, hnode, wideLimit_eq_some_iff.mp (hm.trans (by rw [← hpath, ← hmpath]))⟩
  rw [limitAt, hl, Option.map_some, Option.getD_some, ← hlimit, hsame]

/-- The only length declared for a path beyond the default bounds what is stored there, and a text
without secret content that leaves room for the marker is stored as it is. -/
theorem wide_field_stored (P : Platform) (schema : Json) (hschema : schema.wellFormed = true)
    (result : Entries) (hresult : (Json.obj result).wellFormed = true) (path : List String)
    (length : ℕ) (hwide : WideAt schema path length)
    (honly : ∀ other, WideAt schema path other → other = length) (steps : List Step)
    (hpath : steps.map Step.name = path) (hdepth : steps.length ≤ maxRedactionDepth) (s : String)
    (hreach : Reaches P (.obj result) steps (.str s)) :
    ∃ stored : String, valueAt? steps (ledgerResult P (resultSchemaStringLimits schema) result) =
        some (.str stored) ∧ stored.length ≤ length ∧
      (containsSecretText P.word s.toList = false → s.length ≤ length - truncationMarker.length →
        stored = s) := by
  have hlt : maxEventStringLength < length := by
    obtain ⟨_, _, _, _, hlt⟩ := hwide
    exact hlt
  have hmarker : truncationMarker.length = 14 := by decide
  have hlimit := limitAt_of_wideAt hschema hwide honly
  refine ⟨_, valueAt?_ledgerResult hresult hreach hdepth, ?_, fun hclean hfits => ?_⟩
  · rw [hpath, hlimit, String.length_ofList]
    refine length_redactBounded_le (fun text => ?_) (by simp only [maxEventStringLength] at hlt; omega) _
    unfold boundText
    split_ifs with hlong
    · rw [List.length_append, List.length_take, hmarker]
      simp only [maxEventStringLength] at hlt
      omega
    · omega
  · have hkept : redactSecretText P.word s.toList = s.toList := by
      simpa [containsSecretText] using hclean
    have hbound : boundText (length - truncationMarker.length) s.toList = s.toList := by
      rw [boundText, if_neg (by rw [String.length_toList]; omega)]
    rw [hpath, hlimit, redactBounded_of_kept hkept hbound, String.ofList_toList]

def fieldSchema (length : ℤ) : Json :=
  .obj [("properties", .obj [("a", .obj [("maxLength", .int length)])])]

theorem nodesOf_fieldSchema (length : ℤ) : nodesOf (fieldSchema length) =
    [([], [("properties", .obj [("a", .obj [("maxLength", .int length)])])]),
      (["a"], [("maxLength", .int length)])] := rfl

theorem wideAt_fieldSchema {length : ℕ} (h : maxEventStringLength < length) :
    WideAt (fieldSchema length) ["a"] length := by
  refine ⟨(["a"], [("maxLength", .int length)]), ?_, rfl, rfl, h⟩
  rw [nodesOf_fieldSchema]
  simp

theorem eq_of_wideAt_fieldSchema {length other : ℕ} (h : WideAt (fieldSchema length) ["a"] other) :
    other = length := by
  obtain ⟨node, hnode, hpath, hmax, _⟩ := h
  rw [nodesOf_fieldSchema] at hnode
  simp only [List.mem_cons, List.not_mem_nil, or_false] at hnode
  rcases hnode with rfl | rfl
  · cases hpath
  · have hint : Json.int length = .int other := Option.some.inj hmax
    exact_mod_cast (Json.int.inj hint).symm

theorem reaches_field (P : Platform) {name : String} (hname : OpenName name)
    (hplain : isPlainName name = true) (v : Json) :
    Reaches P (.obj [(name, v)]) [.key name] v :=
  .key List.mem_cons_self hname (mappingNameIsSecretBearing_of_plain P hplain)
    (fun h => absurd h (by simp [keptEntries, maxEventDictItems])) (.here v)

def letters (n : ℕ) : String := String.ofList (List.replicate n 'a')

theorem isPlainName_letters (n : ℕ) : isPlainName (letters n) = true := by
  rw [letters, isPlainName_ofList]
  simp [List.countP_replicate, isAssignment, isStructuralMark]

theorem length_letters (n : ℕ) : (letters n).length = n := by simp [letters]

theorem containsSecretText_letters (word : Char → Bool) (n : ℕ) :
    containsSecretText word (letters n).toList = false := by
  have hkept : redactSecretText word (letters n).toList = (letters n).toList :=
    redactBounded_of_plain (isPlainName_letters n) rfl
  simp [containsSecretText, hkept]

theorem wide_field_stored_letters : maxEventStringLength < (letters 4500).length ∧
    valueAt? [.key "a"] (ledgerResult default (resultSchemaStringLimits (fieldSchema (5000 : ℕ)))
      [("a", .str (letters 4500))]) = some (.str (letters 4500)) := by
  have hfield := @reaches_field default "a" (by decide +kernel) (by decide) (.str (letters 4500))
  obtain ⟨stored, hvalue, _, hkept⟩ := wide_field_stored default (fieldSchema (5000 : ℕ)) (by decide)
    [("a", .str (letters 4500))] (by decide) ["a"] 5000 (wideAt_fieldSchema (by decide))
    (fun _ h => eq_of_wideAt_fieldSchema h) [.key "a"] rfl (by decide) (letters 4500) hfield
  have hclean := containsSecretText_letters (default : Platform).word 4500
  have hfits : (letters 4500).length ≤ 5000 - truncationMarker.length := by
    rw [length_letters]
    decide
  refine ⟨by rw [length_letters]; decide, ?_⟩
  rw [hvalue, hkept hclean hfits]

/-- A text beyond its limit does not come out of redaction as it went in. -/
theorem redactBounded_letters_ne (word : Char → Bool) {n limit : ℕ} (hlimit : 47 ≤ limit)
    (hlong : limit < n) (hmarker : n ≠ limit + truncationMarker.length) :
    redactBounded word (boundText limit) (letters n).toList ≠ (letters n).toList := by
  have hlength : (letters n).toList.length = n := by rw [String.length_toList, length_letters]
  intro hsame
  have hcases := @redactBounded_cases word (boundText limit) (letters n).toList
  rw [hsame] at hcases
  rcases hcases with href | hredacted | hfixed
  · have hle := Rx.length_le_of_fullmatch most_nmsSecretReferenceRe href
    omega
  · have hten := congrArg List.length hredacted
    rw [hlength, show redactionMarker.length = 10 by decide] at hten
    omega
  · have hplain := isPlainName_letters n
    simp only [isPlainName, Bool.and_eq_true, beq_iff_eq, decide_eq_true_eq] at hplain
    rw [BaseFixed, redactSecretSpans_of_nil (secretSpans_of_no_assignment hplain.1.1 hplain.2),
      boundText, if_pos (by rw [hlength]; exact hlong)] at hfixed
    have hcut := congrArg List.length hfixed
    rw [List.length_append, List.length_take, hlength] at hcut
    omega

/-- A text without secret content and within the declared length is cut when it leaves no room for
the marker. A property named like the items of a list is stored with their length. -/
theorem wide_field_not_faithful :
    (WideAt (fieldSchema (5000 : ℕ)) ["a"] 5000 ∧
      Reaches default (.obj [("a", .str (letters 4990))]) [.key "a"] (.str (letters 4990)) ∧
      containsSecretText (default : Platform).word (letters 4990).toList = false ∧
      (letters 4990).length ≤ 5000 ∧
      valueAt? [.key "a"] (ledgerResult default (resultSchemaStringLimits (fieldSchema (5000 : ℕ)))
        [("a", .str (letters 4990))]) ≠ some (.str (letters 4990))) ∧
    (WideAt (starSchema 6000) ["*"] 5000 ∧
      Reaches default (.obj [("*", .str (letters 5001))]) [.key "*"] (.str (letters 5001)) ∧
      ∃ stored : String, valueAt? [.key "*"] (ledgerResult default
        (resultSchemaStringLimits (starSchema 6000)) [("*", .str (letters 5001))]) =
          some (.str stored) ∧ 5000 < stored.length) := by
  have hfield := @reaches_field default "a" (by decide +kernel) (by decide) (.str (letters 4990))
  have hstar := @reaches_field default "*" (by decide +kernel) (by decide) (.str (letters 5001))
  have hlimit : limitAt (resultSchemaStringLimits (fieldSchema (5000 : ℕ))) ["a"] = 4986 := by
    decide +kernel
  have hshared : limitAt (resultSchemaStringLimits (starSchema 6000)) ["*"] = 5986 := by
    decide +kernel
  refine ⟨⟨wideAt_fieldSchema (by decide), hfield, containsSecretText_letters _ _, ?_, ?_⟩,
    ⟨?_, hstar, letters 5001, ?_, ?_⟩⟩
  · rw [length_letters]
    decide
  · rw [valueAt?_ledgerResult (by decide) hfield (by decide)]
    change some (Json.str (String.ofList (redactBounded _ (boundText (limitAt _ ["a"])) _))) ≠ _
    rw [hlimit]
    intro hsame
    have hstr := congrArg String.toList (Json.str.inj (Option.some.inj hsame))
    rw [String.toList_ofList] at hstr
    exact redactBounded_letters_ne _ (by decide) (by decide) (by decide) hstr
  · exact ⟨(["*"], [("maxLength", .int 5000)]), by decide +kernel, rfl, rfl, by decide⟩
  · have hbound : boundText 5986 (letters 5001).toList = (letters 5001).toList := by
      rw [boundText, String.length_toList, length_letters, if_neg (by decide)]
    rw [valueAt?_ledgerResult (by decide) hstar (by decide)]
    change some (Json.str (String.ofList (redactBounded _ (boundText (limitAt _ ["*"])) _))) = _
    rw [hshared, redactBounded_of_plain (isPlainName_letters 5001) hbound, String.ofList_toList]
  · rw [length_letters]
    decide

end NetboxRpc
