import NetboxRpc.CanonicalParameters

/-!
# Trees over a text redactor

Redaction of a tree with the text redactor left open. Where the redactor settles in one pass and
keeps what the tree stage writes and passes through, a second pass over a tree changes nothing but
the order of its keys.
-/

namespace NetboxRpc

/-- A redactor of persisted texts, and the one that decides which mapping names are secret. -/
structure TextRedactor where
  text : String → String
  name : String → String

namespace TextRedactor

def rules (T : TextRedactor) : TextRules where
  text := fun _ => T.text
  secretName := fun name => T.name name != name

def redactTree (T : TextRedactor) (P : Platform) (v : Json) : Json :=
  T.rules.levels P (maxRedactionDepth + 1) "" [] v

def ledger (P : Platform) : TextRedactor where
  text := redactEventText P [] []
  name := fun name => String.ofList (redactSecretText P.word name.toList)

/-- With no string limits the bound of a text does not depend on its path. -/
theorem redactTree_ledger (P : Platform) (v : Json) :
    (ledger P).redactTree P v = redactEventValue P [] v := by
  have hname : ∀ name : String,
      (String.ofList (redactSecretText P.word name.toList) != name) =
        mappingNameIsSecretBearing P name := by
    intro name
    rw [Bool.eq_iff_iff, mappingNameIsSecretBearing, containsSecretText, bne_iff_ne, bne_iff_ne,
      not_iff_not]
    constructor
    · intro h
      rw [← String.toList_ofList (l := redactSecretText P.word name.toList), h]
    · intro h
      rw [h, String.ofList_toList]
  have hrules : (ledger P).rules = eventRules P [] := by
    unfold rules eventRules
    congr 1
    exact funext hname
  rw [redactTree, hrules, levels_eventRules, redactEventValue]

structure Settles (T : TextRedactor) (P : Platform) : Prop where
  text_text : ∀ s, T.text (T.text s) = T.text s
  text_redacted : T.text "[REDACTED]" = "[REDACTED]"
  text_truncated : T.text "[truncated]" = "[truncated]"
  name_placeholder : ∀ name n, T.name (numbered (keyedMappingName P name) n) =
    numbered (keyedMappingName P name) n

structure KeepsPublic (T : TextRedactor) : Prop where
  text_reference : ∀ s, isVaultedSecretReference (.str s) = true → T.text s = s
  name_references : T.name "credential_references" = "credential_references"
  name_authority : T.name "credential_authority_sha256" = "credential_authority_sha256"
  name_policy : T.name "credential_policy_ref" = "credential_policy_ref"

variable {T : TextRedactor} {P : Platform}

theorem lawful_rules (hsettles : T.Settles P) (hpublic : T.KeepsPublic) : T.rules.Lawful P where
  placeholder name n := by simp [rules, hsettles.name_placeholder]
  references := by simp [rules, hpublic.name_references]
  authority := by simp [rules, hpublic.name_authority]
  policy := by simp [rules, hpublic.name_policy]
  text_redacted _ := hsettles.text_redacted
  text_truncated _ := hsettles.text_truncated
  text_reference _ s h := hpublic.text_reference s h
  text_path _ _ _ := rfl

/-- Where every text is settled, every tree is. -/
theorem settledLevels_of_forall (n : ℕ) (key : String) (path : List String) (v : Json) :
    TextRules.settledLevels (fun _ _ => true) n key path v = true := by
  have hlevel : ∀ (child : Option (String → List String → Json → Bool)),
      (∀ c, child = some c → ∀ key path v, c key path v = true) →
      ∀ key path v, TextRules.settledLevel (fun _ _ => true) child key path v = true := by
    intro child hchild key path v
    unfold TextRules.settledLevel
    split_ifs
    · rfl
    cases child with
    | none => cases v <;> rfl
    | some c =>
      have hc := hchild c rfl
      cases v with
      | obj entries => exact List.all_eq_true.mpr (fun e _ => by simp [hc])
      | arr items => exact List.all_eq_true.mpr (fun w _ => hc _ _ w)
      | null | bool b | int n | float q | str s => rfl
  induction n generalizing key path v with
  | zero => exact hlevel none (by simp) key path v
  | succ n ih =>
    refine hlevel _ (fun c hc => ?_) key path v
    obtain rfl := Option.some.inj hc
    exact ih

/-- Redacting a tree twice is redacting it once, up to the order of keys. -/
theorem redact_tree_twice (hP : P.Implements referenceSchema) (hsettles : T.Settles P)
    (hpublic : T.KeepsPublic) (v : Json) (hwf : v.wellFormed = true) :
    Json.KeyEq (T.redactTree P (T.redactTree P v)) (T.redactTree P v) := by
  have hstored : T.rules.storedLevels P (maxRedactionDepth + 1) "" [] (T.redactTree P v) :=
    TextRules.storedLevels_levels hP (lawful_rules hsettles hpublic)
      (fun _ s _ => hsettles.text_text s) (.inr settledLevels_of_forall) (.refl _) .nil hwf
      (settledLevels_of_forall _ _ _ _)
  exact TextRules.keyEq_levels hstored

def keepAll : TextRedactor := ⟨id, id⟩

theorem redact_tree_twice_keepAll :
    keepAll.Settles default ∧ keepAll.KeepsPublic ∧
      (Json.obj [("password", .str "a"), ("b", .arr [.null])]).wellFormed = true ∧
      Json.KeyEq (keepAll.redactTree default (keepAll.redactTree default
          (.obj [("password", .str "a"), ("b", .arr [.null])])))
        (keepAll.redactTree default (.obj [("password", .str "a"), ("b", .arr [.null])])) := by
  have hsettles : keepAll.Settles default := ⟨fun _ => rfl, rfl, rfl, fun _ _ => rfl⟩
  have hpublic : keepAll.KeepsPublic := ⟨fun _ _ => rfl, rfl, rfl, rfl⟩
  exact ⟨hsettles, hpublic, by decide,
    redact_tree_twice (implements_default _) hsettles hpublic _ (by decide)⟩

/-! ## A redactor that masks references -/

def referenceText : String := "nms-secret:00000000-0000-4000-8000-000000000000"

def maskReference (s : String) : String :=
  if s = referenceText ∨ s = "auth=x" then "[REDACTED]" else s

def maskingRedactor : TextRedactor := ⟨maskReference, maskReference⟩

theorem settles_maskingRedactor (P : Platform) : maskingRedactor.Settles P where
  text_text s := by
    show maskReference (maskReference s) = maskReference s
    by_cases h : s = referenceText ∨ s = "auth=x"
    · have hmask : maskReference s = "[REDACTED]" := if_pos h
      rw [hmask]
      decide
    · have hkeep : maskReference s = s := if_neg h
      rw [hkeep, hkeep]
  text_redacted := by decide
  text_truncated := by decide
  name_placeholder name n := by
    show maskReference _ = _
    refine if_neg (fun h => ?_)
    have hstart : (numbered (keyedMappingName P name) n).toList.head? = some '[' := by
      unfold numbered keyedMappingName
      split_ifs <;> simp
    rcases h with h | h <;> rw [h] at hstart <;> exact absurd hstart (by decide)

/-- The reference passes under its sensitive name, which is stored as a placeholder; under the
placeholder a second pass masks it. -/
theorem reference_masked_by_second_pass :
    maskingRedactor.Settles default ∧
      (Json.obj [("auth=x", .str referenceText)]).wellFormed = true ∧
      ¬ Json.KeyEq (maskingRedactor.redactTree default (maskingRedactor.redactTree default
          (.obj [("auth=x", .str referenceText)])))
        (maskingRedactor.redactTree default (.obj [("auth=x", .str referenceText)])) := by
  refine ⟨settles_maskingRedactor default, by decide, ?_⟩
  unfold Json.KeyEq
  decide +kernel

end TextRedactor

end NetboxRpc
