import NetboxRpc.Approval
import NetboxRpc.GraphSearch
import NetboxRpc.ScopeFence

/-!
# The decoded-key guard of Akvorado configurations

`_normalize_akvorado_content` refuses a configuration whose raw text looks like a secret and then
walks the objects that `yaml.safe_load` builds from it, looking at the keys of every mapping. The
loader builds dictionaries, lists and scalars, and for the standard tags `!!omap`, `!!pairs` and
`!!set` also tuples and sets; anchors make objects shared or cyclic.
-/

namespace NetboxRpc

open Regex GraphSearch

/-! ## What the loader builds -/

inductive YamlObject (ι : Type)
  | scalar
  | dict (items : List (ι × ι))
  | list (items : List ι)
  /-- A key/value tuple of an ordered map or of a list of pairs. -/
  | pair (key value : ι)
  | set (members : List ι)
deriving DecidableEq

namespace YamlObject

variable {ι : Type}

def keys : YamlObject ι → List ι
  | .dict items => items.map Prod.fst
  | .pair key _ => [key]
  | .set members => members
  | _ => []

def children : YamlObject ι → List ι
  | .scalar => []
  | .dict items => items.map Prod.fst ++ items.map Prod.snd
  | .list items => items
  | .pair key value => [key, value]
  | .set members => members

def hashed : YamlObject ι → List ι
  | .dict items => items.map Prod.fst
  | .set members => members
  | _ => []

def isPairOrSet : YamlObject ι → Bool
  | .pair _ _ | .set _ => true
  | _ => false

end YamlObject

/-- A loaded document: its objects by identity, with `str` of each. -/
structure YamlDocument where
  size : ℕ
  object : Fin size → YamlObject (Fin size)
  str : Fin size → String
  root : Fin size
  /-- The loader refuses a container as a key of a dictionary or a member of a set. -/
  hashable : ∀ i, ∀ k ∈ (object i).hashed, object k = .scalar

namespace YamlDocument

variable (doc : YamlDocument)

def Holds (u v : Fin doc.size) : Prop := v ∈ (doc.object u).children

def Occurs (u : Fin doc.size) : Prop := Relation.ReflTransGen doc.Holds doc.root u

def MappingKey (k : Fin doc.size) : Prop := ∃ u, doc.Occurs u ∧ k ∈ (doc.object u).keys

/-- `k` is a mapping key in a tuple or a set of the document, or anywhere below one. -/
def KeyInPairs (k : Fin doc.size) : Prop :=
  ∃ p, doc.Occurs p ∧ (doc.object p).isPairOrSet = true ∧
    ∃ u, Relation.ReflTransGen doc.Holds p u ∧ k ∈ (doc.object u).keys

end YamlDocument

/-! ## The guard -/

def akvoradoMaxContentLen : ℕ := 1024 * 1024

def akvoradoKeyFragment : Rx :=
  alts [lit "token", lit "password", lit "passphrase", lit "secret", lit "authorization",
    seqs [lit "api", (Rx.set (.oneOf ['-', '_'])).opt, lit "key"],
    seqs [lit "access", (Rx.set (.oneOf ['-', '_'])).opt, lit "key"],
    seqs [lit "private", (Rx.set (.oneOf ['-', '_'])).opt, lit "key"],
    lit "credential"]

def akvoradoSensitiveKeyRe : Rx := akvoradoKeyFragment.ignoreCase

def akvoradoSecretAssignmentRe : Rx :=
  Rx.ignoreCase (seqs [
    alts [.seq .lineStart blank.star, .seq (.set (.oneOf [',', '{'])) space.star,
      .seq (chr '-') space.plus],
    quote.opt, (Rx.set keyChars).star, akvoradoKeyFragment, (Rx.set keyChars).star, quote.opt,
    space.star, .set (.oneOf [':', '=']), space.star, quote.opt, blank.star,
    (Rx.set ⟨true, spaceRanges ++ [('"', '"'), ('\'', '\'')]⟩).plus])

def akvoradoBlockScalarSecretRe : Rx :=
  let indent := Rx.set ⟨false, [('1', '9')]⟩
  let chomp := Rx.set (.oneOf ['+', '-'])
  seqs [.lineStart, .group "indent" blank.star, quote.opt, (Rx.set keyChars).star,
    akvoradoKeyFragment, (Rx.set keyChars).star, quote.opt, space.star, chr ':', space.star,
    .set (.oneOf ['|', '>']), (alts [.seq indent chomp.opt, .seq chomp indent.opt]).opt,
    blank.star, comment.opt, .lineEnd,
    (Rx.seq (chr '\n') (alts [seqs [.backref "indent", blank, (Rx.set (.noneOf ['\n'])).star],
      .seq blank.star .lineEnd])).star]

def akvoradoPrivateKeyRe : Rx :=
  seqs [lit "-----BEGIN ", (Rx.set ⟨false, [('A', 'Z'), (' ', ' ')]⟩).star, lit "PRIVATE KEY-----"]

def akvoradoUrlCredentialRe (word : Char → Bool) : Rx :=
  Rx.ignoreCase (seqs [.wordBoundary word, .set ⟨false, [('a', 'z')]⟩,
    (Rx.set ⟨false, [('a', 'z'), ('0', '9'), ('+', '+'), ('.', '.'), ('-', '-')]⟩).star, lit "://",
    (Rx.set ⟨true, spaceRanges ++ [('/', '/'), (':', ':'), ('@', '@')]⟩).plus, chr ':',
    (Rx.set ⟨true, spaceRanges ++ [('/', '/'), ('@', '@')]⟩).plus, chr '@'])

def akvoradoSecretPatterns (word : Char → Bool) : List Rx :=
  [akvoradoPrivateKeyRe, akvoradoSecretAssignmentRe, akvoradoBlockScalarSecretRe,
    authorizationRe word, akvoradoUrlCredentialRe word]

def akvoradoUnsafeCodepoint (c : Char) : Bool :=
  (decide (c.toNat < 32) && !(['\t', '\n', '\r'].contains c)) ||
    (decide (127 ≤ c.toNat) && decide (c.toNat ≤ 159)) ||
    (decide (0xd800 ≤ c.toNat) && decide (c.toNat ≤ 0xdfff))

def akvoradoSensitiveKey (key : String) : Bool :=
  (akvoradoSensitiveKeyRe.search key.toList 0).isSome

/-- What the walk tries in an object: the values of a dictionary, each after its key, or the items
of a list. It does not enter any other object. -/
def YamlDocument.entries (doc : YamlDocument) (u : Fin doc.size) :
    Option (List (Bool × Fin doc.size)) :=
  match doc.object u with
  | .dict items => some (items.map (fun d => (akvoradoSensitiveKey (doc.str d.1), d.2)))
  | .list items => some (items.map (fun item => (false, item)))
  | _ => none

/-- `_akvorado_has_sensitive_decoded_key` with its set of visited identities. -/
def akvoradoWalk (doc : YamlDocument) (fuel : ℕ) : Option (Bool × List (Fin doc.size)) :=
  search doc.entries fuel [] doc.root

def akvoradoHasSensitiveDecodedKey (doc : YamlDocument) : Bool :=
  (akvoradoWalk doc (doc.size + 1)).any Prod.fst

/-- `safeLoad` is `yaml.safe_load`, with `none` for a `yaml.YAMLError`. -/
def normalizeAkvoradoContent (P : Platform) (safeLoad : String → Option YamlDocument)
    (rawContent : Json) (fieldName : String) : Except RPCExecutionError String :=
  match rawContent with
  | .str content =>
    if strip content.toList = [] then
      .error ⟨fieldName ++ " must be a non-empty string.", "RPC_PARAM_INVALID"⟩
    else if akvoradoMaxContentLen < content.length then
      .error ⟨fieldName ++ " may contain at most " ++ toString akvoradoMaxContentLen ++
        " characters.", "RPC_PARAM_INVALID"⟩
    else if content.toList.any akvoradoUnsafeCodepoint then
      .error ⟨fieldName ++ " contains control characters unsafe for JSONB storage.",
        "RPC_PARAM_INVALID"⟩
    else if (akvoradoSecretPatterns P.word).any (fun r => (r.search content.toList 0).isSome) then
      .error ⟨fieldName ++
        " contains secret-shaped material; use an nms-secret reference instead.",
        "RPC_PARAM_SECRET_FORBIDDEN"⟩
    else match safeLoad content with
      -- The backend owns syntax diagnostics: malformed text passes with the raw-text checks only.
      | none => .ok content
      | some doc =>
        if akvoradoHasSensitiveDecodedKey doc then
          .error ⟨fieldName ++
            " contains secret-shaped material; use an nms-secret reference instead.",
            "RPC_PARAM_SECRET_FORBIDDEN"⟩
        else .ok content
  | _ => .error ⟨fieldName ++ " must be a non-empty string.", "RPC_PARAM_INVALID"⟩

theorem normalizeAkvoradoContent_ok {P : Platform} {safeLoad : String → Option YamlDocument}
    {rawContent : Json} {fieldName content : String}
    (h : normalizeAkvoradoContent P safeLoad rawContent fieldName = .ok content)
    {doc : YamlDocument} (hload : safeLoad content = some doc) :
    akvoradoHasSensitiveDecodedKey doc = false := by
  cases rawContent with
  | str raw =>
    rw [normalizeAkvoradoContent] at h
    split_ifs at h
    cases hraw : safeLoad raw with
    | none =>
      simp only [hraw, Except.ok.injEq] at h
      rw [h, hload] at hraw
      cases hraw
    | some other =>
      simp only [hraw] at h
      split_ifs at h with hwalk
      rw [Except.ok.inj h, hload] at hraw
      cases hraw
      exact Bool.eq_false_iff.mpr hwalk
  | _ => simp [normalizeAkvoradoContent] at h

/-! ## What the walk sees -/

namespace YamlDocument

variable {doc : YamlDocument}

theorem edge_of_mem_dict {u v : Fin doc.size} {items : List (Fin doc.size × Fin doc.size)}
    (hu : doc.object u = .dict items) (hv : v ∈ items.map Prod.snd) : Edge doc.entries u v := by
  obtain ⟨d, hd, hdv⟩ := List.mem_map.mp hv
  have hentries : doc.entries u =
      some (items.map (fun d => (akvoradoSensitiveKey (doc.str d.1), d.2))) := by
    rw [entries, hu]
  refine ⟨_, hentries, akvoradoSensitiveKey (doc.str d.1), ?_⟩
  rw [← hdv]
  exact List.mem_map_of_mem hd

theorem edge_of_mem_list {u v : Fin doc.size} {items : List (Fin doc.size)}
    (hu : doc.object u = .list items) (hv : v ∈ items) : Edge doc.entries u v :=
  ⟨items.map (fun item => (false, item)), by simp [entries, hu], false,
    List.mem_map.mpr ⟨v, hv, rfl⟩⟩

/-- An object of the document is entered by the walk, stands in a tuple or a set or below one, or
is a scalar. -/
theorem entered_or_in_pairs {u : Fin doc.size} (hu : doc.Occurs u) :
    Reaches doc.entries doc.root u ∨
      (∃ p, doc.Occurs p ∧ (doc.object p).isPairOrSet = true ∧
        Relation.ReflTransGen doc.Holds p u) ∨
      doc.object u = .scalar := by
  induction hu with
  | refl => exact .inl .refl
  | @tail b c hb hstep ih =>
    rcases ih with hreach | ⟨p, hp, hpair, hbelow⟩ | hscalar
    · -- The walk is at `b`; whether it enters `c` depends on what `b` is.
      cases hobj : doc.object b with
      | scalar => simp [Holds, hobj, YamlObject.children] at hstep
      | dict items =>
        simp only [Holds, hobj, YamlObject.children, List.mem_append] at hstep
        rcases hstep with hkey | hvalue
        · exact .inr (.inr (doc.hashable b c (by simpa [hobj, YamlObject.hashed] using hkey)))
        · exact .inl (hreach.tail (edge_of_mem_dict hobj hvalue))
      | list items =>
        simp only [Holds, hobj, YamlObject.children] at hstep
        exact .inl (hreach.tail (edge_of_mem_list hobj hstep))
      | pair key value => exact .inr (.inl ⟨b, hb, by simp [hobj, YamlObject.isPairOrSet],
          .single hstep⟩)
      | set members => exact .inr (.inl ⟨b, hb, by simp [hobj, YamlObject.isPairOrSet],
          .single hstep⟩)
    · exact .inr (.inl ⟨p, hp, hpair, hbelow.tail hstep⟩)
    · simp [Holds, hscalar, YamlObject.children] at hstep

/-- A mapping key either flags an object that the walk enters, or stands in a tuple or a set or
below one. -/
theorem flagged_or_keyInPairs {k : Fin doc.size} (hk : doc.MappingKey k)
    (hsensitive : akvoradoSensitiveKey (doc.str k) = true) :
    (∃ u, Reaches doc.entries doc.root u ∧ Flagged doc.entries u) ∨ doc.KeyInPairs k := by
  obtain ⟨u, hu, hkey⟩ := hk
  rcases entered_or_in_pairs hu with hreach | ⟨p, hp, hpair, hbelow⟩ | hscalar
  · cases hobj : doc.object u with
    | scalar => simp [hobj, YamlObject.keys] at hkey
    | list items => simp [hobj, YamlObject.keys] at hkey
    | dict items =>
      simp only [hobj, YamlObject.keys, List.mem_map] at hkey
      obtain ⟨d, hd, rfl⟩ := hkey
      refine .inl ⟨u, hreach, _, by simp only [entries, hobj]; rfl, d.2, ?_⟩
      exact List.mem_map.mpr ⟨d, hd, by rw [hsensitive]⟩
    | pair key value => exact .inr ⟨u, hu, by simp [hobj, YamlObject.isPairOrSet], u, .refl, hkey⟩
    | set members => exact .inr ⟨u, hu, by simp [hobj, YamlObject.isPairOrSet], u, .refl, hkey⟩
  · exact .inr ⟨p, hp, hpair, u, hbelow, hkey⟩
  · simp [hscalar, YamlObject.keys] at hkey

theorem KeyInPairs.mappingKey {k : Fin doc.size} (hk : doc.KeyInPairs k) : doc.MappingKey k := by
  obtain ⟨p, hp, _, u, hbelow, hkey⟩ := hk
  exact ⟨u, Relation.ReflTransGen.trans hp hbelow, hkey⟩

end YamlDocument

theorem akvoradoWalk_isSome (doc : YamlDocument) {fuel : ℕ} (h : doc.size < fuel) :
    (akvoradoWalk doc fuel).isSome = true := by
  have hcard : unseen ([] : List (Fin doc.size)) < fuel := by simpa [unseen] using h
  exact search_isSome hcard doc.root

theorem not_flagged_of_akvoradoHasSensitiveDecodedKey {doc : YamlDocument}
    (h : akvoradoHasSensitiveDecodedKey doc = false) {u : Fin doc.size}
    (hu : Reaches doc.entries doc.root u) : ¬ Flagged doc.entries u := by
  obtain ⟨⟨verdict, after⟩, hwalk⟩ :=
    Option.isSome_iff_exists.mp (akvoradoWalk_isSome doc (Nat.lt_succ_self doc.size))
  have hverdict : verdict = false := by
    rw [akvoradoHasSensitiveDecodedKey, hwalk] at h
    simpa using h
  subst hverdict
  exact not_flagged_of_search hwalk hu

/-- The walk ends on every document, cyclic or not, and an accepted configuration has no sensitive
mapping key at all exactly when it has none in a tuple or a set or below one: those are the objects
that the walk does not enter. -/
theorem accepted_keys_iff (P : Platform) (safeLoad : String → Option YamlDocument)
    (rawContent : Json) (fieldName content : String) (doc : YamlDocument)
    (haccepted : normalizeAkvoradoContent P safeLoad rawContent fieldName = .ok content)
    (hload : safeLoad content = some doc) :
    (∀ fuel, doc.size < fuel → (akvoradoWalk doc fuel).isSome = true) ∧
      ((∀ k, doc.MappingKey k → akvoradoSensitiveKey (doc.str k) = false) ↔
        ∀ k, doc.KeyInPairs k → akvoradoSensitiveKey (doc.str k) = false) := by
  refine ⟨fun fuel hfuel => akvoradoWalk_isSome doc hfuel,
    fun hall k hk => hall k hk.mappingKey, fun hpairs k hk => ?_⟩
  have hwalk := normalizeAkvoradoContent_ok haccepted hload
  by_contra hsensitive
  rw [Bool.not_eq_false] at hsensitive
  rcases YamlDocument.flagged_or_keyInPairs hk hsensitive with ⟨u, hreach, hflag⟩ | hin
  · exact not_flagged_of_akvoradoHasSensitiveDecodedKey hwalk hreach hflag
  · rw [hpairs k hin] at hsensitive
    cases hsensitive

def cyclicContent : String := "&a \x7bnext: *a, users: !!pairs [name: x]\x7d"

def cyclicDocument : YamlDocument where
  size := 7
  object := fun
    | 0 => .dict [(1, 0), (2, 3)]
    | 3 => .list [4]
    | 4 => .pair 5 6
    | _ => .scalar
  str := fun
    | 0 => "\x7b'next': \x7b...\x7d, 'users': [('name', 'x')]\x7d"
    | 1 => "next"
    | 2 => "users"
    | 3 => "[('name', 'x')]"
    | 4 => "('name', 'x')"
    | 5 => "name"
    | _ => "x"
  root := 0
  hashable := by decide

theorem cyclicDocument_accepted :
    normalizeAkvoradoContent default (fun _ => some cyclicDocument) (.str cyclicContent)
      "config_content" = .ok cyclicContent := by
  decide +kernel

theorem accepted_keys_iff_cyclic :
    (∀ fuel, 7 < fuel → (akvoradoWalk cyclicDocument fuel).isSome = true) ∧
      (∀ k, cyclicDocument.MappingKey k →
        akvoradoSensitiveKey (cyclicDocument.str k) = false) := by
  obtain ⟨hends, hkeys⟩ := accepted_keys_iff default (fun _ => some cyclicDocument)
    (.str cyclicContent) "config_content" cyclicContent cyclicDocument cyclicDocument_accepted rfl
  have hplain : ∀ k : Fin cyclicDocument.size,
      akvoradoSensitiveKey (cyclicDocument.str k) = false := by
    decide +kernel
  exact ⟨hends, hkeys.mpr fun k _ => hplain k⟩

def pairsDocument : YamlDocument where
  size := 6
  object := fun
    | 0 => .dict [(1, 2)]
    | 2 => .list [3]
    | 3 => .pair 4 5
    | _ => .scalar
  str := fun
    | 0 => "\x7b'a': [('password', 'x')]\x7d"
    | 1 => "a"
    | 2 => "[('password', 'x')]"
    | 3 => "('password', 'x')"
    | 4 => "password"
    | _ => "x"
  root := 0
  hashable := by decide

def pairsObject (n : Fin 6) : Fin pairsDocument.size := n

/-- A list of pairs with the key `password` is accepted. -/
theorem sensitive_pair_accepted :
    normalizeAkvoradoContent default (fun _ => some pairsDocument)
        (.str "a: !!pairs [password: x]") "config_content" = .ok "a: !!pairs [password: x]" ∧
      pairsDocument.MappingKey (pairsObject 4) ∧ pairsDocument.str (pairsObject 4) = "password" ∧
      akvoradoSensitiveKey "password" = true := by
  have hlist : pairsDocument.Holds (pairsObject 0) (pairsObject 2) := by
    change (2 : Fin 6) ∈ [(1 : Fin 6), 2]
    decide
  have hpair : pairsDocument.Holds (pairsObject 2) (pairsObject 3) := by
    change (3 : Fin 6) ∈ [(3 : Fin 6)]
    decide
  have hkey : pairsObject 4 ∈ (pairsDocument.object (pairsObject 3)).keys := by
    change (4 : Fin 6) ∈ [(4 : Fin 6)]
    decide
  have hoccurs : pairsDocument.Occurs (pairsObject 3) :=
    (Relation.ReflTransGen.single hlist).tail hpair
  exact ⟨by decide +kernel, ⟨pairsObject 3, hoccurs, hkey⟩, rfl, by decide +kernel⟩

end NetboxRpc
