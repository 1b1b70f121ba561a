import NetboxRpc.SecretSurvival

/-!
# Private key blocks

The body of a complete private key block does not survive, unless a match that starts before the
block ends inside it and nothing else covers the rest.
-/

namespace NetboxRpc

open Regex

/-- A label that names a private key and is short enough for a block with an end line. -/
structure PrivateKeyLabel where
  text : Text
  length_pos : 1 ≤ text.length
  length_le : text.length ≤ 128
  chars : ∀ c ∈ text, pemLabel.mem c = true
  privateKey : "PRIVATE KEY".toList <:+: text

namespace PrivateKeyLabel

def beginLine (label : PrivateKeyLabel) : Text :=
  "-----BEGIN ".toList ++ label.text ++ "-----".toList

def endLine (label : PrivateKeyLabel) : Text :=
  "-----END ".toList ++ label.text ++ "-----".toList

theorem beginLine_append (label : PrivateKeyLabel) (after : Text) :
    label.beginLine ++ after = "-----BEGIN ".toList ++ (label.text ++ ("-----".toList ++ after)) := by
  change "-----BEGIN ".toList ++ label.text ++ "-----".toList ++ after = _
  simp only [List.append_assoc]

theorem endLine_append (label : PrivateKeyLabel) (after : Text) :
    label.endLine ++ after = "-----END ".toList ++ (label.text ++ ("-----".toList ++ after)) := by
  change "-----END ".toList ++ label.text ++ "-----".toList ++ after = _
  simp only [List.append_assoc]

theorem length_beginLine (label : PrivateKeyLabel) : label.beginLine.length =
    "-----BEGIN ".toList.length + label.text.length + "-----".toList.length := by
  change ("-----BEGIN ".toList ++ label.text ++ "-----".toList).length = _
  simp only [List.length_append]

theorem length_endLine (label : PrivateKeyLabel) : label.endLine.length =
    "-----END ".toList.length + (label.text.length + "-----".toList.length) := by
  change ("-----END ".toList ++ label.text ++ "-----".toList).length = _
  simp only [List.length_append, Nat.add_assoc]

end PrivateKeyLabel

section

variable (label : PrivateKeyLabel) {body after : Text} {s : State}

/-! ## The begin line -/

theorem run_holdsPrivateKey (h : s.rest = label.text ++ after) : holdsPrivateKey.run s = [s] := by
  obtain ⟨a, z, haz⟩ := label.privateKey
  have hrest : s.rest = a ++ ("PRIVATE KEY".toList ++ (z ++ after)) := by
    rw [h, ← haz]
    simp only [List.append_assoc]
  have hchars : ∀ c ∈ a, pemLabel.mem c = true := by
    intro c hc
    refine label.chars c ?_
    rw [← haz, List.append_assoc]
    exact List.mem_append_left _ hc
  have hreach : a.length ≤ pemLabel.reach s := by
    rw [CharSet.reach_append hrest hchars]
    exact Nat.le_add_right _ _
  have hlit := run_lit (State.rest_advance_append hrest)
  have hmem : (s.advance a.length).advance "PRIVATE KEY".toList.length ∈
      (Rx.seq (Rx.set pemLabel).starLazy (lit "PRIVATE KEY")).run s := by
    refine List.mem_flatMap.mpr ⟨_, advance_mem_run_rep_set (by decide) (Nat.zero_le _) hreach, ?_⟩
    rw [hlit]
    exact List.mem_singleton_self _
  rw [holdsPrivateKey, Rx.run, if_neg]
  rw [List.isEmpty_iff]
  exact List.ne_nil_of_mem hmem

def afterLabel (label : PrivateKeyLabel) (s : State) : State :=
  s.capture (s.advance label.text.length) "pem"

theorem run_pemGroup (h : s.rest = label.text ++ '-' :: after) :
    (Rx.group "pem" (.seq holdsPrivateKey (.rep .possessive 1 (some 128) (.set pemLabel)))).run s =
      [afterLabel label s] := by
  have hreach : pemLabel.reach s = label.text.length :=
    CharSet.reach_eq h label.chars rfl
  have hupTo : pemLabel.upTo (some 128) s = label.text.length := by
    rw [CharSet.upTo, hreach]
    exact Nat.min_eq_right label.length_le
  have hlabel := @run_rep_possessive_set pemLabel s 1 (some 128) (hupTo ▸ label.length_pos)
  rw [hupTo] at hlabel
  have hseq := (Rx.run_seq_of_singleton (run_holdsPrivateKey label h)).trans hlabel
  rw [Rx.run, hseq]
  rfl

theorem rest_afterLabel (h : s.rest = label.text ++ after) : (afterLabel label s).rest = after := by
  have hrest := State.rest_advance_append h
  exact hrest

theorem pos_afterLabel (h : s.rest = label.text ++ after) :
    (afterLabel label s).pos = s.pos + label.text.length := State.pos_advance_append h

theorem lookup_afterLabel (h : s.rest = label.text ++ after) :
    (afterLabel label s).lookup "pem" = some (s.pos, label.text) := by
  have hpos := pos_afterLabel label h
  have htake : s.rest.take ((s.advance label.text.length).pos - s.pos) = label.text := by
    rw [show (s.advance label.text.length).pos = s.pos + label.text.length from hpos,
      Nat.add_sub_cancel_left, h, List.take_left]
  rw [State.lookup, afterLabel, State.capture, htake]
  rfl

/-! ## The end line -/

def pemEnd : Rx := alts [seqs [lit "-----END ", .backref "pem", lit "-----"], .textEnd]

theorem mem_run_pemEnd {t : State} {start : ℕ} (hlookup : s.lookup "pem" = some (start, label.text))
    (ht : t ∈ pemEnd.run s) :
    s.rest = [] ∧ t = s ∨
      ∃ more, s.rest = label.endLine ++ more ∧ t = s.advance label.endLine.length := by
  rcases List.mem_append.mp ht with ht | ht
  · right
    obtain ⟨u, hu, hut⟩ := List.mem_flatMap.mp ht
    obtain ⟨more, hmore, rfl⟩ := of_mem_run_lit hu
    obtain ⟨v, hv, hvt⟩ := List.mem_flatMap.mp hut
    obtain ⟨more', hmore', rfl⟩ := of_mem_run_backref (by rw [State.lookup_advance, hlookup]) hv
    obtain ⟨more'', hmore'', rfl⟩ := of_mem_run_lit hvt
    have hrest := State.rest_advance_append hmore
    have hrest' := State.rest_advance_append hmore'
    rw [hrest] at hmore'
    rw [hrest'] at hmore''
    refine ⟨more'', ?_, ?_⟩
    · rw [hmore, hmore', hmore'', label.endLine_append]
    · rw [State.advance_advance, State.advance_advance, label.length_endLine]
  · exact .inl (of_mem_run_textEnd ht)

theorem run_pemEnd_ne_nil {start : ℕ} (hlookup : s.lookup "pem" = some (start, label.text))
    (h : s.rest = label.endLine ++ after) : pemEnd.run s ≠ [] := by
  rw [label.endLine_append] at h
  have hdashes := run_lit h
  have hrest := State.rest_advance_append h
  have hlabel := run_backref ((State.lookup_advance s _ "pem").trans hlookup) hrest
  have hlast := run_lit (State.rest_advance_append hrest)
  have hline : (seqs [lit "-----END ", .backref "pem", lit "-----"]).run s = _ :=
    (Rx.run_seq_of_singleton hdashes).trans ((Rx.run_seq_of_singleton hlabel).trans hlast)
  exact List.append_ne_nil_of_left_ne_nil (hline ▸ List.cons_ne_nil _ _) _

/-- The end that is found does not lie inside a body without its end line. -/
theorem le_pos_of_mem_run_pemEnd {t : State} {start k : ℕ}
    (hlookup : s.lookup "pem" = some (start, label.text)) (h : s.rest = body ++ after)
    (hbody : ¬ label.endLine <:+: body) (hk : k ≤ s.rest.length)
    (ht : t ∈ pemEnd.run (s.advance k)) : s.pos + body.length ≤ t.pos := by
  have hlength : s.rest.length = body.length + after.length := by rw [h, List.length_append]
  rcases mem_run_pemEnd label (by rw [State.lookup_advance, hlookup]) ht with
    ⟨hend, rfl⟩ | ⟨more, hmore, rfl⟩
  · rw [State.rest_advance, List.drop_eq_nil_iff] at hend
    rw [State.pos_advance hk]
    omega
  · rw [State.rest_advance] at hmore
    have hleft := congrArg List.length hmore
    rw [List.length_drop, List.length_append] at hleft
    rw [State.advance_advance, State.pos_advance (by omega)]
    by_contra hshort
    have hdrop : label.endLine <+: body.drop k ++ after := by
      rw [← List.drop_append_of_le_length (by omega), ← h, hmore]
      exact List.prefix_append _ _
    have hinside : label.endLine <+: body.drop k :=
      List.prefix_of_prefix_length_le hdrop (List.prefix_append _ _)
        (by rw [List.length_drop]; omega)
    exact hbody (hinside.isInfix.trans (List.drop_suffix k body).isInfix)

/-! ## The block -/

def bodyStart (label : PrivateKeyLabel) (s : State) : State :=
  (afterLabel label (s.advance "-----BEGIN ".toList.length)).advance "-----".toList.length

theorem bodyStart_spec (h : s.rest = label.beginLine ++ after) :
    (bodyStart label s).rest = after ∧ (bodyStart label s).pos = s.pos + label.beginLine.length ∧
      (bodyStart label s).lookup "pem" = some (s.pos + "-----BEGIN ".toList.length, label.text) := by
  rw [label.beginLine_append] at h
  have hlabel := State.rest_advance_append h
  have hpos := State.pos_advance_append h
  have hrest := rest_afterLabel label hlabel
  refine ⟨?_, ?_, ?_⟩
  · exact State.rest_advance_append hrest
  · rw [bodyStart, State.pos_advance_append hrest, pos_afterLabel label hlabel, hpos,
      label.length_beginLine, Nat.add_assoc, Nat.add_assoc, Nat.add_assoc]
  · rw [bodyStart, State.lookup_advance, lookup_afterLabel label hlabel, hpos]

theorem run_pemBlockRe (h : s.rest = label.beginLine ++ after) :
    pemBlockRe.run s = ((Rx.set anyChar).starLazy.run (bodyStart label s)).flatMap pemEnd.run := by
  rw [label.beginLine_append] at h
  have hlabel := State.rest_advance_append h
  have hgroup := @run_pemGroup label _ _ hlabel
  have hdashes := run_lit (rest_afterLabel label hlabel)
  exact (Rx.run_seq_of_singleton (run_lit h)).trans
    ((Rx.run_seq_of_singleton hgroup).trans (Rx.run_seq_of_singleton hdashes))

theorem pemBlockRe_spec (h : s.rest = label.beginLine ++ (body ++ (label.endLine ++ after)))
    (hbody : ¬ label.endLine <:+: body) : pemBlockRe.run s ≠ [] ∧
      ∀ t ∈ pemBlockRe.run s, s.pos + label.beginLine.length + body.length ≤ t.pos := by
  obtain ⟨hrest, hpos, hlookup⟩ := bodyStart_spec label h
  have hany : ∀ c, anyChar.mem c = true := fun c => rfl
  have hreach : body.length ≤ anyChar.reach (bodyStart label s) := by
    rw [CharSet.reach_append hrest (fun c _ => hany c)]
    exact Nat.le_add_right _ _
  rw [run_pemBlockRe label h, ← hpos]
  constructor
  · have hmem := @advance_mem_run_rep_set anyChar _ 0 .lazy (by decide) body.length (Nat.zero_le _)
      hreach
    have hend := run_pemEnd_ne_nil label ((State.lookup_advance _ body.length "pem").trans hlookup)
      (State.rest_advance_append hrest)
    exact fun hnil => hend (List.flatMap_eq_nil_iff.mp hnil _ hmem)
  · intro t ht
    obtain ⟨u, hu, hut⟩ := List.mem_flatMap.mp ht
    obtain ⟨k, _, hk, rfl⟩ := mem_run_rep_set hu
    exact le_pos_of_mem_run_pemEnd label hlookup hrest hbody (hk.trans (CharSet.reach_le _ _)) hut

end

/-! ## Survival -/

theorem avoids_nmsSecretReferenceRe : nmsSecretReferenceRe.avoids [' ', '"', '/'] = true := by
  decide +kernel

theorem not_reference_of_mem {text : Text} {c : Char} (hc : c ∈ text) (hbad : c ∈ [' ', '"', '/']) :
    nmsSecretReferenceRe.fullmatch text = false := by
  by_contra href
  exact Rx.not_mem_of_fullmatch avoids_nmsSecretReferenceRe (Bool.eq_true_of_not_eq_false href) c hc
    hbad

/-- The first place where a word stands in a text. -/
theorem exists_first_infix {w text : Text} (hw : w ≠ []) (h : w <:+: text) :
    ∃ a z, text = a ++ w ++ z ∧ ¬ w <:+: a := by
  obtain ⟨a, z, hsplit⟩ := h
  induction hlength : a.length using Nat.strong_induction_on generalizing a z with
  | _ n ih =>
    by_cases hinside : w <:+: a
    · obtain ⟨b, y, rfl⟩ := hinside
      have hpos := List.length_pos_iff.mpr hw
      simp only [List.length_append] at hlength
      refine ih b.length (by omega) b (y ++ w ++ z) ?_ rfl
      rw [← hsplit]
      simp only [List.append_assoc]
    · exact ⟨a, z, hsplit.symm, hinside⟩

/-- The pattern matches at the start of a block, up to the end of its body or to an end line in it. -/
theorem head?_run_block (word : Char → Bool) (label : PrivateKeyLabel) {body after : Text} {s : State}
    (h : s.rest = label.beginLine ++ (body ++ (label.endLine ++ after))) :
    ∃ t, ((secretContentRe word).run s).head? = some t ∧
      (s.pos + label.beginLine.length + body.length ≤ t.pos ∨
        ∃ a z, body = a ++ label.endLine ++ z ∧
          s.pos + label.beginLine.length + a.length ≤ t.pos) := by
  have hhead : ∀ t, (pemBlockRe.run s).head? = some t →
      ((secretContentRe word).run s).head? = some t := by
    intro t ht
    change (pemBlockRe.run s ++ _).head? = some t
    rw [List.head?_append, ht]
    rfl
  by_cases hbody : label.endLine <:+: body
  · have hne : label.endLine ≠ [] := by
      intro hnil
      have hlength := label.length_endLine
      rw [hnil] at hlength
      simp at hlength
    obtain ⟨a, z, rfl, hfirst⟩ := exists_first_infix hne hbody
    have hblock : s.rest =
        label.beginLine ++ (a ++ (label.endLine ++ (z ++ (label.endLine ++ after)))) := by
      rw [h]
      simp only [List.append_assoc]
    obtain ⟨hrun, hall⟩ := pemBlockRe_spec label hblock hfirst
    obtain ⟨t, ts, ht⟩ := List.exists_cons_of_ne_nil hrun
    exact ⟨t, hhead t (by rw [ht]; rfl), .inr ⟨a, z, rfl, hall t (ht ▸ List.mem_cons_self)⟩⟩
  · obtain ⟨hrun, hall⟩ := pemBlockRe_spec label h hbody
    obtain ⟨t, ts, ht⟩ := List.exists_cons_of_ne_nil hrun
    exact ⟨t, hhead t (by rw [ht]; rfl), .inl (hall t (ht ▸ List.mem_cons_self))⟩

/-- No character of the body of a private key block survives when other spans cover what a match
leaves of the body that starts before the block and ends inside it, and what stands behind an end
line of the block inside the body. -/
theorem private_key_body_not_kept (word : Char → Bool) (before : Text) (label : PrivateKeyLabel)
    (body after : Text)
    (hbody : ∀ a z, body = a ++ label.endLine ++ z →
      ∀ p < before.length + label.beginLine.length + body.length,
        before.length + label.beginLine.length + a.length ≤ p →
          Covered word (before ++ label.beginLine ++ body ++ label.endLine ++ after) p)
    (hbefore : ∀ m ∈ (secretContentRe word).finditer
      (before ++ label.beginLine ++ body ++ label.endLine ++ after),
      m.start < before.length → before.length < m.stop →
        ∀ p < before.length + label.beginLine.length + body.length, m.stop ≤ p →
          Covered word (before ++ label.beginLine ++ body ++ label.endLine ++ after) p)
    (p : ℕ) (hp : before.length + label.beginLine.length ≤ p)
    (hpe : p < before.length + label.beginLine.length + body.length) :
    ¬ Survives word (before ++ label.beginLine ++ body ++ label.endLine ++ after) p := by
  generalize htext : before ++ label.beginLine ++ body ++ label.endLine ++ after = text
    at hbody hbefore ⊢
  have hsplit : text = before ++ (label.beginLine ++ (body ++ (label.endLine ++ after))) := by
    rw [← htext]
    simp only [List.append_assoc]
  have hrest := State.rest_ofPos_append before (label.beginLine ++ (body ++ (label.endLine ++ after)))
  rw [← hsplit] at hrest
  obtain ⟨t, ht, hreach⟩ := head?_run_block word label hrest
  have hdash : text[before.length]? = some '-' := by
    rw [hsplit, List.getElem?_append_right le_rfl, Nat.sub_self, label.beginLine_append]
    rfl
  have hblank : ' ' ∈ text := by
    rw [hsplit, label.beginLine_append]
    exact List.mem_append_right _ (List.mem_append_left _ (by decide))
  refine not_survives (not_reference_of_mem hblank (by decide)) hdash (by decide)
    ⟨t, ht, fun p hpe hstop => ?_⟩ hbefore (by omega) hpe
  have hpos : (State.ofPos text before.length).pos = before.length := rfl
  rcases hreach with hwhole | ⟨a, z, hends, hpart⟩
  · omega
  · exact hbody a z hends p hpe (by omega)

def plainLabel : PrivateKeyLabel where
  text := ['P', 'R', 'I', 'V', 'A', 'T', 'E', ' ', 'K', 'E', 'Y']
  length_pos := by decide
  length_le := by decide
  chars := List.all_eq_true.mp (by decide +kernel)
  privateKey := ⟨[], [], by decide⟩

def indentedBlock : Text :=
  "private_key:\n  ".toList ++ plainLabel.beginLine ++ "\n  k\n  ".toList ++ plainLabel.endLine ++ []

/-- The keyed value takes only the begin line of the block; the rule for a key without a value on its
line covers the rest. -/
theorem private_key_body_not_kept_indented :
    (∃ m ∈ (secretContentRe (fun _ => false)).finditer indentedBlock, m.start < 15 ∧ m.stop = 42) ∧
      ¬ Survives (fun _ => false) indentedBlock 45 := by
  refine ⟨by decide +kernel, private_key_body_not_kept _ _ plainLabel _ [] ?_ ?_ 45 ?_ ?_⟩
  · intro a z hends
    have hlength := congrArg List.length hends
    have hline : plainLabel.endLine.length = 25 := by decide
    simp only [List.length_append, hline] at hlength
    have hshort : "\n  k\n  ".toList.length = 7 := by decide
    omega
  · decide +kernel
  · decide +kernel
  · decide +kernel

/-- The value of a secret key ends with its line, also when it is the begin line of a block. A body
that holds its own end line is cut there. -/
theorem private_key_body_kept_in_part :
    Survives (fun _ => false) (['t', 'o', 'k', 'e', 'n', '='] ++ plainLabel.beginLine ++
      ['\n', 'k', '\n'] ++ plainLabel.endLine ++ []) 34 ∧
    Survives (fun _ => false) ([] ++ plainLabel.beginLine ++ (plainLabel.endLine ++ ['k']) ++
      plainLabel.endLine ++ []) 52 := by
  decide +kernel

end NetboxRpc
