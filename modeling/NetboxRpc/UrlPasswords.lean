import NetboxRpc.PrivateKeys
import NetboxRpc.SecretAlternatives

/-!
# Passwords in URLs

The password of a URL with a user name does not survive, unless a match that starts before the URL
ends inside it.
-/

namespace NetboxRpc

open Regex

structure UrlCredentials where
  initial : Char
  more : Text
  user : Text
  password : Text
  initial_mem : schemeFirst.mem initial = true
  more_mem : ∀ c ∈ more, schemeChars.mem c = true
  user_mem : ∀ c ∈ user, userChars.mem c = true
  password_mem : ∀ c ∈ password, passwordChars.mem c = true
  password_ne : password ≠ []

namespace UrlCredentials

def scheme (url : UrlCredentials) : Text := url.initial :: url.more

def userPart (url : UrlCredentials) : Text :=
  url.scheme ++ ':' :: '/' :: '/' :: (url.user ++ [':'])

def text (url : UrlCredentials) : Text := url.userPart ++ url.password ++ ['@']

variable (url : UrlCredentials) {s : State} {after : Text}

theorem text_append (after : Text) : url.text ++ after = url.scheme ++
    ':' :: ([] ++ '/' :: ('/' :: (url.user ++ ':' :: (url.password ++ '@' :: after)))) := by
  simp [text, userPart]

theorem scheme_mem : ∀ c ∈ url.scheme, schemeChars.mem c = true := by
  intro c hc
  rcases List.mem_cons.mp hc with rfl | hc
  · exact CharSet.mem_of_subset rfl rfl (by decide +kernel) url.initial_mem
  · exact url.more_mem c hc

theorem keyedAt (h : s.rest = url.text ++ after) : KeyedAt s url.scheme ':' [] '/'
    ('/' :: (url.user ++ ':' :: (url.password ++ '@' :: after))) where
  rest := h.trans (url.text_append after)
  key c hc := CharSet.not_mem_of_all rfl (url.scheme_mem c hc)
  mark := by decide
  blanks := by simp
  first := rfl

/-- The characters of a URL up to its `@`, one by one. -/
theorem not_mem_of_parts {bad : List Char} (hscheme : bad.all (fun b => !schemeChars.mem b) = true)
    (huser : bad.all (fun b => !userChars.mem b) = true)
    (hpassword : bad.all (fun b => !passwordChars.mem b) = true)
    (hmarks : ':' ∉ bad ∧ '/' ∉ bad) : ∀ c ∈ url.userPart ++ url.password, c ∉ bad := by
  intro c hc
  simp only [userPart, List.mem_append, List.mem_cons, List.not_mem_nil, or_false] at hc
  rcases hc with (hc | rfl | rfl | rfl | hc | rfl) | hc
  · exact CharSet.not_mem_of_all hscheme (url.scheme_mem c hc)
  · exact hmarks.1
  · exact hmarks.2
  · exact hmarks.2
  · exact CharSet.not_mem_of_all huser (url.user_mem c hc)
  · exact hmarks.1
  · exact CharSet.not_mem_of_all hpassword (url.password_mem c hc)

theorem isBreak_eq_false : ∀ c ∈ url.userPart ++ url.password, isBreak c = false := by
  intro c hc
  have hnot := @not_mem_of_parts url ['\r', '\n'] rfl rfl
    rfl (by decide) c hc
  simp only [List.mem_cons, List.not_mem_nil, or_false, not_or] at hnot
  simp [isBreak, hnot]

/-! ## The alternatives at the scheme -/

theorem not_begin (h : s.rest = url.text ++ after) : ¬ "-----BEGIN ".toList <+: s.rest := by
  rintro ⟨rest, hrest⟩
  rw [h] at hrest
  have hinitial : '-' = url.initial := (List.cons.inj hrest).1
  have hmem := url.initial_mem
  rw [← hinitial] at hmem
  exact absurd hmem Bool.false_ne_true

theorem le_pos_of_authorizationRe {word : Char → Bool} {t : State} (h : s.rest = url.text ++ after)
    (ht : t ∈ (authorizationRe word).run s) :
    s.pos + url.userPart.length + url.password.length ≤ t.pos := by
  have hrest : s.rest = (url.userPart ++ url.password) ++ ('@' :: after) := by
    rw [h, text, List.append_assoc]
    rfl
  have hle := le_pos_of_all_isBreak (Rx.reads_run _ s t ht) hrest url.isBreak_eq_false
    (all_isBreak_of_mem_run_authorizationRe ht)
  rw [List.length_append] at hle
  omega

theorem le_pos_of_secretAssignmentRe {t : State} (h : s.rest = url.text ++ after)
    (ht : (secretAssignmentRe.run s).head? = some t) :
    s.pos + url.userPart.length + url.password.length ≤ t.pos := by
  obtain ⟨v, hrest, hpos, hhead⟩ := head?_run_secretAssignmentRe (url.keyedAt h) ht
  have hline : v.rest = ('/' :: ('/' :: (url.user ++ ':' :: url.password))) ++ '@' :: after := by
    rw [hrest]
    simp
  have hle := le_pos_of_bare_value hline (by decide) (fun c hc => url.isBreak_eq_false c ?_) hhead
  · simp only [userPart, List.length_append, List.length_cons, List.length_nil] at hle hpos ⊢
    omega
  · simp only [userPart, List.mem_append, List.mem_cons] at hc ⊢
    tauto

theorem le_pos_of_urlCredentialRe {t : State} (h : s.rest = url.text ++ after)
    (ht : t ∈ urlCredentialRe.run s) : s.pos + url.userPart.length + url.password.length ≤ t.pos := by
  have hsplit := @Rx.run_seqs_append (urlHead ++ urlBody) (List.cons_ne_nil _ _) [chr '@']
    (List.cons_ne_nil _ _) s
  rw [urlCredentialRe_eq, ← List.append_assoc, hsplit] at ht
  obtain ⟨u, hu, hut⟩ := List.mem_flatMap.mp ht
  have hrest : s.rest = (url.userPart ++ url.password) ++ '@' :: after := by
    rw [h, text, List.append_assoc]
    rfl
  have hnot := @not_mem_of_parts url ['@'] rfl rfl
    rfl (by decide)
  obtain ⟨zs, hzs⟩ : ∃ zs, u.rest = '@' :: zs := by
    cases hr : u.rest with
    | nil =>
      rw [show seqs [chr '@'] = chr '@' from rfl, chr, Rx.run_set_nil _ hr] at hut
      cases hut
    | cons z zs =>
      by_cases hz : z = '@'
      · exact ⟨zs, by rw [hz]⟩
      · rw [show seqs [chr '@'] = chr '@' from rfl, run_chr_eq_nil hr hz] at hut
        cases hut
  have hat := (Rx.readsNone_run rfl hu).rest_eq hrest hnot (by decide) hzs (by decide)
  have hpos := (Rx.reads_run _ s u hu).pos_add_length
  obtain ⟨read, _, hread⟩ := Rx.reads_run _ u t hut
  rw [hat, hrest, List.length_append, List.length_append] at hpos
  omega

/-- The URL alternative matches a URL with a user name at a boundary. -/
theorem run_urlCredentialRe_ne_nil (h : s.rest = url.text ++ after) (huser : url.user ≠ [])
    (hbehind : s.prev.any schemeBehind.mem = false) : urlCredentialRe.run s ≠ [] := by
  rw [url.text_append] at h
  have hboundary : (Rx.notBehind schemeBehind).run s = [s] := by
    rw [Rx.run, if_neg (by rw [hbehind]; exact Bool.false_ne_true)]
  have hinitial : (Rx.set schemeFirst).run s = [s.advance 1] := by
    rw [Rx.run_set_cons_eq _ h, if_pos url.initial_mem]
  have hmore : (s.advance 1).rest = url.more ++ ':' :: ('/' :: '/' :: (url.user ++
      ':' :: (url.password ++ '@' :: after))) := by
    rw [State.rest_advance, h]
    rfl
  have hscheme := @run_rep_possessive_set schemeChars (s.advance 1) 0 none (Nat.zero_le _)
  rw [CharSet.upTo, CharSet.reach_eq hmore url.more_mem rfl] at hscheme
  have hmarks := State.rest_advance_append hmore
  have hslashes := @run_lit "://" _ _ hmarks
  have hname := @State.rest_advance_append _ "://".toList _ hmarks
  have huserRun := @advance_mem_run_rep_set userChars _ 1 .greedy (by decide) url.user.length
    (List.length_pos_of_ne_nil huser)
    (by rw [CharSet.reach_append hname url.user_mem]; exact Nat.le_add_right _ _)
  have hcolon := State.rest_advance_append hname
  have hword : (State.advance _ 1).rest = url.password ++ '@' :: after :=
    @State.rest_advance_append _ [':'] _ hcolon
  have hpasswordRun := @advance_mem_run_rep_set passwordChars _ 1 .greedy (by decide)
    url.password.length (List.length_pos_of_ne_nil url.password_ne)
    (by rw [CharSet.reach_append hword url.password_mem]; exact Nat.le_add_right _ _)
  have hend : (chr '@').run _ ≠ [] :=
    run_chr (State.rest_advance_append hword) ▸ List.cons_ne_nil _ _
  have hcredentials := Rx.run_seq_ne_nil huserRun (Rx.run_seq_ne_nil
    (run_chr hcolon ▸ List.mem_singleton_self _) (Rx.run_seq_ne_nil hpasswordRun hend))
  rw [urlCredentialRe_eq]
  exact Rx.run_seq_ne_nil (hboundary ▸ List.mem_singleton_self s)
    (Rx.run_seq_ne_nil (hinitial ▸ List.mem_singleton_self _)
      (Rx.run_seq_ne_nil (hscheme ▸ List.mem_singleton_self _)
        (Rx.run_seq_ne_nil (hslashes ▸ List.mem_singleton_self _) hcredentials)))

end UrlCredentials

/-- No character of the password of a URL with a user name survives, unless a match that starts
before the URL reaches into it and ends inside. -/
theorem url_password_not_kept (word : Char → Bool) (before : Text) (url : UrlCredentials)
    (after : Text) (huser : url.user ≠ [])
    (hboundary : ∀ c ∈ before.getLast?, schemeBehind.mem c = false)
    (hbefore : ∀ m ∈ (secretContentRe word).finditer (before ++ url.text ++ after),
      m.start < before.length → before.length < m.stop →
        before.length + url.userPart.length + url.password.length ≤ m.stop)
    (p : ℕ) (hp : before.length + url.userPart.length ≤ p)
    (hpe : p < before.length + url.userPart.length + url.password.length) :
    ¬ Survives word (before ++ url.text ++ after) p := by
  rw [List.append_assoc] at hbefore ⊢
  have hrest := State.rest_ofPos_append before (url.text ++ after)
  have hbehind := State.any_prev_ofPos_append hboundary (url.text ++ after)
  obtain ⟨t, ht, hreach⟩ := @head?_run_secretContentRe word _
    (before.length + url.userPart.length + url.password.length) (url.not_begin hrest)
    (run_secretBlockScalarRe_eq_nil (url.keyedAt hrest) (by decide))
    (fun t ht => url.le_pos_of_authorizationRe hrest ht)
    (fun t ht => url.le_pos_of_secretAssignmentRe hrest ht)
    (fun t ht => url.le_pos_of_urlCredentialRe hrest ht)
    (.inr (url.run_urlCredentialRe_ne_nil hrest huser hbehind))
  have hinitial : (before ++ (url.text ++ after))[before.length]? = some url.initial := by
    rw [List.getElem?_append_right le_rfl, Nat.sub_self]
    rfl
  have hmark : url.initial ≠ byteOrderMark := by
    intro heq
    have hmem := url.initial_mem
    rw [heq] at hmem
    exact absurd hmem Bool.false_ne_true
  have hslash : '/' ∈ before ++ (url.text ++ after) := by
    rw [url.text_append]
    simp
  refine not_survives (not_reference_of_mem hslash (by decide)) hinitial hmark
    ⟨t, ht, fun p hpe hstop => ?_⟩ (fun m hm hstart hstop p hpe hle => ?_) (by omega) hpe
  · omega
  · have := hbefore m hm hstart hstop
    omega

def sampleUrl (user password : Text) (huser : user.all userChars.mem = true)
    (hpassword : password.all passwordChars.mem = true) (hne : password ≠ []) :
    UrlCredentials where
  initial := 'x'
  more := []
  user := user
  password := password
  initial_mem := by decide +kernel
  more_mem := by simp
  user_mem := List.all_eq_true.mp huser
  password_mem := List.all_eq_true.mp hpassword
  password_ne := hne

def plainUrl : UrlCredentials :=
  sampleUrl ['u'] ['p'] (by decide +kernel) (by decide +kernel) (by decide)

def noUserUrl : UrlCredentials := sampleUrl [] ['p'] rfl (by decide +kernel) (by decide)

def quoteUrl : UrlCredentials :=
  sampleUrl ['u'] ['"', 'p'] (by decide +kernel) (by decide +kernel) (by decide)

/-- A URL as the value of a secret key: the match starts before the URL and ends behind it. -/
theorem url_password_not_kept_keyed : plainUrl.user ≠ [] ∧
    (∃ m ∈ (secretContentRe (fun _ => false)).finditer ("token=".toList ++ plainUrl.text ++ []),
      m.start < 6 ∧ 6 < m.stop) ∧
    ¬ Survives (fun _ => false) ("token=".toList ++ plainUrl.text ++ []) 12 := by
  have huser : plainUrl.user ≠ [] := List.cons_ne_nil _ _
  refine ⟨huser, by decide +kernel,
    url_password_not_kept _ "token=".toList plainUrl [] huser ?_ ?_ 12 ?_ ?_⟩
  · rintro c ⟨⟩
    decide
  · decide +kernel
  · decide
  · decide

/-- An empty user name, a boundary that only the other case of a letter hides, and a quoted value
that ends inside the password. -/
theorem url_password_kept :
    Survives (fun _ => false) ([] ++ noUserUrl.text ++ []) 5 ∧
    Survives (fun _ => false) (['0', Char.ofNat 0x17F] ++ plainUrl.text ++ []) 8 ∧
    Survives (fun _ => false)
      (['t', 'o', 'k', 'e', 'n', '=', '"'] ++ quoteUrl.text ++ []) 14 := by
  decide +kernel

end NetboxRpc
