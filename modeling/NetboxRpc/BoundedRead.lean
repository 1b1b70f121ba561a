import NetboxRpc.BackendTransport

/-!
# The bounded read and the bytes of the body

`_read_bounded_json_response` is to depend on the bytes of a body and not on how they arrive. Its
loop stops in two places without having seen the rest of the stream: at the declared length, and
at an empty chunk right after the byte limit. The outcome is that of the whole body exactly when
neither of them leaves bytes behind.
-/

namespace NetboxRpc

structure ResponseHead where
  status : ℕ
  contentEncoding : String
  contentLength : Option String

def ResponseHead.chunked (head : ResponseHead) (chunks : List (List UInt8)) : HttpResponse where
  status := head.status
  contentEncoding := head.contentEncoding
  contentLength := head.contentLength
  stream := chunks.map .chunk

def ResponseHead.EncodingAllowed (head : ResponseHead) : Prop :=
  lower head.contentEncoding = [] ∨ lower head.contentEncoding = "identity".toList

instance (head : ResponseHead) : Decidable head.EncodingAllowed :=
  inferInstanceAs (Decidable (_ ∨ _))

def ResponseHead.Admits (head : ResponseHead) (maxBytes : ℕ) (body : List UInt8) : Prop :=
  head.EncodingAllowed ∧ body ≠ [] ∧ body.length ≤ maxBytes ∧
    ∀ text ∈ head.contentLength, isAsciiDecimal text = true ∧ decimalValue text = body.length

instance (head : ResponseHead) (maxBytes : ℕ) (body : List UInt8) :
    Decidable (head.Admits maxBytes body) :=
  inferInstanceAs (Decidable (_ ∧ _ ∧ _ ∧ ∀ text ∈ head.contentLength, _))

def wholeBodyOutcome (loads : List UInt8 → Except ReadFailure Json) (maxBytes : ℕ)
    (head : ResponseHead) (body : List UInt8) : Except ReadFailure Json :=
  if head.Admits maxBytes body then loads body else .error .rejected

/-! ## The loop -/

def finishRead (expected : Option ℕ) (body : List UInt8) : Except ReadFailure (List UInt8) :=
  if expected.any (· ≠ body.length) then .error .rejected
  else if body = [] then .error .rejected
  else .ok body

/-- The first bytes fill the limit exactly, the next chunk is empty, and bytes follow it. -/
def HiddenByEmptyChunk (room : ℕ) (chunks : List (List UInt8)) : Prop :=
  ∃ before rest, chunks = before ++ [] :: rest ∧ before.flatten.length = room ∧ rest.flatten ≠ []

/-- The first chunks fill the declared length exactly, and bytes follow them. -/
def HiddenByLength (room : ℕ) (chunks : List (List UInt8)) : Prop :=
  ∃ before rest, chunks = before ++ rest ∧ before.flatten.length = room ∧ rest.flatten ≠ []

theorem HiddenByEmptyChunk.cons (chunk : List UInt8) {room : ℕ} {chunks : List (List UInt8)}
    (h : HiddenByEmptyChunk room chunks) : HiddenByEmptyChunk (chunk.length + room) (chunk :: chunks) := by
  obtain ⟨before, rest, rfl, hroom, hrest⟩ := h
  exact ⟨chunk :: before, rest, rfl, by simp [hroom], hrest⟩

theorem HiddenByLength.cons (chunk : List UInt8) {room : ℕ} {chunks : List (List UInt8)}
    (h : HiddenByLength room chunks) : HiddenByLength (chunk.length + room) (chunk :: chunks) := by
  obtain ⟨before, rest, rfl, hroom, hrest⟩ := h
  exact ⟨chunk :: before, rest, rfl, by simp [hroom], hrest⟩

section Loop

variable {maxBytes : ℕ} {chunks : List (List UInt8)} {body : List UInt8}

/-- Without a declared length the loop returns the rest of the stream if it fits. -/
theorem readChunks_none (hroom : body.length < maxBytes)
    (h : ¬ HiddenByEmptyChunk (maxBytes - body.length) chunks) :
    readChunks maxBytes none (chunks.map .chunk) body =
      if body.length + chunks.flatten.length ≤ maxBytes then .ok (body ++ chunks.flatten)
      else .error .rejected := by
  induction chunks generalizing body with
  | nil => simp [readChunks, hroom.le]
  | cons chunk rest ih =>
    cases chunk with
    | nil =>
      have hrest : ¬ HiddenByEmptyChunk (maxBytes - body.length) rest := fun hidden =>
        h (by simpa using hidden.cons [])
      simpa [readChunks] using ih hroom hrest
    | cons b bs =>
      have hlength : body.length + ((b :: bs) :: rest).flatten.length =
          (body ++ b :: bs).length + rest.flatten.length := by
        simp only [List.flatten_cons, List.length_append]
        omega
      rw [hlength, List.flatten_cons, ← List.append_assoc]
      simp only [List.map_cons, readChunks, Option.any_none, Bool.false_eq_true, if_false, true_and]
      rw [show body.length + (bs.length + 1) = (body ++ b :: bs).length by simp]
      by_cases hover : maxBytes < (body ++ b :: bs).length
      · rw [if_pos hover, if_neg (by omega)]
      rw [if_neg hover]
      by_cases hfull : (body ++ b :: bs).length = maxBytes
      · -- The look-ahead: it ends the body at an empty chunk, whatever follows.
        rw [if_pos hfull]
        have hle : body.length + (bs.length + 1) ≤ maxBytes := by simpa using hfull.le
        rcases rest with _ | ⟨_ | ⟨x, xs⟩, rest⟩
        · simp [readExtra, hle]
        · have hnone : rest.flatten = [] := by
            by_contra hsome
            refine h ⟨[b :: bs], rest, rfl, ?_, hsome⟩
            rw [List.length_append] at hfull
            simp only [List.flatten_singleton]
            omega
          simp [readExtra, hnone, hle]
        · rw [if_neg (by simp only [List.flatten_cons, List.length_append, List.length_cons] at *; omega)]
          rfl
      · rw [if_neg hfull]
        have hrest : ¬ HiddenByEmptyChunk (maxBytes - (body ++ b :: bs).length) rest := fun hidden =>
          h (by
            have hcons := hidden.cons (b :: bs)
            rwa [show (b :: bs).length + (maxBytes - (body ++ b :: bs).length) =
              maxBytes - body.length by rw [List.length_append] at *; omega] at hcons)
        exact ih (by omega) hrest

/-- An empty chunk at the limit ends the body there. -/
theorem readChunks_none_hidden (hroom : body.length < maxBytes)
    (h : HiddenByEmptyChunk (maxBytes - body.length) chunks) :
    ∃ taken, readChunks maxBytes none (chunks.map .chunk) body = .ok taken ∧
      taken.length = maxBytes := by
  obtain ⟨before, rest, rfl, hbefore, -⟩ := h
  induction before generalizing body with
  | nil => simp at hbefore; omega
  | cons chunk before ih =>
    simp only [List.flatten_cons, List.length_append] at hbefore
    cases chunk with
    | nil =>
      obtain ⟨taken, hread, htaken⟩ := ih hroom (by simpa using hbefore)
      exact ⟨taken, by simpa [readChunks] using hread, htaken⟩
    | cons b bs =>
      have hgrown : (body ++ b :: bs).length = body.length + (bs.length + 1) := by simp
      rw [List.length_cons] at hbefore
      simp only [List.cons_append, List.map_cons, readChunks, Option.any_none, Bool.false_eq_true,
        if_false, true_and]
      rw [if_neg (by omega)]
      by_cases hfull : body.length + (bs.length + 1) = maxBytes
      · rw [if_pos hfull]
        refine ⟨body ++ b :: bs, ?_, hgrown.trans hfull⟩
        have hempty : before.flatten = [] := List.length_eq_zero_iff.mp (by omega)
        rcases before with _ | ⟨_ | ⟨x, xs⟩, before⟩
        · rfl
        · rfl
        · simp at hempty
      · rw [if_neg hfull]
        exact ih (by omega) (by omega)

/-- With a declared length the loop and the checks after it accept exactly that many bytes. -/
theorem readChunks_some {length : ℕ} (hlimit : length ≤ maxBytes)
    (h : body.length ≤ length → ¬ HiddenByLength (length - body.length) chunks) :
    (readChunks maxBytes (some length) (chunks.map .chunk) body).bind (finishRead (some length)) =
      if body.length + chunks.flatten.length = length then
        finishRead (some length) (body ++ chunks.flatten)
      else .error .rejected := by
  induction chunks generalizing body with
  | nil =>
    by_cases heq : length = body.length
    · simp [readChunks, Except.bind, heq]
    · simp [readChunks, Except.bind, finishRead, heq, Ne.symm heq]
  | cons chunk rest ih =>
    simp only [List.map_cons, readChunks, Option.any_some, decide_eq_true_eq]
    by_cases hdone : length ≤ body.length
    · rw [if_pos hdone]
      by_cases heq : length = body.length
      · -- The loop stops here, so nothing may be left.
        have hnone : (chunk :: rest).flatten = [] := by
          by_contra hsome
          exact h heq.ge ⟨[], chunk :: rest, rfl, by simp [heq], hsome⟩
        rw [hnone]
        simp [Except.bind, heq]
      · rw [if_neg (by omega)]
        simp [Except.bind, finishRead, heq]
    rw [if_neg hdone]
    cases chunk with
    | nil =>
      have hrest : body.length ≤ length → ¬ HiddenByLength (length - body.length) rest :=
        fun hle hidden => h hle (by simpa using hidden.cons [])
      simpa using ih hrest
    | cons b bs =>
      have hgrown : (body ++ b :: bs).length = body.length + (bs.length + 1) := by simp
      simp only [reduceCtorEq, false_and, if_false]
      by_cases hover : maxBytes < body.length + (bs.length + 1)
      · have hne : ¬ body.length + ((b :: bs) :: rest).flatten.length = length := by
          simp only [List.flatten_cons, List.length_append, List.length_cons]
          omega
        rw [if_pos hover, if_neg hne]
        rfl
      rw [if_neg hover]
      have hrest : (body ++ b :: bs).length ≤ length →
          ¬ HiddenByLength (length - (body ++ b :: bs).length) rest := fun hle hidden =>
        h (by omega) (by
          have hcons := hidden.cons (b :: bs)
          rwa [show (b :: bs).length + (length - (body ++ b :: bs).length) =
            length - body.length by rw [List.length_cons]; omega] at hcons)
      rw [ih hrest, hgrown, List.flatten_cons, List.append_assoc]
      simp only [List.length_append, List.length_cons]
      congr 1
      exact propext (by omega)

/-- The loop stops at the declared length. -/
theorem readChunks_some_hidden {length : ℕ} (hlimit : length ≤ maxBytes)
    (hroom : body.length ≤ length) (h : HiddenByLength (length - body.length) chunks) :
    ∃ taken, readChunks maxBytes (some length) (chunks.map .chunk) body = .ok taken ∧
      taken.length = length := by
  obtain ⟨before, rest, rfl, hbefore, hsome⟩ := h
  induction before generalizing body with
  | nil =>
    have hfull : length ≤ body.length := by simp at hbefore; omega
    refine ⟨body, ?_, by omega⟩
    rcases rest with _ | ⟨chunk, rest⟩
    · rfl
    · simp [readChunks, hfull]
  | cons chunk before ih =>
    simp only [List.flatten_cons, List.length_append] at hbefore
    simp only [List.cons_append, List.map_cons, readChunks, Option.any_some, decide_eq_true_eq]
    by_cases hdone : length ≤ body.length
    · exact ⟨body, by rw [if_pos hdone], by omega⟩
    rw [if_neg hdone]
    cases chunk with
    | nil => exact ih hroom (by simpa using hbefore)
    | cons b bs =>
      have hgrown : (body ++ b :: bs).length = body.length + (bs.length + 1) := by simp
      rw [List.length_cons] at hbefore
      simp only [reduceCtorEq, false_and, if_false]
      rw [if_neg (by omega)]
      exact ih (by omega) (by omega)

end Loop

/-! ## The outcome -/

theorem readBoundedJsonResponse_bind (loads : List UInt8 → Except ReadFailure Json) (maxBytes : ℕ)
    (r : HttpResponse) :
    readBoundedJsonResponse loads maxBytes r =
      if lower r.contentEncoding ≠ [] ∧ lower r.contentEncoding ≠ "identity".toList then
        .error .rejected
      else if r.contentLength.any
          (fun text => !isAsciiDecimal text || maxBytes < decimalValue text) then .error .rejected
      else ((readChunks maxBytes (r.contentLength.map decimalValue) r.stream []).bind
        (finishRead (r.contentLength.map decimalValue))).bind loads := by
  unfold readBoundedJsonResponse
  congr 2
  change (readChunks maxBytes (r.contentLength.map decimalValue) r.stream []).bind _ = _
  cases readChunks maxBytes (r.contentLength.map decimalValue) r.stream [] with
  | error failure => rfl
  | ok body =>
    change (if _ then _ else _) = (finishRead _ body).bind loads
    rw [finishRead]
    by_cases hdiffers : (r.contentLength.map decimalValue).any (· ≠ body.length) = true
    · rw [if_pos hdiffers, if_pos hdiffers]
      rfl
    · rw [if_neg hdiffers, if_neg hdiffers]
      split_ifs <;> rfl

theorem readBoundedJsonResponse_eq (loads : List UInt8 → Except ReadFailure Json) (maxBytes : ℕ)
    (head : ResponseHead) (chunks : List (List UInt8)) :
    readBoundedJsonResponse loads maxBytes (head.chunked chunks) =
      if ¬ head.EncodingAllowed then .error .rejected
      else if head.contentLength.any
          (fun text => !isAsciiDecimal text || maxBytes < decimalValue text) then .error .rejected
      else ((readChunks maxBytes (head.contentLength.map decimalValue) (chunks.map .chunk) []).bind
        (finishRead (head.contentLength.map decimalValue))).bind loads := by
  refine (readBoundedJsonResponse_bind loads maxBytes (head.chunked chunks)).trans ?_
  by_cases hencoding : head.EncodingAllowed
  · rw [if_neg (not_not_intro hencoding), if_neg]
    · rfl
    · exact fun hbad => hencoding.elim hbad.1 hbad.2
  · rw [if_pos hencoding, if_pos]
    exact not_or.mp hencoding

def ResponseHead.CutShort (head : ResponseHead) (maxBytes : ℕ) (chunks : List (List UInt8)) : Prop :=
  head.EncodingAllowed ∧ match head.contentLength with
    | none => HiddenByEmptyChunk maxBytes chunks
    | some text => isAsciiDecimal text = true ∧ 0 < decimalValue text ∧
        decimalValue text ≤ maxBytes ∧ HiddenByLength (decimalValue text) chunks

section Outcome

variable {loads : List UInt8 → Except ReadFailure Json} {maxBytes : ℕ} {head : ResponseHead}
  {chunks : List (List UInt8)}

theorem readBounded_undeclared (hmax : 1 ≤ maxBytes) (hencoding : head.EncodingAllowed)
    (hlength : head.contentLength = none) (h : ¬ HiddenByEmptyChunk maxBytes chunks) :
    readBoundedJsonResponse loads maxBytes (head.chunked chunks) =
      wholeBodyOutcome loads maxBytes head chunks.flatten := by
  have hloop := @readChunks_none maxBytes chunks [] hmax h
  rw [readBoundedJsonResponse_eq, if_neg (not_not_intro hencoding), hlength]
  simp only [Option.any_none, Bool.false_eq_true, if_false, Option.map_none]
  rw [hloop, wholeBodyOutcome]
  simp only [ResponseHead.Admits, hencoding, hlength, true_and, List.length_nil, Nat.zero_add,
    List.nil_append, Option.mem_def, reduceCtorEq, false_implies, implies_true, and_true]
  by_cases hfits : chunks.flatten.length ≤ maxBytes
  · rw [if_pos hfits]
    by_cases hempty : chunks.flatten = []
    · simp [Except.bind, finishRead, hempty]
    · rw [if_pos ⟨hempty, hfits⟩]
      simp [Except.bind, finishRead, hempty]
  · rw [if_neg hfits, if_neg (fun hadmits => hfits hadmits.2)]
    rfl

theorem readBounded_declared {text : String} (hencoding : head.EncodingAllowed)
    (hlength : head.contentLength = some text)
    (h : isAsciiDecimal text = true → decimalValue text ≤ maxBytes → 0 < decimalValue text →
      ¬ HiddenByLength (decimalValue text) chunks) :
    readBoundedJsonResponse loads maxBytes (head.chunked chunks) =
      wholeBodyOutcome loads maxBytes head chunks.flatten := by
  rw [readBoundedJsonResponse_eq, if_neg (not_not_intro hencoding), hlength, wholeBodyOutcome]
  simp only [ResponseHead.Admits, hencoding, hlength, true_and, Option.any_some, Option.map_some,
    Option.mem_def, Option.some.injEq, forall_eq', Bool.or_eq_true, Bool.not_eq_true',
    decide_eq_true_eq]
  by_cases hdigits : isAsciiDecimal text = true
  swap
  · rw [if_pos (.inl (by simpa using hdigits)), if_neg (fun hadmits => hdigits hadmits.2.2.1)]
  by_cases hover : maxBytes < decimalValue text
  · rw [if_pos (.inr hover), if_neg]
    rintro ⟨-, hfits, -, hsame⟩
    omega
  rw [if_neg (by simp [hdigits, hover])]
  by_cases hzero : decimalValue text = 0
  · -- Nothing is read: the body so far is empty and refused.
    have hnothing : readChunks maxBytes (some (decimalValue text)) (chunks.map .chunk) [] = .ok [] := by
      cases chunks <;> simp [readChunks, hzero]
    rw [hnothing, if_neg]
    · simp [Except.bind, finishRead]
    · rintro ⟨hne, -, -, hsame⟩
      exact hne (List.length_eq_zero_iff.mp (by omega))
  · have hloop := @readChunks_some maxBytes chunks [] (decimalValue text) (by omega)
      (fun _ => h hdigits (by omega) (by omega))
    rw [hloop]
    simp only [List.length_nil, Nat.zero_add, List.nil_append]
    by_cases hsame : chunks.flatten.length = decimalValue text
    · have hne : chunks.flatten ≠ [] := by
        intro hnil
        rw [hnil] at hsame
        exact hzero hsame.symm
      rw [if_pos hsame, if_pos ⟨hne, by omega, hdigits, hsame.symm⟩]
      simp [finishRead, hsame, hne, Except.bind]
    · rw [if_neg hsame, if_neg (fun hadmits => hsame hadmits.2.2.2.symm)]
      rfl

end Outcome

/-- The outcome of a bounded read is a function of the body's bytes exactly when the loop leaves
none of them unread. -/
theorem bounded_read_of_bytes_iff (head : ResponseHead) (chunks : List (List UInt8))
    (maxBytes : ℕ) (hmax : 1 ≤ maxBytes) :
    (∀ loads, readBoundedJsonResponse loads maxBytes (head.chunked chunks) =
      wholeBodyOutcome loads maxBytes head chunks.flatten) ↔ ¬ head.CutShort maxBytes chunks := by
  constructor
  · rintro hsame ⟨hencoding, hcut⟩
    -- With a reader that takes every body, a shortened body is told from a refusal.
    have hanswer := hsame (fun _ => .ok .null)
    rw [readBoundedJsonResponse_eq, if_neg (not_not_intro hencoding)] at hanswer
    cases hlength : head.contentLength with
    | none =>
      rw [hlength] at hcut hanswer
      obtain ⟨taken, hread, htaken⟩ := @readChunks_none_hidden maxBytes chunks [] hmax hcut
      have hne : taken ≠ [] := by
        rintro rfl
        simp at htaken
        omega
      have hlong : ¬ head.Admits maxBytes chunks.flatten := by
        obtain ⟨before, rest, rfl, hbefore, hrest⟩ := hcut
        rintro ⟨-, -, hfits, -⟩
        have hpos := List.length_pos_iff.mpr hrest
        simp only [List.flatten_append, List.flatten_cons, List.length_append] at hfits
        omega
      rw [wholeBodyOutcome, if_neg hlong] at hanswer
      simp [hread, Except.bind, finishRead, hne] at hanswer
    | some text =>
      rw [hlength] at hcut hanswer
      obtain ⟨hdigits, hpositive, hlimit, hcut⟩ := hcut
      obtain ⟨taken, hread, htaken⟩ := @readChunks_some_hidden maxBytes chunks [] (decimalValue text)
        hlimit (Nat.zero_le _) hcut
      have hne : taken ≠ [] := by
        rintro rfl
        simp at htaken
        omega
      have hlong : ¬ head.Admits maxBytes chunks.flatten := by
        obtain ⟨before, rest, rfl, hbefore, hrest⟩ := hcut
        rintro ⟨-, -, -, hdeclared⟩
        have hpos := List.length_pos_iff.mpr hrest
        have hexact := (hdeclared text hlength).2
        rw [List.flatten_append, List.length_append] at hexact
        omega
      rw [wholeBodyOutcome, if_neg hlong] at hanswer
      simp [hread, Except.bind, finishRead, hne, hdigits, hlimit, htaken] at hanswer
  · intro hcut loads
    by_cases hencoding : head.EncodingAllowed
    swap
    · rw [readBoundedJsonResponse_eq, if_pos hencoding, wholeBodyOutcome,
        if_neg (fun hadmits => hencoding hadmits.1)]
    cases hlength : head.contentLength with
    | none =>
      refine readBounded_undeclared hmax hencoding hlength (fun hidden => hcut ⟨hencoding, ?_⟩)
      rwa [hlength]
    | some text =>
      refine readBounded_declared hencoding hlength (fun hdigits hlimit hpositive hidden =>
        hcut ⟨hencoding, ?_⟩)
      rw [hlength]
      exact ⟨hdigits, hpositive, hlimit, hidden⟩

def plainHead : ResponseHead := ⟨200, "", none⟩

def countingLoads (body : List UInt8) : Except ReadFailure Json := .ok (.int body.length)

theorem bounded_read_of_bytes_iff_plain :
    readBoundedJsonResponse countingLoads 4 (plainHead.chunked [[116, 114], [], [117, 101]]) =
      wholeBodyOutcome countingLoads 4 plainHead [116, 114, 117, 101] := by
  refine (bounded_read_of_bytes_iff plainHead [[116, 114], [], [117, 101]] 4 (by decide)).mpr ?_
    countingLoads
  rintro ⟨-, before, rest, hsplit, hlength, hrest⟩
  rcases before with _ | ⟨first, _ | ⟨second, _ | ⟨third, before⟩⟩⟩
  · simp at hlength
  · simp only [List.cons_append, List.nil_append, List.cons.injEq] at hsplit
    rw [← hsplit.1] at hlength
    simp at hlength
  · simp at hsplit
  · simp at hsplit

/-- With a limit of one byte, the body `12` is refused in one chunk. An empty chunk after the first
byte makes the reader accept `1`. -/
theorem empty_chunk_hides_rest :
    (readBoundedJsonResponse countingLoads 1 (plainHead.chunked [[49], [], [50]])).toOption ≠
        (readBoundedJsonResponse countingLoads 1 (plainHead.chunked [[49, 50]])).toOption ∧
      ¬ plainHead.Admits 1 [49, 50] := by
  refine ⟨?_, by decide⟩
  intro hsame
  have hfirst : (readBoundedJsonResponse countingLoads 1
      (plainHead.chunked [[49], [], [50]])).toOption = some (.int 1) := rfl
  have hsecond : (readBoundedJsonResponse countingLoads 1
      (plainHead.chunked [[49, 50]])).toOption = none := rfl
  rw [hfirst, hsecond] at hsame
  cases hsame

end NetboxRpc
