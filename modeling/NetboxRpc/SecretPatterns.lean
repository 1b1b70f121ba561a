import NetboxRpc.Regex

/-!
# Secret patterns of the event ledger

The regular expressions with which `event_store.py` finds secret content in persisted text.
`word` is the Unicode word-character test behind `\b`.
-/

namespace NetboxRpc

open Regex

def chr (c : Char) : Rx := .set (.one c)

def anyChar : CharSet := ⟨true, []⟩

/-- `\s` for text patterns: the Unicode whitespace of Python's `str.isspace`. -/
def spaceRanges : List (Char × Char) :=
  [('\t', '\r'), (Char.ofNat 0x1c, ' '), (Char.ofNat 0x85, Char.ofNat 0x85),
    (Char.ofNat 0xa0, Char.ofNat 0xa0), (Char.ofNat 0x1680, Char.ofNat 0x1680),
    (Char.ofNat 0x2000, Char.ofNat 0x200a), (Char.ofNat 0x2028, Char.ofNat 0x2029),
    (Char.ofNat 0x202f, Char.ofNat 0x202f), (Char.ofNat 0x205f, Char.ofNat 0x205f),
    (Char.ofNat 0x3000, Char.ofNat 0x3000)]

def space : Rx := .set ⟨false, spaceRanges⟩
def blank : Rx := .set (.oneOf [' ', '\t'])
def notBreak : Rx := .set (.noneOf ['\r', '\n'])
def quote : Rx := .set (.oneOf ['"', '\''])

def atLineStart : Rx := .notBehind (.noneOf ['\r', '\n'])

def beforeBreak : Rx := .ahead (alts [chr '\r', chr '\n', .textEnd])

def lineBreak : Rx :=
  alts [lit "\r\n", .seq (chr '\r') (.notAhead (chr '\n')), chr '\n']

def comment : Rx := .seq (chr '#') notBreak.star

def commentAtomic : Rx := .seq (chr '#') notBreak.starAtomic

def nmsSecretReferenceRe : Rx :=
  let hex := CharSet.mk false [('0', '9'), ('a', 'f'), ('A', 'F')]
  let hexes := fun n => Rx.rep .greedy n (some n) (.set hex)
  seqs [lit "nms-secret:", hexes 8, chr '-', hexes 4, chr '-', .set ⟨false, [('1', '5')]⟩,
    hexes 3, chr '-', .set (.oneOf ['8', '9', 'a', 'b', 'A', 'B']), hexes 3, chr '-', hexes 12,
    .textEnd]

def secretKeyFragment : Rx :=
  alts [lit "token", lit "password", lit "passphrase", lit "secret", lit "authorization",
    seqs [lit "api", (Rx.set (.oneOf ['-', '_', '#'])).opt, lit "key"],
    seqs [lit "access", (Rx.set (.oneOf ['-', '_'])).opt, lit "key"],
    seqs [lit "private", (Rx.set (.oneOf ['-', '_'])).opt, lit "key"],
    lit "credential"]

def keyChars : CharSet :=
  ⟨false, [('A', 'Z'), ('a', 'z'), ('0', '9'), ('_', '_'), ('.', '.'), ('-', '-')]⟩

def secretKeyRun : Rx := (Rx.set keyChars).starAtomic

def secretKey : Rx :=
  seqs [.ahead (seqs [quote.opt, (Rx.set keyChars).starLazy, secretKeyFragment]),
    quote.opt, secretKeyRun, quote.opt]

def blockScalar : Rx :=
  let indent := Rx.set ⟨false, [('1', '9')]⟩
  let chomp := Rx.set (.oneOf ['+', '-'])
  seqs [.set (.oneOf ['|', '>']),
    (alts [.seq indent chomp.opt, .seq chomp indent.opt]).opt,
    blank.star, comment.opt, beforeBreak,
    (Rx.seq lineBreak (alts [seqs [.backref "yaml_indent", blank, notBreak.star],
      .seq blank.star beforeBreak])).star]

def pemLabel : CharSet := ⟨false, [('A', 'Z'), ('0', '9'), (' ', ' ')]⟩

def holdsPrivateKey : Rx := .ahead (.seq (Rx.set pemLabel).starLazy (lit "PRIVATE KEY"))

def quotedRun (q : Char) : Rx :=
  alts [.seq (chr q) (chr q), .seq (chr '\\') (alts [.set anyChar, .textEnd]),
    .set (.noneOf [q, '\\'])]

def pemBlockRe : Rx :=
  seqs [lit "-----BEGIN ",
    .group "pem" (.seq holdsPrivateKey (.rep .possessive 1 (some 128) (.set pemLabel))),
    lit "-----", (Rx.set anyChar).starLazy,
    alts [seqs [lit "-----END ", .backref "pem", lit "-----"], .textEnd]]

def openPemBlockRe : Rx :=
  seqs [lit "-----BEGIN ", holdsPrivateKey, (Rx.set pemLabel).starAtomic, lit "-----",
    (Rx.set anyChar).star]

def secretBlockScalarRe : Rx :=
  seqs [atLineStart, .group "yaml_indent" blank.star, (Rx.seq (chr '-') blank.plus).star,
    secretKey, space.star, chr ':', space.star, blockScalar]

def authorizationRe (word : Char → Bool) : Rx :=
  Rx.ignoreCase (seqs [.wordBoundary word, alts [lit "authorization", lit "bearer"],
    space.star, .set (.oneOf [':', '=']), space.star, notBreak.plusLazy,
    .ahead (.seq (chr '\r').opt .lineEnd)])

def secretAssignmentRe : Rx :=
  Rx.ignoreCase (seqs [
    (alts [.seq .lineStart blank.star, .seq (.set (.oneOf [',', '{'])) space.star,
      .seq (chr '-') space.plus]).opt,
    .notBehind keyChars, secretKey, space.starAtomic, .set (.oneOf [':', '=']),
    space.starAtomic,
    alts [seqs [chr '"', (quotedRun '"').star, (chr '"').opt],
      seqs [chr '\'', (quotedRun '\'').star, (chr '\'').opt],
      notBreak.plus]])

def urlCredentialRe : Rx :=
  let scheme := [('0', '9'), ('+', '+'), ('.', '.'), ('-', '-')]
  Rx.ignoreCase (seqs [.notBehind ⟨false, [('A', 'Z'), ('a', 'z')] ++ scheme⟩,
    .set ⟨false, [('a', 'z')]⟩, (Rx.set ⟨false, ('a', 'z') :: scheme⟩).starAtomic, lit "://",
    (Rx.set ⟨true, spaceRanges ++ [('/', '/'), (':', ':'), ('@', '@')]⟩).plus, chr ':',
    (Rx.set ⟨true, spaceRanges ++ [('/', '/'), ('@', '@')]⟩).plus, chr '@'])

def secretContentRe (word : Char → Bool) : Rx :=
  alts [pemBlockRe, openPemBlockRe, secretBlockScalarRe, authorizationRe word, secretAssignmentRe,
    urlCredentialRe]

def byteOrderMark : Char := Char.ofNat 0xfeff

def doubleQuotedLine : Rx :=
  seqs [chr '"', (alts [.seq (chr '\\') notBreak, .set (.noneOf ['"', '\\', '\r', '\n'])]).starAtomic,
    chr '"']

def singleQuotedLine : Rx :=
  seqs [chr '\'', (alts [lit "''", .set (.noneOf ['\'', '\r', '\n'])]).starAtomic, chr '\'']

def yamlBlockScalarHeaderRe : Rx :=
  seqs [atLineStart, (chr byteOrderMark).starAtomic, .group "yaml_indent" blank.starAtomic,
    (Rx.seq (chr '-') blank.plusAtomic).starAtomic, (Rx.seq (chr '?') blank.plusAtomic).optAtomic,
    .ahead (alts [.seq notBreak.starLazy secretKeyFragment.ignoreCase,
      seqs [quote, notBreak.starLazy, chr '\\']]),
    alts [doubleQuotedLine, singleQuotedLine,
      (alts [.set (.noneOf ['\r', '\n', ':', '#']),
        .seq (.notBehind (.oneOf [' ', '\t'])) (chr '#')]).starAtomic],
    (Rx.seq blank.starAtomic commentAtomic).opt, space.star, chr ':',
    (seqs [blank.plus, .set (.oneOf ['&', '!']),
      (Rx.set (.noneOf [' ', '\t', '\r', '\n'])).star]).starAtomic,
    space.star, blockScalar]

def plainKeyChar : Rx :=
  alts [.set (.noneOf ['\r', '\n', ':']),
    .seq (chr ':') (.notAhead (alts [.set (.oneOf [' ', '\t', '\r', '\n']), .textEnd]))]

def yamlRegionBody : Rx :=
  alts [seqs [.backref "yaml_indent", blank, notBreak.starAtomic],
    seqs [blank.starAtomic, commentAtomic.opt, beforeBreak]]

def yamlSingleLineScalar : Rx :=
  .seq blank.plusAtomic (alts [
    seqs [alts [doubleQuotedLine, singleQuotedLine], blank.starAtomic, commentAtomic.opt,
      beforeBreak],
    .seq (.set (.noneOf [' ', '\t', '\r', '\n', '|', '>', '[', '{', '"', '\'', '&', '!', '*',
      '%', '@', '\x60', '#'])) notBreak.starAtomic])

def yamlResolvedExplicitKey : Rx :=
  seqs [alts [
      .seq (alts [seqs [chr '"', (Rx.set (.noneOf ['"', '\\', '\r', '\n'])).starAtomic, chr '"'],
        singleQuotedLine]) blank.starAtomic,
      .seq (.set (.noneOf [' ', '\t', '\r', '\n', '&', '!', '*', '|', '>', '[', '{', '"', '\'',
        '#', '%', '@', '\x60', '?', ':', '-'])) (Rx.set (.noneOf ['\r', '\n', '#'])).starAtomic],
    commentAtomic.opt, lineBreak, .backref "yaml_indent", chr ':']

/-- The key lines of a sensitive YAML value, with the lines after them in one of the groups
`explicit_tail`, `tail` and `region`. -/
def yamlSensitiveValueRe : Rx :=
  let fragment := secretKeyFragment.ignoreCase
  seqs [atLineStart, (chr byteOrderMark).starAtomic, .group "yaml_indent" blank.starAtomic,
    (Rx.seq (chr '-') blank.plusAtomic).starAtomic,
    (seqs [.set (.oneOf ['&', '!']), (Rx.set (.noneOf [' ', '\t', '\r', '\n'])).starAtomic,
      blank.plusAtomic]).starAtomic,
    alts [
      seqs [chr '?', alts [blank.plusAtomic, beforeBreak],
        alts [.ahead (.seq notBreak.starLazy fragment), .notAhead yamlResolvedExplicitKey],
        notBreak.starAtomic, .group "explicit_tail" (Rx.set anyChar).starAtomic],
      seqs [
        .ahead (alts [.seq plainKeyChar.starLazy fragment,
          seqs [chr '"', (alts [.seq (chr '\\') notBreak,
            .set (.noneOf ['"', '\\', '\r', '\n'])]).starLazy, fragment],
          seqs [chr '\'', (alts [lit "''", .set (.noneOf ['\'', '\r', '\n'])]).starLazy,
            fragment],
          seqs [chr '"', (Rx.set (.noneOf ['"', '\\', '\r', '\n'])).starAtomic, chr '\\']]),
        .ahead (seqs [notBreak.starLazy, chr ':',
          alts [.set (.oneOf [' ', '\t', '\r', '\n']), .textEnd]]),
        alts [
          seqs [alts [doubleQuotedLine, singleQuotedLine,
              .seq (.notAhead quote) plainKeyChar.starAtomic],
            blank.starAtomic, chr ':', yamlSingleLineScalar,
            .group "region" (Rx.seq lineBreak yamlRegionBody).starAtomic],
          .seq notBreak.starAtomic (.group "tail" (Rx.set anyChar).starAtomic)]]]]

def flowOpenerRe : Rx := .alt (chr '{') (.seq (chr '[') (.notAhead (lit "REDACTED]")))

def flowSensitiveTokenRe : Rx :=
  alts [secretKeyFragment.ignoreCase, chr '\\',
    seqs [atLineStart, blank.starAtomic, chr '?',
      .ahead (alts [.set (.oneOf [' ', '\t', '\r', '\n']), .textEnd])]]

def quotedKeyEndRe : Rx := seqs [chr '"', blank.starAtomic, chr ':']

def lineBreakRe : Rx := alts [lit "\r\n", chr '\r', chr '\n']

/-! ## What a match cannot do without -/

/-- Characters that neither `[REDACTED-NAME:`, less its `R`, nor a hexadecimal digest holds. -/
def outsideMarker : Char → Bool :=
  CharSet.mem ⟨false, [('g', 'z'), ('G', 'L'), ('O', 'S'), ('U', 'Z'), (' ', ' '), ('/', '/'),
    ('?', '@'), ('=', '='), ('"', '"'), ('\'', '\''), ('\\', '\\'),
    (Char.ofNat 0x130, Char.ofNat 0x131), (Char.ofNat 0x17F, Char.ofNat 0x17F),
    (Char.ofNat 0x212A, Char.ofNat 0x212A)]⟩

def outsidePlaceholder (c : Char) : Bool := outsideMarker c && c != 'R' && c != 'r'

def isAssignment (c : Char) : Bool := c == ':' || c == '='

/-- A text with no assignment, and with fewer dashes than a key block, holds no secret content. -/
theorem secretContentRe_absent (word : Char → Bool) {text : List Char}
    (hassign : text.countP isAssignment = 0) (hdashes : text.countP (· == '-') < 10) :
    (secretContentRe word).Absent text := by
  refine Rx.absent_alts (List.cons_ne_nil _ _) (fun r hr => ?_)
  simp only [List.mem_cons, List.not_mem_nil, or_false] at hr
  rcases hr with rfl | rfl | rfl | rfl | rfl | rfl
  · exact Rx.absent_of_needs (S := (· == '-')) _ (Nat.lt_of_lt_of_le hdashes (by decide +kernel))
  · exact Rx.absent_of_needs (S := (· == '-')) _ (Nat.lt_of_lt_of_le hdashes (by decide +kernel))
  · exact Rx.absent_of_needs (S := isAssignment) _ (Nat.lt_of_le_of_lt hassign.le (by decide +kernel))
  · exact Rx.absent_of_needs (S := isAssignment) _ (Nat.lt_of_le_of_lt hassign.le (Nat.le_of_eq rfl))
  · exact Rx.absent_of_needs (S := isAssignment) _ (Nat.lt_of_le_of_lt hassign.le (by decide +kernel))
  · exact Rx.absent_of_needs (S := isAssignment) _ (Nat.lt_of_le_of_lt hassign.le (by decide +kernel))

theorem secretContentRe_needs_two (word : Char → Bool) :
    (secretContentRe word).needs outsideMarker = 2 := (rfl)

theorem yamlBlockScalarHeaderRe_needs : yamlBlockScalarHeaderRe.needs (· == ':') = 1 := by
  decide +kernel

theorem yamlBlockScalarHeaderRe_needs_word :
    yamlBlockScalarHeaderRe.needs outsidePlaceholder = 1 := by
  decide +kernel

theorem yamlSensitiveValueRe_needs :
    yamlSensitiveValueRe.needs (fun c => c == ':' || c == '?') = 1 := by
  decide +kernel

theorem yamlSensitiveValueRe_needs_word : yamlSensitiveValueRe.needs outsidePlaceholder = 1 := by
  decide +kernel

theorem flowSensitiveTokenRe_needs_word : flowSensitiveTokenRe.needs outsidePlaceholder = 1 := by
  decide +kernel

theorem flowOpenerRe_needs : flowOpenerRe.needs (fun c => c == '{' || c == '[') = 1 := by
  decide +kernel

end NetboxRpc
