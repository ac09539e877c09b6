import TagLint.Proofs.Literal.Grammar
import TagLint.Proofs.Literal.Provenance

/-!
# What unescaping accepts

`unescape_grammar` puts the grammar of interpreted bodies to work. Unescaping succeeds exactly on
the sequences of tokens and decodes the bytes they stand for; otherwise it tells where the longest
sequence of tokens ends and what stands there. Two remarks on the way this is computed belong to
it: a body without a quote, a backslash or a newline is its own content, so it need not be read at
all (`borrow?`), and the values met while digits are read fit 32 bits (`accumulated_lt`,
`octal_apart`).
-/

namespace TagLint.Literal

/-! ## Bodies that are their own content -/

/-- A body with nothing to resolve and nothing to refuse, taken as it is. -/
def borrow? (body : List Char) : Option Unquoted :=
  if body.all fun c => c != '"' && c != '\\' && c != '\n' then some ⟨body, .identity⟩ else none

theorem anchorsFrom_plain (content body : Nat) (cs : List Char) :
    OffsetMap.anchorsFrom content body (cs.map Token.plain) = [] := by
  induction cs generalizing content body with
  | nil => rfl
  | cons c cs ih =>
    have hshrinks : (Token.plain c).shrinks = false := by
      simp [Token.shrinks, Token.width_plain]
    simp [OffsetMap.anchorsFrom, hshrinks, ih]

theorem ofTokens_plain (cs : List Char) :
    Unquoted.ofTokens (cs.map Token.plain) = ⟨cs, .identity⟩ := by
  have hbytes : contentBytes (cs.map Token.plain) = Text.utf8 cs := by
    simp [contentBytes, List.flatMap_map, Token.plain, Text.utf8]
  rw [Unquoted.ofTokens, hbytes, Text.decodeLossy_utf8, OffsetMap.ofTokens, anchorsFrom_plain]
  rfl

theorem sources_plain (cs : List Char) : sources (cs.map Token.plain) = cs := by
  simp [sources, List.flatMap_map, Token.plain]

/-- A body taken as it is would have been read as that. -/
theorem map_ofTokens_of_borrow? {body : List Char} {unquoted : Unquoted}
    (h : borrow? body = some unquoted) :
    (tokens .interpreted body).map Unquoted.ofTokens = .ok unquoted := by
  unfold borrow? at h
  split at h
  · next hplain =>
    obtain rfl := Option.some.inj h
    have htokens : ∀ token ∈ body.map Token.plain, IsToken token := by
      intro token htoken
      obtain ⟨c, hc, rfl⟩ := List.mem_map.1 htoken
      have hother : (c ≠ '"' ∧ c ≠ '\\') ∧ c ≠ '\n' := by
        simpa using List.all_eq_true.1 hplain c hc
      obtain ⟨⟨hquote, hbackslash⟩, hnewline⟩ := hother
      exact .plain hquote hbackslash hnewline
    have hread : tokens .interpreted body = .ok (body.map Token.plain) :=
      interpretedTokens_eq_ok_iff.2 ⟨htokens, sources_plain body⟩
    rw [hread]
    exact congrArg Except.ok (ofTokens_plain body)
  · cases h

/-! ## Digits -/

/-- One digit more than has been read so far fits 32 bits, the last one included. -/
theorem accumulated_lt {escape : NumericEscape} (hescape : escape ∈ numericEscapes)
    {digits : List Char} {value : Nat} (hshort : digits.length < escape.digits)
    (hvalue : Text.numeral? escape.base digits = some value) :
    value * escape.base + (escape.base - 1) < UInt32.size := by
  have hwhole : ∀ escape ∈ numericEscapes, 0 < escape.base ∧
      escape.base ^ escape.digits ≤ UInt32.size := by
    simp [numericEscapes, NumericEscape.hexByte, NumericEscape.shortScalar,
      NumericEscape.longScalar, NumericEscape.octalByte, UInt32.size]
  obtain ⟨hpos, hsize⟩ := hwhole escape hescape
  have hnumeral := (Text.numeral?_eq_some_iff (base_le_of_mem hescape)).1 hvalue
  have hgrow := Nat.mul_le_mul_right escape.base (Nat.succ_le_of_lt hnumeral.lt_pow)
  have hpow : escape.base ^ digits.length * escape.base ≤ escape.base ^ escape.digits := by
    rw [← Nat.pow_succ]
    exact Nat.pow_le_pow_right hpos hshort
  rw [Nat.succ_mul] at hgrow
  omega

/-- The first of three octal digits may be read before the other two. -/
theorem octal_apart {c : Char} {digits : List Char} {high low : Nat} (hlength : digits.length = 2)
    (hhigh : Text.digit? 8 c = some high) (hlow : Text.numeral? 8 digits = some low) :
    Text.numeral? 8 (c :: digits) = some (high * 64 + low) ∧ high * 64 + low < UInt32.size := by
  have hwhole := Text.numeral?_cons hhigh hlow
  rw [hlength] at hwhole
  have hbound := ((Text.numeral?_eq_some_iff (by decide)).1 hwhole).lt_pow
  rw [List.length_cons, hlength] at hbound
  exact ⟨hwhole, Nat.lt_of_lt_of_le hbound (by decide)⟩

/-! ## Unescaping -/

theorem unescape_eq_ok_iff {body content : List Char} :
    unescape body = .ok content ↔ ∃ tokens : List Token, (∀ token ∈ tokens, IsToken token) ∧
      sources tokens = body ∧ Text.decodeLossy (contentBytes tokens) = content := by
  constructor
  · intro h
    obtain ⟨found, hfound, hcontent⟩ := ok_of_map_eq_ok h
    obtain ⟨htokens, hsources⟩ := interpretedTokens_eq_ok_iff.1 hfound
    exact ⟨found, htokens, hsources, hcontent⟩
  · rintro ⟨found, htokens, hsources, rfl⟩
    have hread : tokens .interpreted body = .ok found :=
      interpretedTokens_eq_ok_iff.2 ⟨htokens, hsources⟩
    rw [unescape, hread]
    rfl

theorem unescape_eq_error_iff {body : List Char} {error : UnquoteError} :
    unescape body = .error error ↔ ∃ tokens c rest, IsLongest body tokens ∧
      sources tokens ++ c :: rest = body ∧
      faultAt? (Text.byteLength (sources tokens)) c = some error := by
  have hread : unescape body = .error error ↔ interpretedTokens 0 body = .error error := by
    rw [unescape, tokens]
    cases interpretedTokens 0 body <;> simp [Except.map]
  rw [hread, interpretedTokens_eq_error_iff]
  simp only [Nat.zero_add]

/-- **Grammar.** Unescaping gives a content exactly if tokens spell the body, and then it is what
their bytes decode to. It fails exactly if they do not: the longest sequence of tokens that the
body begins with ends at the offset of the error, and the quote, newline or backslash standing
there is the kind of it. A body that is taken as it is would have been read as that, and reading
digits stays below 32 bits, also where the first of three octal digits is read before the other
two. -/
theorem unescape_grammar (body : List Char) :
    (∀ content, unescape body = .ok content ↔
      ∃ tokens : List Token, (∀ token ∈ tokens, IsToken token) ∧ sources tokens = body ∧
        Text.decodeLossy (contentBytes tokens) = content) ∧
      (∀ error, unescape body = .error error ↔
        ∃ tokens c rest, IsLongest body tokens ∧ sources tokens ++ c :: rest = body ∧
          faultAt? (Text.byteLength (sources tokens)) c = some error) ∧
      (∀ unquoted, borrow? body = some unquoted →
        (tokens .interpreted body).map Unquoted.ofTokens = .ok unquoted) ∧
      (∀ escape ∈ numericEscapes, ∀ digits value, digits.length < escape.digits →
        Text.numeral? escape.base digits = some value →
          value * escape.base + (escape.base - 1) < UInt32.size) ∧
      ∀ c digits high low, digits.length = 2 → Text.digit? 8 c = some high →
        Text.numeral? 8 digits = some low →
          Text.numeral? 8 (c :: digits) = some (high * 64 + low) ∧
            high * 64 + low < UInt32.size := by
  refine ⟨fun content => unescape_eq_ok_iff, fun error => unescape_eq_error_iff, ?_, ?_, ?_⟩
  · intro unquoted h
    exact map_ofTokens_of_borrow? h
  · intro escape hescape digits value hshort hvalue
    exact accumulated_lt hescape hshort hvalue
  · intro c digits high low hlength hhigh hlow
    exact octal_apart hlength hhigh hlow

/-- An escape of each kind, a surrogate after some tokens, a body taken as it is, and the digits
of the longest escape and of the largest octal number. -/
theorem unescape_grammar_escapes :
    (∃ tokens : List Token, (∀ token ∈ tokens, IsToken token) ∧
      sources tokens = "\\n\\x41\\u00e9\\U0001F600\\101\\377é".toList ∧
        Text.decodeLossy (contentBytes tokens) = "\nAé😀A\uFFFDé".toList) ∧
      (∃ tokens c rest, IsLongest "é\\\"\\ud800".toList tokens ∧
        sources tokens ++ c :: rest = "é\\\"\\ud800".toList ∧
          faultAt? (Text.byteLength (sources tokens)) c = some (.invalidEscape 4)) ∧
      (tokens .interpreted "omitempty,é".toList).map Unquoted.ofTokens =
        .ok ⟨"omitempty,é".toList, .identity⟩ ∧
      0xFFFFFFF * 16 + 15 < UInt32.size ∧
      Text.numeral? 8 "777".toList = some (7 * 64 + 63) := by
  have hok : unescape "\\n\\x41\\u00e9\\U0001F600\\101\\377é".toList =
      .ok "\nAé😀A\uFFFDé".toList := by
    decide +kernel
  have herror : unescape "é\\\"\\ud800".toList = .error (.invalidEscape 4) := by
    decide +kernel
  have hborrow : borrow? "omitempty,é".toList = some ⟨"omitempty,é".toList, .identity⟩ := by
    decide
  have hdigits : Text.numeral? 16 "FFFFFFF".toList = some 0xFFFFFFF := by decide
  refine ⟨((unescape_grammar _).1 _).1 hok, ((unescape_grammar _).2.1 _).1 herror,
    (unescape_grammar _).2.2.1 _ hborrow, ?_, ?_⟩
  · exact (unescape_grammar []).2.2.2.1 .longScalar (by simp [numericEscapes]) _ _ (by decide)
      hdigits
  · exact ((unescape_grammar []).2.2.2.2 '7' "77".toList 7 63 (by decide) (by decide)
      (by decide)).1

end TagLint.Literal
