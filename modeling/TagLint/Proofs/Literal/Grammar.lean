import TagLint.Proofs.Literal.Tokens
import TagLint.Proofs.Text.Numeral

/-!
# The grammar of interpreted bodies

An interpreted body is a sequence of tokens, and this module says which tokens there are
without saying how they are found: plain characters, and the escape sequences of the language
(`IsEscape`). Reading a body finds such a sequence if there is one
(`interpretedTokens_eq_ok_iff`). If there is none it stops after the longest sequence that the
body begins with, and the character there says what is wrong
(`interpretedTokens_eq_error_iff`). A backslash there is the last character, or what follows it
is no escape sequence in one of three ways (`BadEscape`).
-/

namespace TagLint.Literal

/-- The letters and signs that name a byte after a backslash. -/
def namedEscapes : List (Char × UInt8) :=
  [('a', 0x07), ('b', 0x08), ('f', 0x0C), ('n', 0x0A), ('r', 0x0D), ('t', 0x09), ('v', 0x0B),
    ('\\', 0x5C), ('"', 0x22)]

/-- The escape sequences with what they stand for. Two digits in base sixteen and three in base
eight stand for one byte, so the latter reach no further than 377; four and eight digits in base
sixteen stand for a character, so they spell no surrogate and nothing past the last one. -/
inductive IsEscape : Token → Prop
  | named {c : Char} {byte : UInt8} : (c, byte) ∈ namedEscapes → IsEscape ⟨['\\', c], [byte]⟩
  | hexByte {digits : List Char} {byte : UInt8} : digits.length = 2 →
      Text.IsNumeral 16 digits byte.toNat → IsEscape ⟨'\\' :: 'x' :: digits, [byte]⟩
  | shortScalar {digits : List Char} {c : Char} : digits.length = 4 →
      Text.IsNumeral 16 digits c.toNat →
      IsEscape ⟨'\\' :: 'u' :: digits, String.utf8EncodeChar c⟩
  | longScalar {digits : List Char} {c : Char} : digits.length = 8 →
      Text.IsNumeral 16 digits c.toNat →
      IsEscape ⟨'\\' :: 'U' :: digits, String.utf8EncodeChar c⟩
  | octalByte {digits : List Char} {byte : UInt8} : digits.length = 3 →
      Text.IsNumeral 8 digits byte.toNat → IsEscape ⟨'\\' :: digits, [byte]⟩

/-- The tokens of interpreted bodies. -/
inductive IsToken : Token → Prop
  | plain {c : Char} : c ≠ '"' → c ≠ '\\' → c ≠ '\n' → IsToken (.plain c)
  | escape {token : Token} : IsEscape token → IsToken token

/-! ## Escape sequences -/

theorem namedEscape?_eq_some_iff {c : Char} {byte : UInt8} :
    namedEscape? c = some byte ↔ (c, byte) ∈ namedEscapes := by
  constructor
  · intro h
    unfold namedEscape? at h
    split at h
    case h_10 => cases h
    all_goals
      obtain rfl := Option.some.inj h
      decide
  · intro h
    have hread : ∀ entry ∈ namedEscapes, namedEscape? entry.1 = some entry.2 := by decide
    exact hread (c, byte) h

theorem byte?_eq_some_iff {value : Nat} {bytes : List UInt8} :
    byte? value = some bytes ↔ ∃ byte : UInt8, byte.toNat = value ∧ [byte] = bytes := by
  unfold byte?
  constructor
  · intro h
    split at h
    · next hvalue =>
      exact ⟨value.toUInt8, UInt8.toNat_ofNat_of_lt' hvalue, Option.some.inj h⟩
    · cases h
  · rintro ⟨byte, rfl, rfl⟩
    rw [if_pos byte.toNat_lt]
    simp

theorem scalar?_eq_some_iff {value : Nat} {bytes : List UInt8} :
    scalar? value = some bytes ↔
      ∃ c : Char, c.toNat = value ∧ String.utf8EncodeChar c = bytes := by
  unfold scalar?
  constructor
  · intro h
    split at h
    · next hvalue =>
      refine ⟨Char.ofNat value, ?_, Option.some.inj h⟩
      rw [Char.ofNat, dif_pos hvalue]
      rfl
    · cases h
  · rintro ⟨c, rfl, rfl⟩
    have hvalid : c.toNat.isValidChar := c.valid
    rw [if_pos hvalid, Char.ofNat_toNat]

/-- The families of escape sequences that end in digits. -/
def numericEscapes : List NumericEscape :=
  [.hexByte, .shortScalar, .longScalar, .octalByte]

theorem base_le_of_mem {escape : NumericEscape} (h : escape ∈ numericEscapes) :
    escape.base ≤ 16 := by
  revert escape
  simp [numericEscapes, NumericEscape.hexByte, NumericEscape.shortScalar,
    NumericEscape.longScalar, NumericEscape.octalByte]

section Numeric

variable {escape : NumericEscape} {cs digits rest : List Char} {token : Token} {value : Nat}
  {bytes : List UInt8}

theorem isEscape_of_read? (hescape : escape ∈ numericEscapes)
    (h : escape.read? cs = some (token, rest)) : IsEscape token := by
  unfold NumericEscape.read? at h
  dsimp only at h
  split at h
  · next hlength =>
    obtain ⟨value, hvalue, h⟩ := Option.bind_eq_some_iff.1 h
    obtain ⟨bytes, hbytes, h⟩ := Option.bind_eq_some_iff.1 h
    simp only [pure, Option.some.injEq, Prod.mk.injEq] at h
    obtain ⟨rfl, -⟩ := h
    rw [Text.numeral?_eq_some_iff (base_le_of_mem hescape)] at hvalue
    simp only [numericEscapes, List.mem_cons, List.not_mem_nil, or_false] at hescape
    rcases hescape with rfl | rfl | rfl | rfl
    · obtain ⟨byte, rfl, rfl⟩ := byte?_eq_some_iff.1 hbytes
      exact .hexByte hlength hvalue
    · obtain ⟨c, rfl, rfl⟩ := scalar?_eq_some_iff.1 hbytes
      exact .shortScalar hlength hvalue
    · obtain ⟨c, rfl, rfl⟩ := scalar?_eq_some_iff.1 hbytes
      exact .longScalar hlength hvalue
    · obtain ⟨byte, rfl, rfl⟩ := byte?_eq_some_iff.1 hbytes
      exact .octalByte hlength hvalue
  · cases h

/-- Digits that spell a value with a meaning are read, whatever follows them. -/
theorem NumericEscape.read?_append (hbase : escape.base ≤ 16)
    (hlength : digits.length = escape.digits) (hvalue : Text.IsNumeral escape.base digits value)
    (hbytes : escape.bytes? value = some bytes) (rest : List Char) :
    escape.read? (digits ++ rest) = some (⟨'\\' :: (escape.mark ++ digits), bytes⟩, rest) := by
  have htake : (digits ++ rest).take escape.digits = digits := List.take_left' hlength
  have hdrop : (digits ++ rest).drop escape.digits = rest := List.drop_left' hlength
  have hnumeral := (Text.numeral?_eq_some_iff hbase).2 hvalue
  simp [read?, htake, hdrop, hlength, hnumeral, hbytes]

end Numeric

/-- A digit in base eight is the mark of no other escape sequence. -/
theorem not_mark_of_octal {c : Char} {value : Nat} (h : Text.IsDigitOf 8 c value) :
    c ≠ 'x' ∧ c ≠ 'u' ∧ c ≠ 'U' ∧ namedEscape? c = none := by
  have hcase : ∀ value < 8, value.digitChar.toUpper = value.digitChar := by decide
  have hdigit : ∀ value < 8, value.digitChar ≠ 'x' ∧ value.digitChar ≠ 'u' ∧
      value.digitChar ≠ 'U' ∧ namedEscape? value.digitChar = none := by
    decide
  obtain ⟨hvalue, rfl | rfl⟩ := h
  · exact hdigit value hvalue
  · rw [hcase value hvalue]
    exact hdigit value hvalue

theorem isEscape_of_escape? {cs rest : List Char} {token : Token}
    (h : escape? cs = some (token, rest)) : IsEscape token := by
  unfold escape? at h
  split at h
  · cases h
  · exact isEscape_of_read? (by simp [numericEscapes]) h
  · exact isEscape_of_read? (by simp [numericEscapes]) h
  · exact isEscape_of_read? (by simp [numericEscapes]) h
  · split at h
    · next byte hnamed =>
      obtain ⟨rfl, -⟩ := Prod.mk.inj (Option.some.inj h)
      exact .named (namedEscape?_eq_some_iff.1 hnamed)
    · exact isEscape_of_read? (by simp [numericEscapes]) h

/-- An escape sequence is read, whatever follows it. -/
theorem IsEscape.escape?_append {token : Token} (h : IsEscape token) :
    ∃ tail, token.source = '\\' :: tail ∧ ∀ rest, escape? (tail ++ rest) = some (token, rest) := by
  -- The mark alone tells which constructor it is, so no other branch of the reader is taken.
  cases h with
  | @named c byte hmem =>
    refine ⟨[c], rfl, ?_⟩
    intro rest
    have hletter : ∀ entry ∈ namedEscapes, entry.1 ≠ 'x' ∧ entry.1 ≠ 'u' ∧ entry.1 ≠ 'U' := by
      decide
    obtain ⟨hx, hu, hU⟩ := hletter _ hmem
    rw [List.singleton_append, escape?_cons hx hu hU, namedEscape?_eq_some_iff.2 hmem]
  | @hexByte digits byte hlength hvalue =>
    refine ⟨'x' :: digits, rfl, ?_⟩
    exact NumericEscape.read?_append (by decide) hlength hvalue
      (byte?_eq_some_iff.2 ⟨byte, rfl, rfl⟩)
  | @shortScalar digits c hlength hvalue =>
    refine ⟨'u' :: digits, rfl, ?_⟩
    exact NumericEscape.read?_append (by decide) hlength hvalue
      (scalar?_eq_some_iff.2 ⟨c, rfl, rfl⟩)
  | @longScalar digits c hlength hvalue =>
    refine ⟨'U' :: digits, rfl, ?_⟩
    exact NumericEscape.read?_append (by decide) hlength hvalue
      (scalar?_eq_some_iff.2 ⟨c, rfl, rfl⟩)
  | @octalByte digits byte hlength hvalue =>
    refine ⟨digits, rfl, ?_⟩
    intro rest
    have hread := @NumericEscape.read?_append .octalByte digits _ _ (by decide) hlength hvalue
      (byte?_eq_some_iff.2 ⟨byte, rfl, rfl⟩) rest
    cases digits with
    | nil => cases hlength
    | cons c digits =>
    obtain ⟨first, hfirst⟩ := hvalue.isDigitOf_of_mem c List.mem_cons_self
    obtain ⟨hx, hu, hU, hnamed⟩ := not_mark_of_octal hfirst
    rw [List.cons_append, escape?_cons hx hu hU, hnamed]
    exact hread

/-- An escape sequence is read where one stands, and nowhere else. -/
theorem escape?_eq_some_iff {cs rest : List Char} {token : Token} :
    escape? cs = some (token, rest) ↔ IsEscape token ∧ token.source ++ rest = '\\' :: cs := by
  constructor
  · intro h
    exact ⟨isEscape_of_escape? h, source_append_of_escape? h⟩
  · rintro ⟨hescape, hsource⟩
    obtain ⟨tail, htail, hread⟩ := hescape.escape?_append
    rw [htail] at hsource
    obtain rfl : tail ++ rest = cs := (List.cons.inj hsource).2
    exact hread rest

/-! ## Backslashes that begin no escape sequence -/

/-- The digits of a numeric escape sequence come first in a text. -/
def NumericEscape.Spells (escape : NumericEscape) (cs : List Char) (value : Nat) : Prop :=
  ∃ digits rest, cs = digits ++ rest ∧ digits.length = escape.digits ∧
    Text.IsNumeral escape.base digits value

/-- The text after a backslash tells which numeric escape sequence it is meant to be: by the mark,
or by a digit in base eight. The digits are looked for in the second text. -/
inductive Announces : NumericEscape → List Char → List Char → Prop
  | hexByte {cs : List Char} : Announces .hexByte ('x' :: cs) cs
  | shortScalar {cs : List Char} : Announces .shortScalar ('u' :: cs) cs
  | longScalar {cs : List Char} : Announces .longScalar ('U' :: cs) cs
  | octalByte {c : Char} {value : Nat} {cs : List Char} : Text.IsDigitOf 8 c value →
      Announces .octalByte (c :: cs) (c :: cs)

/-- The text after a backslash is that of no escape sequence. The character there is unknown, or
the digits it announces are missing, or they spell a value that stands for nothing. -/
inductive BadEscape : List Char → Prop
  | unknown {c : Char} {cs : List Char} : (∀ byte, (c, byte) ∉ namedEscapes) →
      (∀ escape digits, ¬ Announces escape (c :: cs) digits) → BadEscape (c :: cs)
  | malformed {escape : NumericEscape} {text cs : List Char} : Announces escape text cs →
      (∀ value, ¬ escape.Spells cs value) → BadEscape text
  | outOfRange {escape : NumericEscape} {text cs : List Char} {value : Nat} :
      Announces escape text cs → escape.Spells cs value → escape.bytes? value = none →
      BadEscape text

theorem BadEscape.ne_nil {text : List Char} (h : BadEscape text) : text ≠ [] := by
  rintro rfl
  cases h with
  | malformed h => cases h
  | outOfRange h => cases h

theorem Announces.base_le {escape : NumericEscape} {text cs : List Char}
    (h : Announces escape text cs) : escape.base ≤ 16 := by
  cases h <;> decide

theorem Announces.escape?_eq {escape : NumericEscape} {text cs : List Char}
    (h : Announces escape text cs) : escape? text = escape.read? cs := by
  cases h with
  | hexByte => rfl
  | shortScalar => rfl
  | longScalar => rfl
  | octalByte hc =>
    obtain ⟨hx, hu, hU, hnamed⟩ := not_mark_of_octal hc
    rw [escape?_cons hx hu hU, hnamed]

theorem NumericEscape.Spells.unique {escape : NumericEscape} (hbase : escape.base ≤ 16)
    {cs : List Char} {first second : Nat} (hfirst : escape.Spells cs first)
    (hsecond : escape.Spells cs second) : first = second := by
  obtain ⟨digits, rest, rfl, hlength, hdigits⟩ := hfirst
  obtain ⟨others, later, hsame, hlength', hothers⟩ := hsecond
  obtain ⟨rfl, -⟩ := List.append_inj hsame (hlength.trans hlength'.symm)
  rw [← Text.numeral?_eq_some_iff hbase] at hdigits hothers
  exact Option.some.inj (hdigits.symm.trans hothers)

theorem NumericEscape.read?_eq_none_iff {escape : NumericEscape} (hbase : escape.base ≤ 16)
    {cs : List Char} :
    escape.read? cs = none ↔ ∀ value, escape.Spells cs value → escape.bytes? value = none := by
  constructor
  · rintro h value ⟨digits, rest, rfl, hlength, hvalue⟩
    cases hbytes : escape.bytes? value with
    | none => rfl
    | some bytes => cases h.symm.trans (read?_append hbase hlength hvalue hbytes rest)
  · intro h
    unfold read?
    dsimp only
    split
    · next hlength =>
      cases hnumeral : Text.numeral? escape.base (cs.take escape.digits) with
      | none => rfl
      | some value =>
        have hvalue := (Text.numeral?_eq_some_iff hbase).1 hnumeral
        have hnone := h value
          ⟨_, cs.drop escape.digits, (List.take_append_drop _ _).symm, hlength, hvalue⟩
        simp [hnone]
    · rfl

theorem BadEscape.escape?_eq_none {text : List Char} (h : BadEscape text) :
    escape? text = none := by
  cases h with
  | @unknown c cs hnamed hannounces =>
    have hx : c ≠ 'x' := by rintro rfl; exact hannounces _ _ .hexByte
    have hu : c ≠ 'u' := by rintro rfl; exact hannounces _ _ .shortScalar
    have hU : c ≠ 'U' := by rintro rfl; exact hannounces _ _ .longScalar
    have hnone : namedEscape? c = none :=
      Option.eq_none_iff_forall_not_mem.2 fun byte h => hnamed byte (namedEscape?_eq_some_iff.1 h)
    rw [escape?_cons hx hu hU, hnone]
    refine (NumericEscape.read?_eq_none_iff (by decide)).2 ?_
    rintro value ⟨digits, rest, hcs, hlength, hvalue⟩
    cases digits with
    | nil => cases hlength
    | cons d digits =>
    obtain ⟨rfl, -⟩ := List.cons.inj hcs
    obtain ⟨first, hfirst⟩ := hvalue.isDigitOf_of_mem c List.mem_cons_self
    exact absurd (.octalByte hfirst) (hannounces _ _)
  | malformed hannounces hspells =>
    rw [hannounces.escape?_eq, NumericEscape.read?_eq_none_iff hannounces.base_le]
    intro value hvalue
    exact absurd hvalue (hspells value)
  | outOfRange hannounces hspells hbytes =>
    rw [hannounces.escape?_eq, NumericEscape.read?_eq_none_iff hannounces.base_le]
    intro other hother
    rwa [hother.unique hannounces.base_le hspells]

/-- Where no escape sequence can be read after a backslash, the text is over or it is a bad one. -/
theorem escape?_eq_none_iff {text : List Char} :
    escape? text = none ↔ text = [] ∨ BadEscape text := by
  constructor
  · intro h
    by_cases hannounced : ∃ escape cs, Announces escape text cs
    · right
      obtain ⟨escape, cs, hannounces⟩ := hannounced
      rw [hannounces.escape?_eq, NumericEscape.read?_eq_none_iff hannounces.base_le] at h
      by_cases hspells : ∃ value, escape.Spells cs value
      · obtain ⟨value, hvalue⟩ := hspells
        exact .outOfRange hannounces hvalue (h value hvalue)
      · exact .malformed hannounces (not_exists.1 hspells)
    · cases text with
      | nil => exact .inl rfl
      | cons c cs =>
        right
        refine .unknown ?_ fun escape digits hdigits => hannounced ⟨escape, digits, hdigits⟩
        intro byte hmem
        obtain ⟨tail, htail, hread⟩ := (IsEscape.named hmem).escape?_append
        obtain rfl : [c] = tail := (List.cons.inj htail).2
        cases h.symm.trans (hread cs)
  · rintro (rfl | hbad)
    · rfl
    · exact hbad.escape?_eq_none

/-! ## Where a token begins -/

theorem IsToken.proper {token : Token} (h : IsToken token) : token.Proper .interpreted := by
  cases h with
  | plain hquote hbackslash hnewline => exact proper_plain hquote hnewline hbackslash
  | escape h =>
    obtain ⟨tail, -, hread⟩ := h.escape?_append
    exact proper_of_escape? (hread [])

/-- A token stands at the start of the text. -/
def BeginsToken (text : List Char) : Prop := ∃ token, IsToken token ∧ token.source <+: text

theorem not_beginsToken_newline (cs : List Char) : ¬ BeginsToken ('\n' :: cs) := by
  rintro ⟨token, htoken, rest, hsource⟩
  cases htoken with
  | plain _ _ hnewline => exact hnewline (List.cons.inj hsource).1
  | escape h =>
    obtain ⟨tail, htail, -⟩ := h.escape?_append
    rw [htail] at hsource
    exact absurd (List.cons.inj hsource).1 (by decide)

theorem not_beginsToken_backslash_iff {cs : List Char} :
    ¬ BeginsToken ('\\' :: cs) ↔ cs = [] ∨ BadEscape cs := by
  rw [← escape?_eq_none_iff]
  constructor
  · intro h
    refine Option.eq_none_iff_forall_not_mem.2 ?_
    rintro ⟨token, rest⟩ hescape
    obtain ⟨htoken, hsource⟩ := escape?_eq_some_iff.1 hescape
    exact h ⟨token, .escape htoken, rest, hsource⟩
  · rintro hnone ⟨token, htoken, rest, hsource⟩
    cases htoken with
    | plain _ hbackslash _ => exact hbackslash (List.cons.inj hsource).1
    | escape h => cases hnone.symm.trans (escape?_eq_some_iff.2 ⟨h, hsource⟩)

/-- What is wrong with a character that begins no token. -/
def faultAt? (offset : Offset) : Char → Option UnquoteError
  | '"' => some (.strayDelimiter offset)
  | '\n' => some (.newline offset)
  | '\\' => some (.invalidEscape offset)
  | _ => none

/-- Where no token begins, reading stops with the fault of the character there. -/
theorem interpretedTokens_of_not_beginsToken {c : Char} {cs : List Char}
    (h : ¬ BeginsToken (c :: cs)) (offset : Offset) : ∃ error,
    faultAt? offset c = some error ∧ interpretedTokens offset (c :: cs) = .error error := by
  by_cases hquote : c = '"'
  · subst hquote
    exact ⟨_, rfl, by rw [interpretedTokens, if_pos (by decide)]⟩
  · by_cases hnewline : c = '\n'
    · subst hnewline
      exact ⟨_, rfl, by rw [interpretedTokens, if_neg (by decide), if_pos rfl]⟩
    · by_cases hbackslash : c = '\\'
      · subst hbackslash
        refine ⟨_, rfl, ?_⟩
        rw [interpretedTokens, if_neg (by decide), if_neg (by decide), if_pos rfl]
        split
        · next token rest hescape =>
          obtain ⟨htoken, hsource⟩ := escape?_eq_some_iff.1 hescape
          exact absurd ⟨token, .escape htoken, rest, hsource⟩ h
        · rfl
      · exact absurd ⟨.plain c, .plain hquote hbackslash hnewline, cs, rfl⟩ h

theorem IsToken.length_pos {token : Token} (h : IsToken token) : 0 < token.source.length := by
  cases h with
  | plain => exact Nat.one_pos
  | escape h => cases h <;> exact Nat.succ_pos _

/-- Tokens can be taken off the front of a body until none begins there. -/
theorem exists_tokens_append (body : List Char) : ∃ tokens rest,
    (∀ token ∈ tokens, IsToken token) ∧ sources tokens ++ rest = body ∧ ¬ BeginsToken rest := by
  induction hlength : body.length using Nat.strongRecOn generalizing body with
  | ind n ih =>
    by_cases hbegins : BeginsToken body
    · obtain ⟨token, htoken, later, rfl⟩ := hbegins
      have hpos := htoken.length_pos
      rw [List.length_append] at hlength
      obtain ⟨tokens, rest, htokens, rfl, hrest⟩ := ih later.length (by omega) later rfl
      refine ⟨token :: tokens, rest, List.forall_mem_cons.2 ⟨htoken, htokens⟩, ?_, hrest⟩
      rw [sources_cons, List.append_assoc]
    · exact ⟨[], body, by simp, rfl, hbegins⟩

/-- Tokens at the front of a body are read, whatever follows them. -/
theorem interpretedTokens_append {tokens : List Token} (h : ∀ token ∈ tokens, IsToken token)
    (offset : Offset) (rest : List Char) :
    interpretedTokens offset (sources tokens ++ rest) =
      (interpretedTokens (offset + Text.byteLength (sources tokens)) rest).map (tokens ++ ·) := by
  induction tokens generalizing offset with
  | nil =>
    show interpretedTokens offset rest = (interpretedTokens offset rest).map ([] ++ ·)
    cases interpretedTokens offset rest <;> rfl
  | cons token tokens ih =>
    obtain ⟨htoken, htokens⟩ := List.forall_mem_cons.1 h
    have hfirst : interpretedTokens offset (token.source ++ (sources tokens ++ rest)) =
        (interpretedTokens (offset + token.width) (sources tokens ++ rest)).map (token :: ·) :=
      htoken.proper.reads offset _
    rw [byteLength_sources_cons, sources_cons, List.append_assoc, hfirst, ih htokens,
      Nat.add_assoc]
    cases interpretedTokens (offset + (token.width + Text.byteLength (sources tokens))) rest <;>
      rfl

/-! ## The longest sequence of tokens -/

/-- The tokens are the longest sequence that the body begins with. -/
structure IsLongest (body : List Char) (tokens : List Token) : Prop where
  isToken : ∀ token ∈ tokens, IsToken token
  begins : sources tokens <+: body
  longest : ∀ others : List Token, (∀ token ∈ others, IsToken token) →
    sources others <+: body →
    Text.byteLength (sources others) ≤ Text.byteLength (sources tokens)

/-- No text begins with two different tokens. -/
theorem IsToken.unique {first second : Token} {cs ds : List Char} (hfirst : IsToken first)
    (hsecond : IsToken second) (h : first.source ++ cs = second.source ++ ds) :
    first = second := by
  cases hfirst with
  | plain _ hbackslash _ =>
    cases hsecond with
    | plain =>
      obtain ⟨rfl, -⟩ := List.cons.inj h
      rfl
    | escape hsecond =>
      obtain ⟨tail, htail, -⟩ := hsecond.escape?_append
      rw [htail] at h
      exact absurd (List.cons.inj h).1 hbackslash
  | escape hfirst =>
    obtain ⟨tail, htail, hread⟩ := hfirst.escape?_append
    rw [htail] at h
    cases hsecond with
    | plain _ hbackslash _ => exact absurd (List.cons.inj h).1.symm hbackslash
    | escape hsecond =>
      have hagain := escape?_eq_some_iff.2 ⟨hsecond, h.symm⟩
      exact (Prod.mk.inj (Option.some.inj ((hread cs).symm.trans hagain))).1

/-- A sequence of tokens is the longest one where no token begins at its end. -/
theorem isLongest_iff {body : List Char} {tokens : List Token} :
    IsLongest body tokens ↔ (∀ token ∈ tokens, IsToken token) ∧
      ∃ rest, sources tokens ++ rest = body ∧ ¬ BeginsToken rest := by
  constructor
  · rintro ⟨htokens, ⟨rest, rfl⟩, hlongest⟩
    refine ⟨htokens, rest, rfl, ?_⟩
    rintro ⟨token, htoken, later, rfl⟩
    have hmore := hlongest (tokens ++ [token])
      (List.forall_mem_append.2 ⟨htokens, by simpa using htoken⟩) ⟨later, by simp⟩
    have hpos := Nat.lt_of_lt_of_le htoken.length_pos (Text.length_le_byteLength token.source)
    simp only [sources_append, sources_cons, sources_nil, Text.byteLength_append,
      Text.byteLength_nil] at hmore
    omega
  · rintro ⟨htokens, rest, rfl, hrest⟩
    refine ⟨htokens, ⟨rest, rfl⟩, ?_⟩
    induction tokens with
    | nil =>
      intro others hothers hbegins
      cases others with
      | nil => exact Nat.le_refl _
      | cons token others =>
        have hfirst : token.source <+: rest := (List.prefix_append _ _).trans hbegins
        exact absurd ⟨token, hothers token List.mem_cons_self, hfirst⟩ hrest
    | cons token tokens ih =>
      intro others hothers hbegins
      cases others with
      | nil => exact Nat.zero_le _
      | cons other others =>
        obtain ⟨htoken, hlast⟩ := List.forall_mem_cons.1 htokens
        obtain ⟨hother, hothers⟩ := List.forall_mem_cons.1 hothers
        obtain ⟨later, hlater⟩ := hbegins
        simp only [sources_cons, List.append_assoc] at hlater
        obtain rfl := hother.unique htoken hlater
        have hshorter := ih hlast others hothers ⟨later, List.append_cancel_left hlater⟩
        simp only [byteLength_sources_cons]
        exact Nat.add_le_add_left hshorter _

/-! ## Reading a body -/

/-- How reading ends is decided by what follows the longest sequence of tokens. -/
theorem interpretedTokens_of_isLongest {tokens : List Token} {rest : List Char}
    (h : IsLongest (sources tokens ++ rest) tokens) (offset : Offset) :
    interpretedTokens offset (sources tokens ++ rest) = .ok tokens ∧ rest = [] ∨
      ∃ c cs error, rest = c :: cs ∧
        faultAt? (offset + Text.byteLength (sources tokens)) c = some error ∧
        interpretedTokens offset (sources tokens ++ rest) = .error error := by
  obtain ⟨htokens, rest', hrest, hstop⟩ := isLongest_iff.1 h
  obtain rfl := List.append_cancel_left hrest
  rw [interpretedTokens_append htokens]
  cases rest' with
  | nil =>
    left
    rw [interpretedTokens]
    exact ⟨by simp [Except.map], rfl⟩
  | cons c cs =>
    obtain ⟨error, hfault, hread⟩ := interpretedTokens_of_not_beginsToken hstop
      (offset + Text.byteLength (sources tokens))
    right
    rw [hread]
    exact ⟨c, cs, error, rfl, hfault, rfl⟩

theorem exists_isLongest (body : List Char) :
    ∃ tokens rest, sources tokens ++ rest = body ∧ IsLongest body tokens := by
  obtain ⟨tokens, rest, htokens, hbody, hrest⟩ := exists_tokens_append body
  exact ⟨tokens, rest, hbody, isLongest_iff.2 ⟨htokens, rest, hbody, hrest⟩⟩

/-- A body is read if tokens spell it, and as those tokens. -/
theorem interpretedTokens_eq_ok_iff {offset : Offset} {body : List Char}
    {tokens : List Token} : interpretedTokens offset body = .ok tokens ↔
      (∀ token ∈ tokens, IsToken token) ∧ sources tokens = body := by
  constructor
  · intro h
    obtain ⟨longest, rest, rfl, hlongest⟩ := exists_isLongest body
    rcases interpretedTokens_of_isLongest hlongest offset with ⟨hread, rfl⟩ | ⟨_, _, _, -, -, hread⟩
    · obtain rfl := Except.ok.inj (hread.symm.trans h)
      exact ⟨hlongest.isToken, (List.append_nil _).symm⟩
    · cases hread.symm.trans h
  · rintro ⟨htokens, rfl⟩
    have hread := interpretedTokens_append htokens offset []
    rw [List.append_nil, interpretedTokens] at hread
    simpa [Except.map] using hread

/-- A body that is no sequence of tokens is refused where the longest one ends. -/
theorem interpretedTokens_eq_error_iff {offset : Offset} {body : List Char}
    {error : UnquoteError} : interpretedTokens offset body = .error error ↔
      ∃ tokens c rest, IsLongest body tokens ∧ sources tokens ++ c :: rest = body ∧
        faultAt? (offset + Text.byteLength (sources tokens)) c = some error := by
  constructor
  · intro h
    obtain ⟨tokens, rest, rfl, hlongest⟩ := exists_isLongest body
    rcases interpretedTokens_of_isLongest hlongest offset with
      ⟨hread, -⟩ | ⟨c, cs, other, rfl, hfault, hread⟩
    · cases hread.symm.trans h
    · obtain rfl := Except.error.inj (hread.symm.trans h)
      exact ⟨tokens, c, cs, hlongest, rfl, hfault⟩
  · rintro ⟨tokens, c, rest, hlongest, rfl, hfault⟩
    rcases interpretedTokens_of_isLongest hlongest offset with
      ⟨-, hnil⟩ | ⟨d, cs, other, hcons, hother, hread⟩
    · cases hnil
    · obtain ⟨rfl, rfl⟩ := List.cons.inj hcons
      rw [hread, Option.some.inj (hother.symm.trans hfault)]

end TagLint.Literal
