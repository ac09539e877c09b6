import TagLint.Proofs.Literal.Exactness
import TagLint.Proofs.Literal.Length

/-!
# What is written as it reads

A token is a character that stands for itself, or it begins with the mark of its kind of literal, a
backslash or a carriage return, and takes more bytes than it stands for
(`Delimiter.IsToken.plain_or_marked`). So part of a literal is as long as what it means only if it
is written as it reads, without any marks (`verbatim_of_decode?`), and a text without marks cannot
be the beginning of anything else that means it (`sources_eq_of_append`).
-/

namespace TagLint

namespace Text

theorem byteLength_filter_add (p : Char → Bool) (cs : List Char) :
    byteLength (cs.filter p) + byteLength (cs.filter fun c => !p c) = byteLength cs := by
  induction cs with
  | nil => rfl
  | cons c cs ih => cases hc : p c <;> simp [hc] <;> omega

end Text

namespace Literal

/-- The character that begins every token that takes more bytes than it stands for. -/
def Delimiter.mark : Delimiter → Char
  | .raw => '\r'
  | .interpreted => '\\'

theorem IsEscape.shrinks {token : Token} (h : IsEscape token) :
    (∃ tail, token.source = '\\' :: tail) ∧ token.shrinks = true := by
  have hwide {source : List Char} {bytes : List UInt8} (hlength : bytes.length < source.length) :
      Token.shrinks ⟨source, bytes⟩ = true :=
    decide_eq_true (Nat.lt_of_lt_of_le hlength (Text.length_le_byteLength source))
  have hchar (c : Char) : (String.utf8EncodeChar c).length ≤ 4 := by
    rw [String.length_utf8EncodeChar]
    exact c.utf8Size_le_four
  cases h with
  | named => exact ⟨⟨_, rfl⟩, hwide (Nat.lt_add_one 1)⟩
  | hexByte hdigits => exact ⟨⟨_, rfl⟩, hwide (by simp [hdigits])⟩
  | @shortScalar digits c hdigits =>
    refine ⟨⟨_, rfl⟩, hwide (Nat.lt_of_le_of_lt (hchar c) ?_)⟩
    simp [hdigits]
  | @longScalar digits c hdigits =>
    refine ⟨⟨_, rfl⟩, hwide (Nat.lt_of_le_of_lt (hchar c) ?_)⟩
    simp [hdigits]
  | octalByte hdigits => exact ⟨⟨_, rfl⟩, hwide (by simp [hdigits])⟩

section Tokens

variable {delimiter : Delimiter} {tokens : List Token}

/-- A token stands for itself, or it begins with the mark and shrinks. -/
theorem Delimiter.IsToken.plain_or_marked {token : Token} (h : delimiter.IsToken token) :
    (∃ c, token = .plain c ∧ c ≠ delimiter.mark) ∨
      (∃ tail, token.source = delimiter.mark :: tail) ∧ token.shrinks = true := by
  cases delimiter with
  | raw =>
    cases h with
    | plain _ hmark => exact .inl ⟨_, rfl, hmark⟩
    | carriageReturn => exact .inr ⟨⟨[], rfl⟩, rfl⟩
  | interpreted =>
    cases h with
    | plain _ hmark => exact .inl ⟨_, rfl, hmark⟩
    | escape hescape => exact .inr hescape.shrinks

/-- Tokens that do not shrink are written as they read. -/
theorem verbatim_of_not_shrinks (htokens : ∀ token ∈ tokens, delimiter.IsToken token)
    (h : ∀ token ∈ tokens, token.shrinks = false) :
    contentBytes tokens = Text.utf8 (sources tokens) ∧ delimiter.mark ∉ sources tokens := by
  induction tokens with
  | nil => exact ⟨rfl, List.not_mem_nil⟩
  | cons token tokens ih =>
    obtain ⟨htoken, hrest⟩ := List.forall_mem_cons.1 htokens
    obtain ⟨hkept, hlater⟩ := List.forall_mem_cons.1 h
    obtain ⟨hbytes, hmark⟩ := ih hrest hlater
    rcases htoken.plain_or_marked with ⟨c, rfl, hc⟩ | ⟨-, hshrinks⟩
    · constructor
      · rw [contentBytes_cons, hbytes]
        rfl
      · intro hmem
        rcases List.mem_append.1 hmem with hmem | hmem
        · exact hc (List.mem_singleton.1 hmem).symm
        · exact hmark hmem
    · exact absurd (hkept.symm.trans hshrinks) Bool.false_ne_true

/-- The last token, if there is one, stands for some bytes. -/
def EndsLoud (tokens : List Token) : Prop := ∀ token ∈ tokens.getLast?, token.bytes ≠ []

theorem EndsLoud.tail {token : Token} (h : EndsLoud (token :: tokens)) : EndsLoud tokens := by
  intro last hlast
  refine h last ?_
  rw [Option.mem_def] at hlast
  rw [List.getLast?_cons, hlast]
  rfl

/-- Tokens that stand for nothing, the last of them for something, are none. -/
theorem EndsLoud.eq_nil (h : EndsLoud tokens) (hbytes : contentBytes tokens = []) :
    tokens = [] := by
  rcases List.eq_nil_or_concat' tokens with rfl | ⟨init, last, rfl⟩
  · rfl
  · rw [contentBytes_append, contentBytes_cons, List.append_eq_nil_iff,
      List.append_eq_nil_iff] at hbytes
    exact absurd hbytes.2.1 (h last (by simp))

/-- Without the tokens at the end that stand for nothing, tokens stand for what they did. -/
theorem exists_endsLoud (tokens : List Token) :
    ∃ loud silent, tokens = loud ++ silent ∧ EndsLoud loud ∧ contentBytes silent = [] := by
  induction tokens using List.reverseRecOn with
  | nil => exact ⟨[], [], rfl, by simp [EndsLoud], rfl⟩
  | append_singleton init last ih =>
    by_cases hlast : last.bytes = []
    · obtain ⟨loud, silent, rfl, hloud, hsilent⟩ := ih
      exact ⟨loud, silent ++ [last], List.append_assoc _ _ _, hloud, by simp [hsilent, hlast]⟩
    · exact ⟨init ++ [last], [], (List.append_nil _).symm, by simp [EndsLoud, hlast], rfl⟩

/-- What begins with a text without marks that it stands for is that text, unless it goes on with
something that stands for nothing. -/
theorem sources_eq_of_append {text more : List Char}
    (htokens : ∀ token ∈ tokens, delimiter.IsToken token)
    (hsources : sources tokens = text ++ more) (hbytes : contentBytes tokens = Text.utf8 text)
    (hlast : EndsLoud tokens) (hmark : delimiter.mark ∉ text) :
    sources tokens = text := by
  induction tokens generalizing text with
  | nil => exact (List.append_eq_nil_iff.1 hsources.symm).1.symm
  | cons token tokens ih =>
    obtain ⟨htoken, hrest⟩ := List.forall_mem_cons.1 htokens
    cases text with
    | nil => cases hlast.eq_nil hbytes
    | cons c text =>
      rw [List.mem_cons, not_or] at hmark
      rcases htoken.plain_or_marked with ⟨d, rfl, -⟩ | ⟨⟨tail, htail⟩, -⟩
      · obtain ⟨rfl, hlater⟩ := List.cons.inj hsources
        rw [sources_cons, ih hrest hlater (List.append_cancel_left hbytes) hlast.tail hmark.2]
        rfl
      · rw [sources_cons, htail] at hsources
        exact absurd (List.cons.inj hsources).1 hmark.1

end Tokens

/-- Part of a literal that is as long as what it means is written as it reads. -/
theorem verbatim_of_decode? {text body piece meaning : List Char} {delimiter : Delimiter}
    {unquoted : Unquoted} (hunquote : unquote text = .ok unquoted)
    (hbody : body? text = some (delimiter, body)) (hdecode : decode? text piece = some meaning)
    (hlength : Text.byteLength piece ≤ Text.byteLength meaning) :
    piece = meaning ∧ delimiter.mark ∉ piece := by
  have hdelimiter : delimiter? text = some delimiter := by rw [delimiter?, hbody]; rfl
  rw [decode?, hunquote, hdelimiter] at hdecode
  cases delimiter with
  | raw =>
    obtain rfl := Option.some.inj hdecode
    have hsum := Text.byteLength_filter_add (· ≠ '\r') piece
    have hnone : (piece.filter fun c => !decide (c ≠ '\r')) = [] :=
      Text.eq_nil_of_byteLength_eq_zero (by omega)
    have hkept : ∀ c ∈ piece, c ≠ '\r' := by simpa using hnone
    refine ⟨(List.filter_eq_self.2 ?_).symm, fun hmark => hkept _ hmark rfl⟩
    intro c hc
    exact decide_eq_true (hkept c hc)
  | interpreted =>
    have hok : unescape piece = .ok meaning := by
      cases hresult : unescape piece with
      | ok content => simpa [hresult, Except.toOption] using hdecode
      | error error => simp [hresult, Except.toOption] at hdecode
    obtain ⟨ts, hread, rfl⟩ := ok_of_map_eq_ok hok
    obtain ⟨htokens, rfl⟩ := tokens_eq_ok_iff.1 hread
    have hkept : ∀ token ∈ ts, token.shrinks = false := by
      intro token htoken
      by_contra hshrinks
      have hless := byteLength_decodeLossy_lt (fun token htoken => (htokens token htoken).proper)
        ⟨token, htoken, by simpa using hshrinks⟩
      exact absurd hlength (Nat.not_le.2 hless)
    obtain ⟨hbytes, hmark⟩ := verbatim_of_not_shrinks htokens hkept
    refine ⟨?_, hmark⟩
    show sources ts = Text.decodeLossy (contentBytes ts)
    rw [hbytes, Text.decodeLossy_utf8]

/-- So is part of a literal that does not unquote, which means what it says. -/
theorem eq_of_decode? {text piece meaning : List Char} (hdecode : decode? text piece = some meaning)
    (hlength : Text.byteLength piece ≤ Text.byteLength meaning) : piece = meaning := by
  cases hunquote : unquote text with
  | ok unquoted =>
    obtain ⟨delimiter, body, ts, hbody, -, -⟩ := exists_tokens_of_unquote hunquote
    exact (verbatim_of_decode? hunquote hbody hdecode hlength).1
  | error error =>
    rw [decode?, hunquote] at hdecode
    exact Option.some.inj hdecode

/-- The empty part of a literal means nothing. -/
theorem decode?_nil (text : List Char) : decode? text [] = some [] := by
  have hnil : unescape [] = .ok [] := by
    rw [unescape, tokens, interpretedTokens]
    simp [Except.map, Unquoted.ofTokens, Text.decodeLossy]
  unfold decode?
  split
  · rfl
  · rw [hnil]
    rfl
  · rfl

/-- So what means something takes some bytes. -/
theorem byteLength_pos_of_decode? {text piece meaning : List Char} {c : Char}
    (hdecode : decode? text piece = some (c :: meaning)) : 0 < Text.byteLength piece := by
  rw [Nat.pos_iff_ne_zero]
  intro hzero
  rw [Text.eq_nil_of_byteLength_eq_zero hzero, decode?_nil] at hdecode
  cases hdecode

end Literal

end TagLint
