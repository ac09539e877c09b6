import TagLint.Literal.Unquote
import TagLint.Proofs.Text.Cut

/-!
# Tokenizations

`tokensFrom_eq_ok_iff`: a body is tokenized into the lists of `Proper` tokens that spell it.
A proper token is read back whatever follows it, so any stretch of the tokens of a body is
the tokenization of what it spells, and decoding part of a body means the same as decoding
it in its place.
-/

namespace TagLint.Literal

/-- The tokens of a body that begins `offset` bytes into a literal body. -/
def tokensFrom : Delimiter → Offset → List Char → Except UnquoteError (List Token)
  | .raw => rawTokens
  | .interpreted => interpretedTokens

theorem tokens_eq_tokensFrom (delimiter : Delimiter) (body : List Char) :
    tokens delimiter body = tokensFrom delimiter 0 body := by
  cases delimiter <;> rfl

/-- What a list of tokens is written as. -/
def sources (tokens : List Token) : List Char := tokens.flatMap Token.source

@[simp] theorem sources_nil : sources [] = [] := rfl

@[simp] theorem sources_cons (token : Token) (tokens : List Token) :
    sources (token :: tokens) = token.source ++ sources tokens := rfl

@[simp] theorem sources_append (first second : List Token) :
    sources (first ++ second) = sources first ++ sources second := by
  simp [sources]

theorem byteLength_sources_cons (token : Token) (tokens : List Token) :
    Text.byteLength (sources (token :: tokens)) =
      token.width + Text.byteLength (sources tokens) := by
  rw [sources_cons, Text.byteLength_append, Token.width]

@[simp] theorem contentBytes_nil : contentBytes [] = [] := rfl

@[simp] theorem contentBytes_cons (token : Token) (tokens : List Token) :
    contentBytes (token :: tokens) = token.bytes ++ contentBytes tokens := rfl

@[simp] theorem contentBytes_append (first second : List Token) :
    contentBytes (first ++ second) = contentBytes first ++ contentBytes second := by
  simp [contentBytes]

theorem ok_of_map_eq_ok {ε α β : Type} {f : α → β} {result : Except ε α} {b : β}
    (h : result.map f = .ok b) : ∃ a, result = .ok a ∧ f a = b := by
  cases result with
  | error error => cases h
  | ok a => exact ⟨a, rfl, Except.ok.inj h⟩

theorem length_contentBytes_le {tokens : List Token}
    (h : ∀ token ∈ tokens, token.bytes.length ≤ token.width) :
    (contentBytes tokens).length ≤ Text.byteLength (sources tokens) := by
  induction tokens with
  | nil => exact Nat.le_refl _
  | cons token tokens ih =>
    obtain ⟨htoken, htokens⟩ := List.forall_mem_cons.1 h
    rw [contentBytes_cons, List.length_append, byteLength_sources_cons]
    exact Nat.add_le_add htoken (ih htokens)

/-- A token that a body of this kind can hold. -/
structure Token.Proper (delimiter : Delimiter) (token : Token) : Prop where
  /-- The token is read back, whatever follows it. -/
  reads : ∀ offset rest, tokensFrom delimiter offset (token.source ++ rest) =
    (tokensFrom delimiter (offset + token.width) rest).map (token :: ·)
  /-- No token stands for more bytes than it takes. -/
  length_le : token.bytes.length ≤ token.width
  /-- Only the first byte of a token can begin a character. -/
  inner : ∀ b ∈ token.bytes.tail, ¬ b.IsUTF8FirstByte

/-! ## Plain characters -/

theorem not_isUTF8FirstByte_of_mem_tail {c : Char} {b : UInt8}
    (h : b ∈ (String.utf8EncodeChar c).tail) : ¬ b.IsUTF8FirstByte := by
  obtain ⟨i, hi, rfl⟩ := List.mem_iff_getElem.1 h
  rw [List.getElem_tail, UInt8.isUTF8FirstByte_getElem_utf8EncodeChar]
  exact Nat.succ_ne_zero i

theorem proper_ofRaw {c : Char} (h : c ≠ Delimiter.raw.quote) :
    (Token.ofRaw c).Proper .raw := by
  unfold Token.ofRaw
  split
  · rename_i hc
    subst hc
    exact ⟨fun offset rest => rfl, Nat.zero_le _, by simp⟩
  · rename_i hc
    refine ⟨?_, Nat.le_of_eq (Token.width_plain c).symm, ?_⟩
    · intro offset rest
      simp only [tokensFrom, Token.plain, List.singleton_append, rawTokens, if_neg h,
        Token.ofRaw, if_neg hc]
      rfl
    · intro b hb
      exact not_isUTF8FirstByte_of_mem_tail hb

theorem proper_plain {c : Char} (hquote : c ≠ Delimiter.interpreted.quote) (hnewline : c ≠ '\n')
    (hbackslash : c ≠ '\\') : (Token.plain c).Proper .interpreted := by
  refine ⟨?_, Nat.le_of_eq (Token.width_plain c).symm, ?_⟩
  · intro offset rest
    simp only [tokensFrom, Token.plain, List.singleton_append]
    rw [interpretedTokens, if_neg hquote, if_neg hnewline, if_neg hbackslash]
    rfl
  · intro b hb
    exact not_isUTF8FirstByte_of_mem_tail hb

/-! ## Escape sequences -/

/-- One byte, or the bytes of one character. -/
def Atomic (bytes : List UInt8) : Prop :=
  (∃ b, bytes = [b]) ∨ ∃ c, bytes = String.utf8EncodeChar c

theorem Atomic.length_le {bytes : List UInt8} (h : Atomic bytes) : bytes.length ≤ 4 := by
  rcases h with ⟨b, rfl⟩ | ⟨c, rfl⟩
  · exact Nat.le_of_ble_eq_true rfl
  · rw [String.length_utf8EncodeChar]
    exact c.utf8Size_le_four

theorem Atomic.inner {bytes : List UInt8} (h : Atomic bytes) :
    ∀ b ∈ bytes.tail, ¬ b.IsUTF8FirstByte := by
  rcases h with ⟨b, rfl⟩ | ⟨c, rfl⟩
  · simp
  · exact fun b hb => not_isUTF8FirstByte_of_mem_tail hb

theorem atomic_of_byte? {value : Nat} {bytes : List UInt8} (h : byte? value = some bytes) :
    Atomic bytes := by
  unfold byte? at h
  split at h
  · exact .inl ⟨_, (Option.some.inj h).symm⟩
  · cases h

theorem atomic_of_scalar? {value : Nat} {bytes : List UInt8} (h : scalar? value = some bytes) :
    Atomic bytes := by
  unfold scalar? at h
  split at h
  · exact .inr ⟨_, (Option.some.inj h).symm⟩
  · cases h

/-- The digits that are read are read again, whatever follows them. -/
theorem NumericEscape.read?_again {escape : NumericEscape} {cs rest : List Char} {token : Token}
    (hbytes : ∀ {value bytes}, escape.bytes? value = some bytes → Atomic bytes)
    (hlong : 3 ≤ escape.mark.length + escape.digits)
    (h : escape.read? cs = some (token, rest)) :
    ∃ digits, cs = digits ++ rest ∧ digits.length = escape.digits ∧
      token.source = '\\' :: (escape.mark ++ digits) ∧ Atomic token.bytes ∧
      token.bytes.length ≤ token.width ∧
      ∀ rest, escape.read? (digits ++ rest) = some (token, rest) := by
  unfold read? at h
  dsimp only at h
  split at h
  · rename_i hlength
    obtain ⟨value, hvalue, h⟩ := Option.bind_eq_some_iff.1 h
    obtain ⟨bytes, hvalid, h⟩ := Option.bind_eq_some_iff.1 h
    simp only [pure, Option.some.injEq, Prod.mk.injEq] at h
    obtain ⟨rfl, rfl⟩ := h
    have hatomic := hbytes hvalid
    have hwidth : 4 ≤ Text.byteLength ('\\' :: (escape.mark ++ cs.take escape.digits)) := by
      refine Nat.le_trans ?_ (Text.length_le_byteLength _)
      rw [List.length_cons, List.length_append, hlength]
      exact Nat.succ_le_succ hlong
    refine ⟨cs.take escape.digits, (List.take_append_drop _ _).symm, hlength, rfl, hatomic,
      Nat.le_trans hatomic.length_le hwidth, ?_⟩
    intro rest
    have htake : (cs.take escape.digits ++ rest).take escape.digits = cs.take escape.digits :=
      List.take_left' hlength
    have hdrop : (cs.take escape.digits ++ rest).drop escape.digits = rest :=
      List.drop_left' hlength
    simp [read?, htake, hdrop, hlength, hvalue, hvalid]
  · cases h

/-- A character after a backslash that introduces no base-sixteen escape. -/
theorem escape?_cons {c : Char} (hx : c ≠ 'x') (hu : c ≠ 'u') (hU : c ≠ 'U') (cs : List Char) :
    escape? (c :: cs) =
      match namedEscape? c with
      | some byte => some (⟨['\\', c], [byte]⟩, cs)
      | none => NumericEscape.octalByte.read? (c :: cs) := by
  unfold escape?
  split
  · contradiction
  · simp_all
  · simp_all
  · simp_all
  · rename_i heq
    obtain ⟨rfl, rfl⟩ := List.cons.inj heq
    rfl

/-- What an escape sequence says does not depend on what follows it. -/
theorem escape?_again {cs rest : List Char} {token : Token}
    (h : escape? cs = some (token, rest)) :
    ∃ tail, token.source = '\\' :: tail ∧ Atomic token.bytes ∧
      token.bytes.length ≤ token.width ∧
      ∀ rest, escape? (tail ++ rest) = some (token, rest) := by
  unfold escape? at h
  split at h
  · cases h
  · obtain ⟨digits, -, -, hsource, hatomic, hlength, hagain⟩ :=
      NumericEscape.read?_again atomic_of_byte? (by decide) h
    exact ⟨'x' :: digits, hsource, hatomic, hlength, hagain⟩
  · obtain ⟨digits, -, -, hsource, hatomic, hlength, hagain⟩ :=
      NumericEscape.read?_again atomic_of_scalar? (by decide) h
    exact ⟨'u' :: digits, hsource, hatomic, hlength, hagain⟩
  · obtain ⟨digits, -, -, hsource, hatomic, hlength, hagain⟩ :=
      NumericEscape.read?_again atomic_of_scalar? (by decide) h
    exact ⟨'U' :: digits, hsource, hatomic, hlength, hagain⟩
  · rename_i c cs hx hu hU
    have hcons := escape?_cons (c := c) (by grind) (by grind) (by grind)
    cases hnamed : namedEscape? c with
    | some byte =>
      simp only [hnamed, Option.some.injEq, Prod.mk.injEq] at h
      obtain ⟨rfl, -⟩ := h
      refine ⟨[c], rfl, .inl ⟨byte, rfl⟩, ?_, ?_⟩
      · exact Nat.le_trans (Nat.le_succ 1) (Text.length_le_byteLength ['\\', c])
      · intro rest
        rw [List.singleton_append, hcons, hnamed]
    | none =>
      simp only [hnamed] at h
      obtain ⟨digits, hsplit, hdigits, hsource, hatomic, hlength, hagain⟩ :=
        NumericEscape.read?_again atomic_of_byte? (by decide) h
      refine ⟨digits, hsource, hatomic, hlength, ?_⟩
      intro rest
      -- An octal escape has no mark: the character that names no escape is its first digit.
      cases digits with
      | nil => cases hdigits
      | cons d digits =>
        obtain ⟨rfl, -⟩ := List.cons.inj hsplit
        rw [List.cons_append, hcons, hnamed]
        exact hagain rest

theorem proper_of_escape? {cs rest : List Char} {token : Token}
    (h : escape? cs = some (token, rest)) : token.Proper .interpreted := by
  obtain ⟨tail, hsource, hatomic, hlength, hagain⟩ := escape?_again h
  refine ⟨?_, hlength, hatomic.inner⟩
  intro offset rest
  rw [hsource, List.cons_append]
  simp only [tokensFrom]
  rw [interpretedTokens, if_neg (by decide), if_neg (by decide), if_pos rfl]
  split
  · rename_i heq
    obtain ⟨rfl, rfl⟩ := Prod.mk.inj (Option.some.inj ((hagain rest).symm.trans heq))
    rfl
  · rename_i heq
    cases (hagain rest).symm.trans heq

/-! ## Bodies -/

theorem tokens_of_raw {offset : Offset} {body : List Char} {tokens : List Token}
    (h : rawTokens offset body = .ok tokens) :
    sources tokens = body ∧ ∀ token ∈ tokens, token.Proper .raw := by
  induction body generalizing offset tokens with
  | nil =>
    obtain rfl := Except.ok.inj h
    simp
  | cons c cs ih =>
    rw [rawTokens] at h
    split at h
    · cases h
    · rename_i hquote
      obtain ⟨later, hlater, rfl⟩ := ok_of_map_eq_ok h
      obtain ⟨hsources, hproper⟩ := ih hlater
      refine ⟨?_, List.forall_mem_cons.2 ⟨proper_ofRaw hquote, hproper⟩⟩
      rw [sources_cons, hsources]
      unfold Token.ofRaw
      split
      · rename_i hc
        rw [hc]
        rfl
      · rfl

theorem tokens_of_interpreted {offset : Offset} {body : List Char} {tokens : List Token}
    (h : interpretedTokens offset body = .ok tokens) :
    sources tokens = body ∧ ∀ token ∈ tokens, token.Proper .interpreted := by
  fun_induction interpretedTokens offset body generalizing tokens with
  | case1 =>
    obtain rfl := Except.ok.inj h
    simp
  | case2 | case3 | case5 => cases h
  | case4 offset cs token rest hescape _ _ ih =>
    obtain ⟨later, hlater, rfl⟩ := ok_of_map_eq_ok h
    obtain ⟨hsources, hproper⟩ := ih hlater
    refine ⟨?_, List.forall_mem_cons.2 ⟨proper_of_escape? hescape, hproper⟩⟩
    rw [sources_cons, hsources]
    exact source_append_of_escape? hescape
  | case6 offset c cs hquote hnewline hbackslash ih =>
    obtain ⟨later, hlater, rfl⟩ := ok_of_map_eq_ok h
    obtain ⟨hsources, hproper⟩ := ih hlater
    refine ⟨?_, List.forall_mem_cons.2 ⟨proper_plain hquote hnewline hbackslash, hproper⟩⟩
    rw [sources_cons, hsources]
    rfl

/-- Tokenizing a body finds the proper tokens that spell it. -/
theorem tokensFrom_eq_ok_iff {delimiter : Delimiter} {offset : Offset} {body : List Char}
    {tokens : List Token} :
    tokensFrom delimiter offset body = .ok tokens ↔
      sources tokens = body ∧ ∀ token ∈ tokens, token.Proper delimiter := by
  constructor
  · intro h
    cases delimiter with
    | raw => exact tokens_of_raw h
    | interpreted => exact tokens_of_interpreted h
  · rintro ⟨rfl, hproper⟩
    induction tokens generalizing offset with
    | nil => cases delimiter <;> simp [tokensFrom, rawTokens, interpretedTokens]
    | cons token tokens ih =>
      obtain ⟨htoken, htokens⟩ := List.forall_mem_cons.1 hproper
      rw [sources_cons, htoken.reads, ih htokens]
      rfl

/-- The bytes of a raw body are those of its characters other than carriage returns. -/
theorem contentBytes_of_raw {offset : Offset} {body : List Char} {tokens : List Token}
    (h : rawTokens offset body = .ok tokens) :
    contentBytes tokens = Text.utf8 (body.filter (· ≠ '\r')) := by
  induction body generalizing offset tokens with
  | nil =>
    obtain rfl := Except.ok.inj h
    rfl
  | cons c cs ih =>
    rw [rawTokens] at h
    split at h
    · cases h
    · obtain ⟨later, hlater, rfl⟩ := ok_of_map_eq_ok h
      rw [contentBytes_cons, ih hlater]
      by_cases hc : c = '\r' <;> simp [Token.ofRaw, hc, Token.plain]

end TagLint.Literal
