import TagLint.Proofs.Literal.Provenance

/-!
# How far the content of a literal reaches

Bytes that are not UTF-8 come from byte escapes only, and a byte escape takes four bytes of
the body, room enough for the replacement character that it may decode to. So a content is
never longer than the body it comes from (`byteLength_decodeLossy_le`), and shorter if some
token takes more bytes than it stands for (`byteLength_decodeLossy_lt`).

It can be longer than the bytes that its tokens stand for, though, and those are what the
anchors of the offset map count. `growth` is how many bytes replacement adds, and an offset
of the content lies inside the literal up to that many bytes (`literalOffset_le`).
-/

namespace TagLint

namespace Text

/-- No character begins with a continuation byte. -/
theorem exists_first_utf8EncodeChar (c : Char) : ∃ b bytes,
    String.utf8EncodeChar c = b :: bytes ∧ (b.toNat < 0x80 ∨ 0xBF < b.toNat) := by
  have hbyte {n : Nat} (h : n < 256) : (UInt8.ofNat n).toNat = n := by
    rw [UInt8.toNat_ofNat']
    omega
  have hlead {n : Nat} (hlow : 0xBF < n) (hhigh : n < 256) : 0xBF < (UInt8.ofNat n).toNat := by
    rwa [hbyte hhigh]
  simp only [String.utf8EncodeChar]
  split
  · refine ⟨_, _, rfl, .inl ?_⟩
    rw [hbyte (by omega)]
    omega
  -- The other first bytes are marked by two ones or more.
  · split
    · exact ⟨_, _, rfl, .inr (hlead (by omega) (by omega))⟩
    · split
      · exact ⟨_, _, rfl, .inr (hlead (by omega) (by omega))⟩
      · exact ⟨_, _, rfl, .inr (hlead (by omega) (by omega))⟩

/-- What may follow a first byte is a continuation byte. -/
theorem range_of_lead? {b : Nat} {lead : Lead} (h : lead? b = some lead) :
    0x80 ≤ lead.low ∧ lead.high ≤ 0xBF := by
  unfold lead? at h
  repeat' split at h
  all_goals cases h
  all_goals simp

/-- Reading continuation bytes to the end takes as many as were asked for. -/
theorem length_of_continuation {count low high acc code : Nat} {bytes rest : List UInt8}
    (h : continuation count low high acc bytes = (some code, rest)) :
    count + rest.length = bytes.length := by
  fun_induction continuation count low high acc bytes with
  | case1 =>
    obtain ⟨-, rfl⟩ := Prod.mk.inj h
    exact Nat.zero_add _
  | case2 | case4 => cases h
  | case3 _ _ _ _ b bytes _ ih =>
    rw [List.length_cons, ← ih h]
    omega

/-- A first byte that nothing follows is an ASCII character. -/
theorem bits_lt_of_lead? {b : Nat} {lead : Lead} (h : lead? b = some lead)
    (htail : lead.tail = 0) : lead.bits < 0x80 := by
  unfold lead? at h
  repeat' split at h
  all_goals cases h
  · assumption
  all_goals cases htail

theorem utf8Size_ofNat_of_lt {n : Nat} (h : n < 0x80) : (Char.ofNat n).utf8Size = 1 := by
  revert n
  decide

/-- A character of four bytes takes more than the first of them, so what is decoded at one byte is
no longer than a replacement character and the bytes that it takes after that one. -/
theorem utf8Size_decodeFirst_le (b : UInt8) (bytes : List UInt8) :
    (decodeFirst b bytes).1.utf8Size + (decodeFirst b bytes).2.length ≤ 3 + bytes.length := by
  unfold decodeFirst
  split
  · exact Nat.le_refl _
  · next lead hlead =>
    split
    · next code rest hread =>
      have hlength := length_of_continuation hread
      show (Char.ofNat code).utf8Size + rest.length ≤ 3 + bytes.length
      cases htail : lead.tail with
      | zero =>
        rw [htail] at hread
        obtain ⟨hcode, -⟩ := Prod.mk.inj hread
        rw [← Option.some.inj hcode, utf8Size_ofNat_of_lt (bits_lt_of_lead? hlead htail)]
        omega
      | succ tail =>
        have hfour := (Char.ofNat code).utf8Size_le_four
        omega
    · next rest hread =>
      have hrest := length_continuation_le lead.tail lead.low lead.high lead.bits bytes
      rw [hread] at hrest
      exact Nat.add_le_add_left hrest 3

end Text

namespace Literal

/-! ## Room for replacement characters -/

/-- The bytes of a token decode by themselves, or to a replacement character at most, and
then the token is as wide as one. -/
inductive Token.Roomy (token : Token) : Prop
  | silent : token.bytes = [] → token.Roomy
  | char {c : Char} : token.bytes = String.utf8EncodeChar c → token.Roomy
  | byte {b : UInt8} : token.bytes = [b] → 4 ≤ token.width → token.Roomy

theorem roomy_of_read? {escape : NumericEscape} {cs rest : List Char} {token : Token}
    (hbytes : ∀ {value bytes}, escape.bytes? value = some bytes → Atomic bytes)
    (hlong : 3 ≤ escape.mark.length + escape.digits)
    (h : escape.read? cs = some (token, rest)) : token.Roomy := by
  obtain ⟨digits, -, hdigits, hsource, hatomic, -, -⟩ := NumericEscape.read?_again hbytes hlong h
  rcases hatomic with ⟨b, hb⟩ | ⟨c, hc⟩
  · refine .byte hb ?_
    refine Nat.le_trans ?_ (Text.length_le_byteLength token.source)
    rw [hsource, List.length_cons, List.length_append, hdigits]
    exact Nat.succ_le_succ hlong
  · exact .char hc

/-- The named escapes stand for ASCII characters. -/
theorem eq_utf8EncodeChar_of_namedEscape? {c : Char} {byte : UInt8}
    (h : namedEscape? c = some byte) : [byte] = String.utf8EncodeChar (Char.ofNat byte.toNat) := by
  unfold namedEscape? at h
  split at h
  all_goals cases h
  all_goals rfl

theorem roomy_of_escape? {cs rest : List Char} {token : Token}
    (h : escape? cs = some (token, rest)) : token.Roomy := by
  unfold escape? at h
  split at h
  · cases h
  · exact roomy_of_read? atomic_of_byte? (by decide) h
  · exact roomy_of_read? atomic_of_scalar? (by decide) h
  · exact roomy_of_read? atomic_of_scalar? (by decide) h
  · split at h
    · rename_i hnamed
      obtain ⟨rfl, -⟩ := Prod.mk.inj (Option.some.inj h)
      exact .char (eq_utf8EncodeChar_of_namedEscape? hnamed)
    · exact roomy_of_read? atomic_of_byte? (by decide) h

/-- A token that a body can hold is read from what it is written as, so it is a character or
an escape sequence. -/
theorem Token.Proper.roomy {delimiter : Delimiter} {token : Token} (h : token.Proper delimiter) :
    token.Roomy := by
  have hreads : tokensFrom delimiter 0 token.source = .ok [token] :=
    tokensFrom_eq_ok_iff.2 ⟨by simp, by simpa using h⟩
  generalize token.source = source at hreads
  cases delimiter with
  | raw =>
    simp only [tokensFrom] at hreads
    cases source with
    | nil => cases hreads
    | cons c cs =>
      rw [rawTokens] at hreads
      split at hreads
      · cases hreads
      · obtain ⟨later, -, htokens⟩ := ok_of_map_eq_ok hreads
        obtain ⟨rfl, -⟩ := List.cons.inj htokens
        unfold Token.ofRaw
        split
        · exact .silent rfl
        · exact .char rfl
  | interpreted =>
    simp only [tokensFrom] at hreads
    cases source with
    | nil => simp [interpretedTokens] at hreads
    | cons c cs =>
      rw [interpretedTokens] at hreads
      split at hreads
      · cases hreads
      · split at hreads
        · cases hreads
        · split at hreads
          · split at hreads
            · rename_i hescape
              obtain ⟨later, -, htokens⟩ := ok_of_map_eq_ok hreads
              obtain ⟨rfl, -⟩ := List.cons.inj htokens
              exact roomy_of_escape? hescape
            · cases hreads
          · obtain ⟨later, -, htokens⟩ := ok_of_map_eq_ok hreads
            obtain ⟨rfl, -⟩ := List.cons.inj htokens
            exact .char rfl

section Decode

variable {tokens : List Token}

/-- Continuation bytes are read token by token: what is left are the bytes of the last
tokens. -/
theorem exists_suffix_of_continuation {count low high : Nat} (acc : Nat) (hlow : 0x80 ≤ low)
    (hhigh : high ≤ 0xBF) (htokens : ∀ token ∈ tokens, token.Roomy) :
    ∃ rest, rest <:+ tokens ∧
      (Text.continuation count low high acc (contentBytes tokens)).2 = contentBytes rest := by
  induction tokens generalizing count low high acc with
  | nil => exact ⟨[], List.nil_suffix, by cases count <;> rfl⟩
  | cons token tokens ih =>
    obtain ⟨htoken, hrest⟩ := List.forall_mem_cons.1 htokens
    have hskip {rest : List Token} (h : rest <:+ tokens) : rest <:+ token :: tokens :=
      h.trans (List.suffix_cons token tokens)
    cases count with
    | zero => exact ⟨token :: tokens, List.suffix_refl _, rfl⟩
    | succ count =>
      rw [contentBytes_cons]
      cases htoken with
      | silent hbytes =>
        obtain ⟨rest, hsuffix, hleft⟩ := @ih (count + 1) low high acc hlow hhigh hrest
        exact ⟨rest, hskip hsuffix, by rw [hbytes, List.nil_append, hleft]⟩
      | @char c hbytes =>
        -- A character begins with no continuation byte, so reading stops before it.
        obtain ⟨b, bytes, hc, hb⟩ := Text.exists_first_utf8EncodeChar c
        refine ⟨token :: tokens, List.suffix_refl _, ?_⟩
        rw [contentBytes_cons, hbytes, hc, List.cons_append, Text.continuation,
          if_neg (by omega)]
      | @byte b hbytes =>
        rw [hbytes, List.singleton_append, Text.continuation]
        split
        · obtain ⟨rest, hsuffix, hleft⟩ := ih (acc * 64 + b.toNat % 64) (Nat.le_refl _)
            (Nat.le_refl _) hrest
          exact ⟨rest, hskip hsuffix, hleft⟩
        · refine ⟨token :: tokens, List.suffix_refl _, ?_⟩
          rw [contentBytes_cons, hbytes, List.singleton_append]

theorem exists_suffix_of_decodeFirst (b : UInt8) (htokens : ∀ token ∈ tokens, token.Roomy) :
    ∃ rest, rest <:+ tokens ∧ (Text.decodeFirst b (contentBytes tokens)).2 = contentBytes rest := by
  unfold Text.decodeFirst
  split
  · exact ⟨tokens, List.suffix_refl _, rfl⟩
  · rename_i lead hlead
    obtain ⟨hlow, hhigh⟩ := Text.range_of_lead? hlead
    obtain ⟨rest, hsuffix, hleft⟩ :=
      @exists_suffix_of_continuation tokens lead.tail lead.low lead.high lead.bits hlow hhigh
        htokens
    refine ⟨rest, hsuffix, ?_⟩
    split
    all_goals
      rename_i heq
      rw [heq] at hleft
      exact hleft

/-- What is decoded at a single byte and after it is longer than the tokens after it by one
replacement character at most. -/
theorem byteLength_decodeLossy_cons_le {delimiter : Delimiter} (b : UInt8)
    (hproper : ∀ token ∈ tokens, token.Proper delimiter)
    (hlater : ∀ rest, rest <:+ tokens →
      Text.byteLength (Text.decodeLossy (contentBytes rest)) ≤ Text.byteLength (sources rest)) :
    Text.byteLength (Text.decodeLossy (b :: contentBytes tokens)) ≤
      3 + Text.byteLength (sources tokens) := by
  obtain ⟨rest, hsuffix, hleft⟩ :=
    exists_suffix_of_decodeFirst b fun token htoken => (hproper token htoken).roomy
  have hrest := hlater rest hsuffix
  obtain ⟨skipped, rfl⟩ := hsuffix
  have hskipped := length_contentBytes_le fun token htoken =>
    (hproper token (List.mem_append_left rest htoken)).length_le
  have htaken : (contentBytes (skipped ++ rest)).length =
      (contentBytes skipped).length + (contentBytes rest).length := by
    rw [contentBytes_append, List.length_append]
  have hsize := Text.utf8Size_decodeFirst_le b (contentBytes (skipped ++ rest))
  rw [hleft, htaken] at hsize
  rw [Text.decodeLossy, Text.byteLength_cons, hleft, sources_append, Text.byteLength_append]
  omega

/-- A first token that is a byte makes what is decoded shorter than it is written. Any other first
token is decoded by itself. -/
theorem byteLength_decodeLossy_cons {delimiter : Delimiter} {token : Token}
    (htoken : token.Proper delimiter) (hrest : ∀ token ∈ tokens, token.Proper delimiter)
    (hlater : ∀ rest, rest <:+ tokens →
      Text.byteLength (Text.decodeLossy (contentBytes rest)) ≤ Text.byteLength (sources rest)) :
    Text.byteLength (Text.decodeLossy (contentBytes (token :: tokens))) <
        token.width + Text.byteLength (sources tokens) ∨
      Text.byteLength (Text.decodeLossy (contentBytes (token :: tokens))) =
        token.bytes.length + Text.byteLength (Text.decodeLossy (contentBytes tokens)) := by
  rw [contentBytes_cons]
  cases htoken.roomy with
  | silent hbytes =>
    right
    rw [hbytes, List.nil_append, List.length_nil, Nat.zero_add]
  | @char c hbytes =>
    right
    have hdecode := Text.decodeLossy_utf8_append [c] (contentBytes tokens)
    rw [List.flatMap_singleton] at hdecode
    rw [hbytes, hdecode, List.singleton_append, Text.byteLength_cons, String.length_utf8EncodeChar]
  | @byte b hbytes hroom =>
    left
    have hcons := byteLength_decodeLossy_cons_le b hrest hlater
    rw [hbytes, List.singleton_append]
    omega

/-- Decoded tokens are never longer than they are written. -/
theorem byteLength_decodeLossy_le {delimiter : Delimiter} (tokens : List Token)
    (hproper : ∀ token ∈ tokens, token.Proper delimiter) :
    Text.byteLength (Text.decodeLossy (contentBytes tokens)) ≤
      Text.byteLength (sources tokens) := by
  match tokens with
  | [] => simp [Text.decodeLossy]
  | token :: tokens =>
    obtain ⟨htoken, hrest⟩ := List.forall_mem_cons.1 hproper
    have hwidth := htoken.length_le
    have hlater (rest : List Token) (hsuffix : rest <:+ tokens) :
        Text.byteLength (Text.decodeLossy (contentBytes rest)) ≤
          Text.byteLength (sources rest) := by
      have hshorter : rest.length ≤ tokens.length := hsuffix.length_le
      exact byteLength_decodeLossy_le rest fun token htoken => hrest token (hsuffix.subset htoken)
    have hall := hlater tokens (List.suffix_refl _)
    rw [byteLength_sources_cons]
    rcases byteLength_decodeLossy_cons htoken hrest hlater with hless | hequal <;> omega
termination_by tokens.length

/-- Where a token takes more bytes than it stands for, so do all of them together. -/
theorem byteLength_decodeLossy_lt {delimiter : Delimiter} {tokens : List Token}
    (hproper : ∀ token ∈ tokens, token.Proper delimiter)
    (hshrinks : ∃ token ∈ tokens, token.shrinks = true) :
    Text.byteLength (Text.decodeLossy (contentBytes tokens)) <
      Text.byteLength (sources tokens) := by
  induction tokens with
  | nil => simp at hshrinks
  | cons token tokens ih =>
    obtain ⟨htoken, hrest⟩ := List.forall_mem_cons.1 hproper
    have hall := byteLength_decodeLossy_le tokens hrest
    have hwidth := htoken.length_le
    rw [byteLength_sources_cons]
    rcases byteLength_decodeLossy_cons htoken hrest fun rest hsuffix =>
      byteLength_decodeLossy_le rest fun token htoken => hrest token (hsuffix.subset htoken)
      with hless | hequal
    · exact hless
    · -- The token itself shrinks, or one of the later tokens does.
      obtain ⟨other, hother, hless⟩ := hshrinks
      rcases List.mem_cons.1 hother with rfl | hother
      · have hshorter : other.bytes.length < other.width := of_decide_eq_true hless
        omega
      · have hshorter := ih hrest ⟨other, hother, hless⟩
        omega

end Decode

/-! ## Offsets -/

/-- The body is never further ahead of the content than at its end. -/
theorem OffsetMap.extraFrom_le {tokens : List Token} {content body before : Nat} (offset : Offset)
    (htokens : ∀ token ∈ tokens, token.bytes.length ≤ token.width)
    (hbefore : before ≤ Offset.clamp (body - content)) :
    extraFrom before offset (anchorsFrom content body tokens) ≤
      Offset.clamp (body + Text.byteLength (sources tokens) -
        (content + (contentBytes tokens).length)) := by
  induction tokens generalizing content body before with
  | nil => exact hbefore
  | cons token tokens ih =>
    obtain ⟨htoken, hrest⟩ := List.forall_mem_cons.1 htokens
    have hnext := Nat.le_trans hbefore (ahead_mono htoken)
    rw [byteLength_sources_cons, contentBytes_cons, List.length_append, ← Nat.add_assoc,
      ← Nat.add_assoc, anchorsFrom]
    split
    · have hlast := ih hrest (Nat.le_refl
        (Offset.clamp (body + token.width - (content + token.bytes.length))))
      rw [extraFrom]
      split
      · exact hlast
      · exact Nat.le_trans hnext (Nat.le_trans (le_extraFrom offset hrest (Nat.le_refl _)) hlast)
    · exact ih hrest hnext

theorem OffsetMap.extraAt_le {tokens : List Token} (offset : Offset)
    (htokens : ∀ token ∈ tokens, token.bytes.length ≤ token.width) :
    (ofTokens tokens).extraAt offset ≤
      Text.byteLength (sources tokens) - (contentBytes tokens).length := by
  have hextra : extraFrom 0 offset (anchorsFrom 0 0 tokens) ≤
      Offset.clamp (0 + Text.byteLength (sources tokens) - (0 + (contentBytes tokens).length)) :=
    extraFrom_le offset htokens (Nat.zero_le _)
  rw [Nat.zero_add, Nat.zero_add] at hextra
  rw [extraAt_eq_extraFrom]
  exact Nat.le_trans hextra (Offset.clamp_le _)

theorem OffsetMap.toBody_le {tokens : List Token} (offset : Offset)
    (htokens : ∀ token ∈ tokens, token.bytes.length ≤ token.width) :
    (ofTokens tokens).toBody offset ≤
      offset + (Text.byteLength (sources tokens) - (contentBytes tokens).length) :=
  Nat.le_trans (Offset.shift_le _ _) (Nat.add_le_add_left (extraAt_le offset htokens) offset)

/-- How many bytes longer the content of a literal is than the bytes that it stands for,
because replacement characters take more than what they replace. -/
def growth (text : List Char) : Nat :=
  match tokens? text with
  | some tokens =>
    Text.byteLength (Text.decodeLossy (contentBytes tokens)) - (contentBytes tokens).length
  | none => 0

theorem growth_eq_zero {text : List Char} (h : Lossless text) : growth text = 0 := by
  unfold growth
  split
  · rename_i tokens htokens
    have hlength := congrArg List.length (h tokens htokens)
    rw [Text.length_utf8] at hlength
    rw [hlength, Nat.sub_self]
  · rfl

section Prepare

variable {text : List Char}

theorem byteLength_trimmed_le (text : List Char) (error : UnquoteError) :
    Text.byteLength (text.takeWhile isQuote) + Text.byteLength (trimmed text error).content ≤
      Text.byteLength text := by
  obtain ⟨dropped, hdropped⟩ := List.rdropWhile_prefix isQuote (text.dropWhile isQuote)
  have htext : text.takeWhile isQuote ++ text.dropWhile isQuote = text :=
    List.takeWhile_append_dropWhile
  have hlength := congrArg Text.byteLength htext
  rw [Text.byteLength_append, ← hdropped, Text.byteLength_append,
    ← Text.dropEndWhile_eq_rdropWhile] at hlength
  show Text.byteLength (text.takeWhile isQuote) +
    Text.byteLength (Text.dropEndWhile isQuote (text.dropWhile isQuote)) ≤ Text.byteLength text
  omega

/-- What unquoting makes of the body, in terms of its tokens. -/
theorem exists_tokens_of_ok {unquoted : Unquoted} (h : unquote text = .ok unquoted) :
    ∃ delimiter tokens, (∀ token ∈ tokens, token.Proper delimiter) ∧
      unquoted = .ofTokens tokens ∧ Text.byteLength text = Text.byteLength (sources tokens) + 2 ∧
      growth text = Text.byteLength unquoted.content - (contentBytes tokens).length := by
  obtain ⟨delimiter, body, tokens, hbody, htokens, rfl⟩ := exists_tokens_of_unquote h
  have htokens? := tokens?_eq_some hbody htokens
  rw [tokens_eq_tokensFrom, tokensFrom_eq_ok_iff] at htokens
  obtain ⟨rfl, hproper⟩ := htokens
  exact ⟨delimiter, tokens, hproper, rfl, byteLength_of_body? hbody, by rw [growth, htokens?]; rfl⟩

/-- A content is never longer than its literal. -/
theorem byteLength_prepare_le (text : List Char) :
    Text.byteLength (prepare text).content ≤ Text.byteLength text := by
  unfold prepare
  cases hunquote : unquote text with
  | ok unquoted =>
    obtain ⟨delimiter, tokens, hproper, rfl, hlength, -⟩ := exists_tokens_of_ok hunquote
    have hshort := byteLength_decodeLossy_le tokens hproper
    show Text.byteLength (Text.decodeLossy (contentBytes tokens)) ≤ Text.byteLength text
    omega
  | error error =>
    have htrimmed := byteLength_trimmed_le text error
    show Text.byteLength (trimmed text error).content ≤ Text.byteLength text
    omega

theorem growth_of_error {error : UnquoteError} (h : unquote text = .error error) :
    growth text = 0 := by
  have hnone : tokens? text = none := by
    unfold unquote at h
    unfold tokens?
    split at h
    · rename_i hbody
      rw [hbody]
      rfl
    · rename_i delimiter body hbody
      rw [hbody]
      cases htokens : tokens delimiter body with
      | ok tokens => simp [htokens, Except.map] at h
      | error error => simp [htokens, Except.toOption]
  rw [growth, hnone]

theorem growth_le (text : List Char) : growth text ≤ Text.byteLength text := by
  cases hunquote : unquote text with
  | ok unquoted =>
    obtain ⟨-, tokens, -, rfl, -, hgrowth⟩ := exists_tokens_of_ok hunquote
    have hcontent := byteLength_prepare_le text
    simp only [prepare, hunquote] at hcontent
    omega
  | error error =>
    rw [growth_of_error hunquote]
    exact Nat.zero_le _

/-- An offset of the content lies in the literal, up to what replacement adds. -/
theorem literalOffset_le {offset : Offset}
    (h : offset ≤ Text.byteLength (prepare text).content) :
    (prepare text).literalOffset offset ≤ Text.byteLength text + growth text := by
  unfold prepare at h ⊢
  cases hunquote : unquote text with
  | ok unquoted =>
    rw [hunquote] at h
    obtain ⟨delimiter, tokens, hproper, rfl, hlength, hgrowth⟩ := exists_tokens_of_ok hunquote
    have hshort : ∀ token ∈ tokens, token.bytes.length ≤ token.width :=
      fun token htoken => (hproper token htoken).length_le
    have hbytes := length_contentBytes_le hshort
    have hbody := OffsetMap.toBody_le offset hshort
    have hshift := Offset.shift_le 1 ((OffsetMap.ofTokens tokens).toBody offset)
    show Offset.shift 1 ((OffsetMap.ofTokens tokens).toBody offset) ≤ _
    lia
  | error error =>
    rw [hunquote] at h
    have htrimmed := byteLength_trimmed_le text error
    have hstart := Offset.clamp_le (Text.byteLength (text.takeWhile isQuote))
    have hbody : OffsetMap.identity.toBody offset ≤ offset := Offset.clamp_le offset
    have hshift := Offset.shift_le (Offset.clamp (Text.byteLength (text.takeWhile isQuote)))
      (OffsetMap.identity.toBody offset)
    show Offset.shift (Offset.clamp (Text.byteLength (text.takeWhile isQuote)))
        (OffsetMap.identity.toBody offset) ≤ _
    lia

/-- An offset of the literal is at least that of the content. -/
theorem clamp_le_literalOffset (prepared : Prepared) (offset : Offset) :
    Offset.clamp offset ≤ prepared.literalOffset offset := by
  have hbody : Offset.clamp offset ≤ prepared.map.toBody offset :=
    Offset.clamp_mono (Nat.le_add_right _ _)
  refine Nat.le_min.2 ⟨?_, Offset.clamp_le_limit offset⟩
  exact Nat.le_trans hbody (Nat.le_add_left _ _)

end Prepare

end Literal

end TagLint
