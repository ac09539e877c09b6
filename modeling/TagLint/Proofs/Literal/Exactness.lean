import TagLint.Proofs.Literal.Grammar
import TagLint.Proofs.Literal.Provenance

/-!
# The offset map is exact

`unquote_exact`: unless unquoting a literal has to replace bytes that are not UTF-8, the offset
map takes the first byte that a token stands for to the place of the token in the body, and the
end of the content to the end of the body.

* A body has one split into tokens, and a literal is read by it (`tokens_eq_ok_iff`).
* The map is exact at every cut between two tokens that bytes follow, or nothing
  (`toBody_of_isSplit`). Nothing is said of the carriage returns of a raw literal, which stand for
  no byte: a run of them leaves one anchor each at one content offset, and the last of these counts.
* The anchors stand in order, so a search by halving finds the one that counts, as does any other
  that ends between two neighbours on either side of an offset (`extraAt_of_neighbours`).
-/

namespace TagLint.Literal

/-! ## The split of a body -/

/-- The tokens of raw bodies. -/
inductive IsRawToken : Token → Prop
  | plain {c : Char} : c ≠ Delimiter.raw.quote → c ≠ '\r' → IsRawToken (.plain c)
  | carriageReturn : IsRawToken ⟨['\r'], []⟩

/-- The tokens of bodies of a kind. -/
def Delimiter.IsToken : Delimiter → Token → Prop
  | .raw => IsRawToken
  | .interpreted => Literal.IsToken

/-- Tokens that spell a body. -/
structure IsSplit (delimiter : Delimiter) (body : List Char) (tokens : List Token) : Prop where
  isToken : ∀ token ∈ tokens, delimiter.IsToken token
  spells : sources tokens = body

theorem isRawToken_ofRaw {c : Char} (h : c ≠ Delimiter.raw.quote) : IsRawToken (.ofRaw c) := by
  unfold Token.ofRaw
  split
  · exact .carriageReturn
  · next hreturn => exact .plain h hreturn

theorem IsRawToken.proper {token : Token} (h : IsRawToken token) : token.Proper .raw := by
  cases h with
  | @plain c hquote hreturn =>
    have hraw : Token.ofRaw c = .plain c := if_neg hreturn
    exact hraw ▸ proper_ofRaw hquote
  | carriageReturn => exact @proper_ofRaw '\r' (by decide)

theorem Delimiter.IsToken.proper {delimiter : Delimiter} {token : Token}
    (h : delimiter.IsToken token) : token.Proper delimiter := by
  cases delimiter with
  | raw => exact IsRawToken.proper h
  | interpreted => exact Literal.IsToken.proper h

theorem isRawToken_of_mem {offset : Offset} {body : List Char} {tokens : List Token}
    (h : rawTokens offset body = .ok tokens) : ∀ token ∈ tokens, IsRawToken token := by
  induction body generalizing offset tokens with
  | nil =>
    obtain rfl := Except.ok.inj h
    simp
  | cons c cs ih =>
    rw [rawTokens] at h
    split at h
    · cases h
    · next hquote =>
      obtain ⟨later, hlater, rfl⟩ := ok_of_map_eq_ok h
      exact List.forall_mem_cons.2 ⟨isRawToken_ofRaw hquote, ih hlater⟩

/-- A body is read as the tokens that spell it. -/
theorem tokens_eq_ok_iff {delimiter : Delimiter} {body : List Char} {ts : List Token} :
    tokens delimiter body = .ok ts ↔ IsSplit delimiter body ts := by
  constructor
  · intro h
    cases delimiter with
    | raw => exact ⟨isRawToken_of_mem h, (tokens_of_raw h).1⟩
    | interpreted =>
      obtain ⟨htokens, hspells⟩ := interpretedTokens_eq_ok_iff.1 h
      exact ⟨htokens, hspells⟩
  · rintro ⟨htokens, hspells⟩
    rw [tokens_eq_tokensFrom, tokensFrom_eq_ok_iff]
    exact ⟨hspells, fun token htoken => (htokens token htoken).proper⟩

theorem IsSplit.unique {delimiter : Delimiter} {body : List Char} {first second : List Token}
    (hfirst : IsSplit delimiter body first) (hsecond : IsSplit delimiter body second) :
    first = second := by
  rw [← tokens_eq_ok_iff] at hfirst hsecond
  exact Except.ok.inj (hfirst.symm.trans hsecond)

/-! ## The search for an anchor -/

namespace OffsetMap

theorem le_start_of_mem_anchorsFrom {content body : Nat} {tokens : List Token} :
    ∀ anchor ∈ anchorsFrom content body tokens, Offset.clamp content ≤ anchor.start := by
  induction tokens generalizing content body with
  | nil => simp [anchorsFrom]
  | cons token tokens ih =>
    have hgrows : Offset.clamp content ≤ Offset.clamp (content + token.bytes.length) :=
      Offset.clamp_mono (Nat.le_add_right _ _)
    have hlater : ∀ anchor ∈ anchorsFrom (content + token.bytes.length) (body + token.width) tokens,
        Offset.clamp content ≤ anchor.start :=
      fun anchor hanchor => Nat.le_trans hgrows (ih anchor hanchor)
    rw [anchorsFrom]
    split
    · exact List.forall_mem_cons.2 ⟨hgrows, hlater⟩
    · exact hlater

/-- The anchors of a body stand in order. Those of a run of carriage returns start together. -/
theorem pairwise_anchorsFrom (content body : Nat) (tokens : List Token) :
    (anchorsFrom content body tokens).Pairwise fun first second => first.start ≤ second.start := by
  induction tokens generalizing content body with
  | nil => exact .nil
  | cons token tokens ih =>
    rw [anchorsFrom]
    split
    · exact .cons le_start_of_mem_anchorsFrom (ih _ _)
    · exact ih _ _

/-- An offset between two neighbours is moved by what the first of them says. -/
theorem extraAt_of_neighbours {tokens : List Token} {offset : Offset} {first second : List Anchor}
    (hsplit : (ofTokens tokens).anchors = first ++ second)
    (hfirst : ∀ anchor ∈ first.getLast?, anchor.start ≤ offset)
    (hsecond : ∀ anchor ∈ second.head?, offset < anchor.start) :
    (ofTokens tokens).extraAt offset = first.getLast?.elim 0 Anchor.extra := by
  have horder : (first ++ second).Pairwise fun first second => first.start ≤ second.start :=
    hsplit ▸ pairwise_anchorsFrom 0 0 tokens
  have hbefore : ∀ anchor ∈ first, decide (anchor.start ≤ offset) = true := by
    intro anchor hanchor
    rcases List.eq_nil_or_concat' first with rfl | ⟨init, last, rfl⟩
    · cases hanchor
    have hlast : last.start ≤ offset := hfirst last (by simp)
    rcases List.mem_append.1 hanchor with hinit | hlast'
    · have hle := (List.pairwise_append.1 (List.pairwise_append.1 horder).1).2.2 anchor hinit last
        (List.mem_singleton_self last)
      exact decide_eq_true (Nat.le_trans hle hlast)
    · obtain rfl := List.mem_singleton.1 hlast'
      exact decide_eq_true hlast
  have hafter : second.takeWhile (fun anchor => decide (anchor.start ≤ offset)) = [] := by
    cases second with
    | nil => rfl
    | cons anchor second =>
      have hpast : ¬ anchor.start ≤ offset := Nat.not_le.2 (hsecond anchor rfl)
      rw [List.takeWhile_cons, if_neg (by simpa using hpast)]
  rw [extraAt, hsplit, List.takeWhile_append_of_pos hbefore, hafter, List.append_nil]
  cases first.getLast? <;> rfl

end OffsetMap

/-! ## Exact maps -/

/-- What a literal denotes, with the tokens that its map is exact for. -/
structure Unquoted.Exact (unquoted : Unquoted) (text : List Char) (delimiter : Delimiter)
    (body : List Char) (tokens : List Token) : Prop where
  delimits : body? text = some (delimiter, body)
  split : IsSplit delimiter body tokens
  unique : ∀ others, IsSplit delimiter body others → others = tokens
  content : Text.utf8 unquoted.content = contentBytes tokens
  token : ∀ before token after, tokens = before ++ token :: after → token.bytes ≠ [] →
    unquoted.map.toBody (contentBytes before).length = Text.byteLength (sources before) ∧
      (prepare text).literalOffset (contentBytes before).length =
        Text.byteLength (sources before) + 1
  stop : unquoted.map.toBody (Text.byteLength unquoted.content) = Text.byteLength body
  /-- Whoever finds two neighbouring anchors on either side of an offset has found what counts. -/
  search : ∀ first second offset, unquoted.map.anchors = first ++ second →
    (∀ anchor ∈ first.getLast?, anchor.start ≤ offset) →
    (∀ anchor ∈ second.head?, offset < anchor.start) →
      unquoted.map.extraAt offset = first.getLast?.elim 0 Anchor.extra

section Exact

variable {text body : List Char} {delimiter : Delimiter} {unquoted : Unquoted} {ts : List Token}

/-- At every cut of its tokens that bytes follow, or nothing, a map is exact. -/
theorem toBody_of_isSplit (hsplit : IsSplit delimiter body ts)
    (hlimit : Text.byteLength body ≤ Offset.limit) {before after : List Token}
    (hcut : ts = before ++ after) (hloud : BeginsLoud after) :
    (Unquoted.ofTokens ts).map.toBody (contentBytes before).length =
      Text.byteLength (sources before) := by
  obtain ⟨htokens, rfl⟩ := hsplit
  subst hcut
  exact OffsetMap.toBody_contentBytes
    (fun token htoken => (htokens token htoken).proper.length_le) hloud hlimit

/-- An offset in the content of a literal that unquotes is one byte further in the literal than in
its body. -/
theorem literalOffset_of_unquote (h : unquote text = .ok unquoted) {offset : Offset}
    (hlimit : unquoted.map.toBody offset + 1 ≤ Offset.limit) :
    (prepare text).literalOffset offset = unquoted.map.toBody offset + 1 := by
  rw [Nat.add_comm] at hlimit
  rw [prepare, h, Prepared.literalOffset, Offset.shift_of_le hlimit, Nat.add_comm]

end Exact

/-- **Exactness.** The map of a literal takes each token that stands for some bytes, and the end of
the content, back to where they are in the body. -/
theorem unquote_exact {text : List Char} {unquoted : Unquoted} (h : unquote text = .ok unquoted)
    (hlossless : Lossless text) (hlimit : Text.byteLength text ≤ Offset.limit) :
    ∃ delimiter body tokens, unquoted.Exact text delimiter body tokens := by
  obtain ⟨delimiter, body, ts, hbody, hread, rfl⟩ := exists_tokens_of_unquote h
  have hlength := byteLength_of_body? hbody
  have hroom : Text.byteLength body ≤ Offset.limit := by omega
  have hsplit := tokens_eq_ok_iff.1 hread
  have hcontent : Text.utf8 (Unquoted.ofTokens ts).content = contentBytes ts :=
    hlossless ts (tokens?_eq_some hbody hread)
  refine ⟨delimiter, body, ts, hbody, hsplit, fun others hothers => hothers.unique hsplit,
    hcontent, ?token, ?stop, ?search⟩
  case token =>
    intro before token after hcut hbytes
    have hloud : BeginsLoud (token :: after) := by simpa [BeginsLoud] using hbytes
    have hexact := toBody_of_isSplit hsplit hroom hcut hloud
    have hinside : Text.byteLength (sources before) ≤ Text.byteLength body := by
      rw [← hsplit.spells, hcut, sources_append, Text.byteLength_append]
      exact Nat.le_add_right _ _
    refine ⟨hexact, ?_⟩
    rw [literalOffset_of_unquote h (by lia), hexact]
  case stop =>
    have hend := toBody_of_isSplit hsplit hroom (List.append_nil ts).symm (by simp [BeginsLoud])
    rwa [← hcontent, Text.length_utf8, hsplit.spells] at hend
  case search =>
    intro first second offset hanchors hfirst hsecond
    exact OffsetMap.extraAt_of_neighbours hanchors hfirst hsecond

/-- Two byte escapes that together form one character, an escaped quote, and a plain letter. -/
theorem unquote_exact_splitCharacter :
    unquote "\"\\xc3\\xa9\\\"x\"".toList =
        .ok ⟨"\u00e9\"x".toList, ⟨[⟨1, 3⟩, ⟨2, 6⟩, ⟨3, 7⟩]⟩⟩ ∧
      Lossless "\"\\xc3\\xa9\\\"x\"".toList ∧
      Text.byteLength "\"\\xc3\\xa9\\\"x\"".toList ≤ Offset.limit ∧
      ∃ delimiter body tokens, Unquoted.Exact
        ⟨"\u00e9\"x".toList, ⟨[⟨1, 3⟩, ⟨2, 6⟩, ⟨3, 7⟩]⟩⟩ "\"\\xc3\\xa9\\\"x\"".toList
        delimiter body tokens := by
  have hunquote : unquote "\"\\xc3\\xa9\\\"x\"".toList =
      .ok ⟨"\u00e9\"x".toList, ⟨[⟨1, 3⟩, ⟨2, 6⟩, ⟨3, 7⟩]⟩⟩ := by
    decide +kernel
  have hlossless : Lossless "\"\\xc3\\xa9\\\"x\"".toList := by
    unfold Lossless
    decide +kernel
  exact ⟨hunquote, hlossless, by decide, unquote_exact hunquote hlossless (by decide)⟩

/-- Where a raw literal has two carriage returns in a row, two anchors start together. -/
example : (unquote "\x60a\r\nb\r\r\nc\x60".toList).toOption.map (fun unquoted =>
    (unquoted.map.anchors, [0, 1, 2, 3, 4].map unquoted.map.toBody)) =
      some ([⟨1, 1⟩, ⟨3, 2⟩, ⟨3, 3⟩], [0, 2, 3, 6, 7]) := by
  decide +kernel

end TagLint.Literal
