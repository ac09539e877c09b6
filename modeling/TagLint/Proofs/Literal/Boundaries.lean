import TagLint.Proofs.Literal.Tokens

/-!
# Boundaries of the content and of the body

A cut of the content bytes before the first byte of a character is a cut between two tokens
(`exists_split_of_boundary`), because only the first byte of a token can begin a character.
At such a cut the offset map is exact (`toBody_contentBytes`): it gives the body offset just
before the next token that stands for any bytes. Everywhere it is monotone (`toBody_mono`).
-/

namespace TagLint.Literal

/-! ## Cutting between tokens -/

/-- The bytes are none, or begin with a byte that can begin a character. -/
def BeginsChar (bytes : List UInt8) : Prop := ∀ b ∈ bytes.head?, b.IsUTF8FirstByte

theorem beginsChar_utf8 (cs : List Char) : BeginsChar (Text.utf8 cs) := by
  cases cs with
  | nil => simp [BeginsChar]
  | cons c cs =>
    have hfirst := UInt8.isUTF8FirstByte_getElem_zero_utf8EncodeChar (c := c)
    intro b hb
    cases hbytes : String.utf8EncodeChar c with
    | nil => simp at hbytes
    | cons first bytes =>
      simp only [hbytes, List.getElem_cons_zero] at hfirst
      simp only [Text.utf8_cons, hbytes, List.cons_append, List.head?_cons,
        Option.mem_some_iff] at hb
      exact hb ▸ hfirst

/-- The first token, if there is one, stands for some bytes. -/
def BeginsLoud (tokens : List Token) : Prop := ∀ token ∈ tokens.head?, token.bytes ≠ []

section Split

variable {delimiter : Delimiter}

theorem exists_split_of_boundary {tokens : List Token} {first second : List UInt8}
    (hproper : ∀ token ∈ tokens, token.Proper delimiter)
    (h : contentBytes tokens = first ++ second) (hsecond : BeginsChar second) :
    ∃ before after, tokens = before ++ after ∧ contentBytes before = first ∧
      contentBytes after = second ∧ BeginsLoud after := by
  induction tokens generalizing first with
  | nil =>
    obtain ⟨rfl, rfl⟩ := List.append_eq_nil_iff.1 h.symm
    exact ⟨[], [], rfl, rfl, rfl, by simp [BeginsLoud]⟩
  | cons token tokens ih =>
    obtain ⟨htoken, htokens⟩ := List.forall_mem_cons.1 hproper
    rw [contentBytes_cons] at h
    -- A cut after this token is a cut of the tokens that follow it.
    have hlater (rest : List UInt8) (hfirst : first = token.bytes ++ rest)
        (hrest : contentBytes tokens = rest ++ second) :
        ∃ before after, token :: tokens = before ++ after ∧ contentBytes before = first ∧
          contentBytes after = second ∧ BeginsLoud after := by
      obtain ⟨before, after, rfl, rfl, hafter, hloud⟩ := ih htokens hrest
      exact ⟨token :: before, after, rfl, hfirst.symm, hafter, hloud⟩
    rcases List.append_eq_append_iff.1 h with ⟨rest, hfirst, hrest⟩ | ⟨inside, hbytes, hinside⟩
    · exact hlater rest hfirst hrest
    · cases inside with
      | nil => exact hlater [] (by simpa using hbytes.symm) (by simpa using hinside.symm)
      | cons b inside =>
        cases first with
        | nil =>
          refine ⟨[], token :: tokens, rfl, rfl, h, ?_⟩
          simp [BeginsLoud, hbytes]
        | cons b' first =>
          -- The cut would fall inside a token, before a byte that begins no character.
          have hfirst : b.IsUTF8FirstByte := hsecond b (by simp [hinside])
          exact absurd hfirst (htoken.inner b (by simp [hbytes]))

end Split

/-! ## The offset map -/

namespace OffsetMap

/-- What the last anchor at or before the offset says, or `before` if there is none. -/
def extraFrom (before offset : Offset) : List Anchor → Offset
  | [] => before
  | anchor :: anchors =>
    if anchor.start ≤ offset then extraFrom anchor.extra offset anchors else before

theorem extraAt_eq_extraFrom (map : OffsetMap) (offset : Offset) :
    map.extraAt offset = extraFrom 0 offset map.anchors := by
  have hlast (before : Offset) (anchors : List Anchor) :
      (anchors.takeWhile (·.start ≤ offset)).getLast?.elim before Anchor.extra =
        extraFrom before offset anchors := by
    induction anchors generalizing before with
    | nil => rfl
    | cons anchor anchors ih =>
      rw [extraFrom, List.takeWhile_cons]
      by_cases hstart : anchor.start ≤ offset
      · rw [if_pos (by simpa using hstart), if_pos hstart, ← ih, List.getLast?_cons]
        cases (anchors.takeWhile (·.start ≤ offset)).getLast? <;> rfl
      · rw [if_neg (by simpa using hstart), if_neg hstart]
        rfl
  rw [← hlast 0 map.anchors, extraAt]
  cases (map.anchors.takeWhile (·.start ≤ offset)).getLast? <;> rfl

/-! ### The map is monotone -/

section Monotone

variable {tokens : List Token}

theorem ahead_mono {content body : Nat} {token : Token} (h : token.bytes.length ≤ token.width) :
    Offset.clamp (body - content) ≤
      Offset.clamp (body + token.width - (content + token.bytes.length)) :=
  Offset.clamp_mono (by omega)

/-- The body never falls back behind what it was ahead. -/
theorem le_extraFrom {content body before : Nat} (offset : Offset)
    (htokens : ∀ token ∈ tokens, token.bytes.length ≤ token.width)
    (hbefore : before ≤ Offset.clamp (body - content)) :
    before ≤ extraFrom before offset (anchorsFrom content body tokens) := by
  induction tokens generalizing content body before with
  | nil => exact Nat.le_refl _
  | cons token tokens ih =>
    obtain ⟨htoken, htokens⟩ := List.forall_mem_cons.1 htokens
    have hgrows := @ahead_mono content body token htoken
    rw [anchorsFrom]
    split
    · rw [extraFrom]
      split
      · exact Nat.le_trans (Nat.le_trans hbefore hgrows) (ih htokens (Nat.le_refl _))
      · exact Nat.le_refl _
    · exact ih htokens (Nat.le_trans hbefore hgrows)

theorem extraFrom_mono {content body before first second : Nat} (h : first ≤ second)
    (htokens : ∀ token ∈ tokens, token.bytes.length ≤ token.width)
    (hbefore : before ≤ Offset.clamp (body - content)) :
    extraFrom before first (anchorsFrom content body tokens) ≤
      extraFrom before second (anchorsFrom content body tokens) := by
  induction tokens generalizing content body before with
  | nil => exact Nat.le_refl _
  | cons token tokens ih =>
    obtain ⟨htoken, hrest⟩ := List.forall_mem_cons.1 htokens
    have hgrows := @ahead_mono content body token htoken
    rw [anchorsFrom]
    split
    · rw [extraFrom, extraFrom]
      by_cases hfirst : Offset.clamp (content + token.bytes.length) ≤ first
      · rw [if_pos hfirst, if_pos (Nat.le_trans hfirst h)]
        exact ih hrest (Nat.le_refl _)
      · rw [if_neg hfirst]
        split
        · exact Nat.le_trans (Nat.le_trans hbefore hgrows) (le_extraFrom _ hrest (Nat.le_refl _))
        · exact Nat.le_refl _
    · exact ih hrest (Nat.le_trans hbefore hgrows)

theorem extraAt_mono (tokens : List Token) {first second : Nat} (h : first ≤ second)
    (htokens : ∀ token ∈ tokens, token.bytes.length ≤ token.width) :
    (ofTokens tokens).extraAt first ≤ (ofTokens tokens).extraAt second := by
  rw [extraAt_eq_extraFrom, extraAt_eq_extraFrom]
  exact extraFrom_mono h htokens (Nat.zero_le _)

/-- A later content offset never lies earlier in the body. -/
theorem toBody_mono (tokens : List Token) {first second : Nat} (h : first ≤ second)
    (htokens : ∀ token ∈ tokens, token.bytes.length ≤ token.width) :
    (ofTokens tokens).toBody first ≤ (ofTokens tokens).toBody second :=
  Offset.clamp_mono (Nat.add_le_add h (extraAt_mono tokens h htokens))

end Monotone

/-! ### The map at a cut -/

section Exact

variable {before after : List Token}

/-- Anchors that lie past an offset say nothing about it. -/
theorem extraFrom_of_lt {content body extra offset : Nat} (tokens : List Token)
    (hoffset : offset < content) (hlimit : offset < Offset.limit) :
    extraFrom extra offset (anchorsFrom content body tokens) = extra := by
  induction tokens generalizing content body with
  | nil => rfl
  | cons token tokens ih =>
    rw [anchorsFrom]
    split
    · have hpast : ¬ Offset.clamp (content + token.bytes.length) ≤ offset := by
        simp only [Offset.clamp]
        lia
      rw [extraFrom, if_neg hpast]
    · exact ih (Nat.lt_add_right _ hoffset)

theorem extraFrom_contentBytes {content body : Nat} (hahead : content ≤ body)
    (htokens : ∀ token ∈ before ++ after, token.bytes.length ≤ token.width)
    (hafter : BeginsLoud after)
    (hlimit : body + Text.byteLength (sources (before ++ after)) ≤ Offset.limit) :
    extraFrom (body - content) (content + (contentBytes before).length)
        (anchorsFrom content body (before ++ after)) =
      body + Text.byteLength (sources before) - (content + (contentBytes before).length) := by
  induction before generalizing content body with
  | nil =>
    cases after with
    | nil => rfl
    | cons token after =>
      have hloud : 0 < token.bytes.length := List.length_pos_iff.2 (hafter token rfl)
      have hshort := htokens token (List.mem_append_right _ List.mem_cons_self)
      rw [List.nil_append, byteLength_sources_cons] at hlimit
      have hroom : content < Offset.limit := by omega
      simp only [List.nil_append, contentBytes_nil, List.length_nil, sources_nil,
        Text.byteLength_nil, Nat.add_zero, anchorsFrom]
      split
      · have hpast : ¬ Offset.clamp (content + token.bytes.length) ≤ content := by
          simp only [Offset.clamp]
          lia
        rw [extraFrom, if_neg hpast]
      · exact extraFrom_of_lt after (Nat.lt_add_of_pos_right hloud) hroom
  | cons token before ih =>
    obtain ⟨htoken, hrest⟩ := List.forall_mem_cons.1 htokens
    rw [List.cons_append, byteLength_sources_cons, ← Nat.add_assoc] at hlimit
    have hnext := ih (Nat.add_le_add hahead htoken) hrest hlimit
    rw [contentBytes_cons, List.length_append, ← Nat.add_assoc, byteLength_sources_cons,
      ← Nat.add_assoc, List.cons_append, anchorsFrom]
    split
    · have hstart : Offset.clamp (content + token.bytes.length) ≤
          content + token.bytes.length + (contentBytes before).length :=
        Nat.le_trans (Nat.min_le_left _ _) (Nat.le_add_right _ _)
      have hextra : Offset.clamp (body + token.width - (content + token.bytes.length)) =
          body + token.width - (content + token.bytes.length) :=
        Offset.clamp_of_le (by omega)
      rw [extraFrom, if_pos hstart, hextra, hnext]
    · rename_i hshrinks
      have hwidth : token.bytes.length = token.width := by
        simp only [Token.shrinks, decide_eq_true_eq] at hshrinks
        omega
      have hsame : body - content = body + token.width - (content + token.bytes.length) := by
        omega
      rw [hsame, hnext]

/-- At a cut before bytes of the content, the map gives what the tokens so far take. -/
theorem toBody_contentBytes
    (htokens : ∀ token ∈ before ++ after, token.bytes.length ≤ token.width)
    (hafter : BeginsLoud after)
    (hlimit : Text.byteLength (sources (before ++ after)) ≤ Offset.limit) :
    (ofTokens (before ++ after)).toBody (contentBytes before).length =
      Text.byteLength (sources before) := by
  have hextra := extraFrom_contentBytes (Nat.le_refl 0) htokens hafter (by simpa using hlimit)
  have hshort : (contentBytes before).length ≤ Text.byteLength (sources before) :=
    length_contentBytes_le fun token htoken => htokens token (List.mem_append_left _ htoken)
  rw [sources_append, Text.byteLength_append] at hlimit
  simp only [Nat.zero_add, Nat.sub_self] at hextra
  rw [toBody, extraAt_eq_extraFrom, ofTokens, hextra, Offset.shift_of_le (by omega)]
  exact Nat.add_sub_of_le hshort

end Exact

end OffsetMap

end TagLint.Literal
