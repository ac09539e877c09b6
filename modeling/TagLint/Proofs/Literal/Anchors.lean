import Mathlib.Order.Monotone.Defs
import TagLint.Proofs.Literal.Verbatim

/-!
# Anchors that can be searched

`unquote_searchable`: the anchors of a literal that unquotes are in order, whatever its bytes decode
to, so halving them finds the last anchor at or before an offset, and the map that uses it is
strictly increasing.

* An anchor is recorded after every escape sequence and every carriage return, without a look at
  their lengths (`Delimiter.recordings`). These are the anchors of the map, because exactly those
  tokens shrink (`head?_eq_mark_iff`, `anchors_eq_map_recordings`).
* From one recording to the next the body gains on the content (`pairwise_recordMarked`). So no
  subtraction in an anchor stops at zero, and in a literal whose offsets can all be reported nothing
  reaches the limit (`exact_of_mem_recordings`).
* Halving counts the anchors at or before an offset if those come first (`countByHalving_eq`), as
  they do in a table in order (`exists_split`), and so finds the last of them
  (`found?_eq_getLast?`).
-/

namespace TagLint.Literal

/-! ## Recording anchors -/

/-- How many bytes of the content and of the body have been read. -/
structure Progress where
  content : Nat
  body : Nat
deriving DecidableEq, Repr

namespace Progress

/-- What has been read after one more token. -/
def after (read : Progress) (token : Token) : Progress :=
  ⟨read.content + token.bytes.length, read.body + token.width⟩

/-- The anchor that is recorded. The subtraction stops at zero, and both numbers at the limit. -/
def anchor (read : Progress) : Anchor :=
  ⟨Offset.clamp read.content, Offset.clamp (read.body - read.content)⟩

/-- The body is ahead, and the anchor says exactly where and by how much: nothing was lost to the
subtraction or to the limit. -/
structure Exact (read : Progress) : Prop where
  ahead : read.content < read.body
  start : read.anchor.start = read.content
  extra : read.anchor.start + read.anchor.extra = read.body

/-- Between the two the body has gained on the content. -/
def Gains (first second : Progress) : Prop :=
  first.body + second.content < second.body + first.content

end Progress

/-- Reading tokens, with a recording after every token that begins with the mark. -/
def recordMarked (mark : Char) (read : Progress) : List Token → List Progress
  | [] => []
  | token :: tokens =>
    let later := recordMarked mark (read.after token) tokens
    if token.source.head? = some mark then read.after token :: later else later

/-- The places of the carriage returns in a text that begins at an offset. -/
def returnPlaces (offset : Offset) : List Char → List Offset
  | [] => []
  | c :: cs =>
    let later := returnPlaces (offset + c.utf8Size) cs
    if c = '\r' then offset :: later else later

/-- The recordings at the places of carriage returns, with `dropped` more of them before the first.
The content lacks those dropped before. -/
def recordReturns (dropped : Nat) (places : List Offset) : List Progress :=
  (places.zipIdx dropped).map fun (place, dropped) => ⟨place - dropped, place + 1⟩

/-- What is recorded while a body is read: in a raw one at the places of the carriage returns, in an
interpreted one after the escape sequences. -/
def Delimiter.recordings : Delimiter → List Char → List Token → List Progress
  | .raw, body, _ => recordReturns 0 (returnPlaces 0 body)
  | .interpreted, _, tokens => recordMarked Delimiter.interpreted.mark ⟨0, 0⟩ tokens

section Recordings

variable {delimiter : Delimiter} {tokens : List Token}

/-- The tokens that begin with the mark are those that shrink. -/
theorem Delimiter.IsToken.head?_eq_mark_iff {token : Token} (h : delimiter.IsToken token) :
    token.source.head? = some delimiter.mark ↔ token.shrinks = true := by
  rcases h.plain_or_marked with ⟨c, rfl, hc⟩ | ⟨⟨tail, htail⟩, hshrinks⟩
  · have hkept : (Token.plain c).shrinks = false :=
      decide_eq_false (Nat.not_lt.2 (Nat.le_of_eq (Token.width_plain c)))
    rw [hkept]
    simpa [Token.plain] using hc
  · rw [htail, hshrinks]
    simp

theorem recordReturns_cons (dropped place : Nat) (places : List Offset) :
    recordReturns dropped (place :: places) =
      ⟨place - dropped, place + 1⟩ :: recordReturns (dropped + 1) places := rfl

/-- Counting the carriage returns that were dropped gives the length of the content. -/
theorem recordReturns_sources (htokens : ∀ token ∈ tokens, IsRawToken token)
    (content dropped : Nat) :
    recordReturns dropped (returnPlaces (content + dropped) (sources tokens)) =
      recordMarked Delimiter.raw.mark ⟨content, content + dropped⟩ tokens := by
  induction tokens generalizing content dropped with
  | nil => rfl
  | cons token tokens ih =>
    obtain ⟨htoken, hrest⟩ := List.forall_mem_cons.1 htokens
    cases htoken with
    | @plain c _ hreturn =>
      have hnext := ih hrest (content + c.utf8Size) dropped
      rw [Nat.add_right_comm] at hnext
      have hafter : Progress.after ⟨content, content + dropped⟩ (.plain c) =
          ⟨content + c.utf8Size, content + dropped + c.utf8Size⟩ := by
        rw [Progress.after, Token.width_plain, Token.plain, String.length_utf8EncodeChar]
      have hmark : ¬ (Token.plain c).source.head? = some Delimiter.raw.mark := by
        simpa [Token.plain, Delimiter.mark] using hreturn
      rw [recordMarked, if_neg hmark, hafter, ← hnext]
      show recordReturns dropped (returnPlaces _ (c :: sources tokens)) = _
      rw [returnPlaces, if_neg hreturn]
    | carriageReturn =>
      have hnext := ih hrest content (dropped + 1)
      show recordReturns dropped
          ((content + dropped) :: returnPlaces (content + (dropped + 1)) (sources tokens)) =
        ⟨content, content + (dropped + 1)⟩ ::
          recordMarked Delimiter.raw.mark ⟨content, content + (dropped + 1)⟩ tokens
      rw [recordReturns_cons, hnext, Nat.add_sub_cancel, Nat.add_assoc]

/-- Both kinds of bodies are recorded alike. -/
theorem recordings_eq {body : List Char} (h : IsSplit delimiter body tokens) :
    delimiter.recordings body tokens = recordMarked delimiter.mark ⟨0, 0⟩ tokens := by
  cases delimiter with
  | raw =>
    rw [Delimiter.recordings, ← h.spells]
    exact recordReturns_sources h.isToken 0 0
  | interpreted => rfl

theorem anchorsFrom_eq_map (htokens : ∀ token ∈ tokens, delimiter.IsToken token)
    (read : Progress) :
    OffsetMap.anchorsFrom read.content read.body tokens =
      (recordMarked delimiter.mark read tokens).map Progress.anchor := by
  induction tokens generalizing read with
  | nil => rfl
  | cons token tokens ih =>
    obtain ⟨htoken, hrest⟩ := List.forall_mem_cons.1 htokens
    have hlater := ih hrest (read.after token)
    simp only [recordMarked, htoken.head?_eq_mark_iff, OffsetMap.anchorsFrom]
    split
    · rw [List.map_cons, ← hlater]
      rfl
    · rw [← hlater]
      rfl

/-- The map of a body has the anchors that are recorded while it is read. -/
theorem anchors_eq_map_recordings {body : List Char} (h : IsSplit delimiter body tokens) :
    (OffsetMap.ofTokens tokens).anchors =
      (delimiter.recordings body tokens).map Progress.anchor := by
  rw [recordings_eq h]
  exact anchorsFrom_eq_map h.isToken ⟨0, 0⟩

/-! ## The body runs ahead -/

/-- Up to any recording the body gains on the content. -/
theorem gains_of_mem_recordMarked (htokens : ∀ token ∈ tokens, delimiter.IsToken token)
    {read later : Progress} (h : later ∈ recordMarked delimiter.mark read tokens) :
    read.Gains later := by
  induction tokens generalizing read with
  | nil => cases h
  | cons token tokens ih =>
    obtain ⟨htoken, hrest⟩ := List.forall_mem_cons.1 htokens
    have hshort := htoken.proper.length_le
    -- A token never makes the body fall back, so a gain behind it is a gain from here.
    have hlater (hmem : later ∈ recordMarked delimiter.mark (read.after token) tokens) :
        read.Gains later := by
      have hgain := ih hrest hmem
      simp only [Progress.Gains, Progress.after] at hgain ⊢
      omega
    simp only [recordMarked, htoken.head?_eq_mark_iff] at h
    split at h
    · next hshrinks =>
      rcases List.mem_cons.1 h with rfl | hmem
      · have hless : token.bytes.length < token.width := of_decide_eq_true hshrinks
        simp only [Progress.Gains, Progress.after]
        omega
      · exact hlater hmem
    · exact hlater h

theorem pairwise_recordMarked (htokens : ∀ token ∈ tokens, delimiter.IsToken token)
    (read : Progress) :
    (recordMarked delimiter.mark read tokens).Pairwise Progress.Gains := by
  induction tokens generalizing read with
  | nil => exact .nil
  | cons token tokens ih =>
    obtain ⟨-, hrest⟩ := List.forall_mem_cons.1 htokens
    rw [recordMarked]
    split
    · exact .cons (fun later hlater => gains_of_mem_recordMarked hrest hlater) (ih hrest _)
    · exact ih hrest _

/-- No recording lies past the end of the body. -/
theorem body_le_of_mem_recordMarked {mark : Char} {read later : Progress}
    (h : later ∈ recordMarked mark read tokens) :
    later.body ≤ read.body + Text.byteLength (sources tokens) := by
  induction tokens generalizing read with
  | nil => cases h
  | cons token tokens ih =>
    rw [byteLength_sources_cons, ← Nat.add_assoc]
    simp only [recordMarked] at h
    split at h
    · rcases List.mem_cons.1 h with rfl | hmem
      · exact Nat.le_add_right _ _
      · exact ih hmem
    · exact ih h

/-- A recording with room for it is exact. -/
theorem Progress.Gains.exact {read : Progress} (h : Progress.Gains ⟨0, 0⟩ read)
    (hlimit : read.body ≤ Offset.limit) : read.Exact := by
  have hahead : read.content < read.body := by simpa [Progress.Gains] using h
  have hstart : read.anchor.start = read.content := Offset.clamp_of_le (by omega)
  have hextra : read.anchor.extra = read.body - read.content := Offset.clamp_of_le (by omega)
  refine ⟨hahead, hstart, ?_⟩
  rw [hstart, hextra]
  exact Nat.add_sub_cancel' (Nat.le_of_lt hahead)

section Split

variable {body : List Char} (hsplit : IsSplit delimiter body tokens)
  (hlimit : Text.byteLength body ≤ Offset.limit)

include hsplit hlimit

theorem exact_of_mem_recordings {read : Progress} (h : read ∈ delimiter.recordings body tokens) :
    read.Exact := by
  rw [recordings_eq hsplit] at h
  have hend := body_le_of_mem_recordMarked h
  rw [hsplit.spells, Nat.zero_add] at hend
  exact (gains_of_mem_recordMarked hsplit.isToken h).exact (Nat.le_trans hend hlimit)

/-- Each anchor of a body is further ahead than those before it. -/
theorem pairwise_extra :
    (OffsetMap.ofTokens tokens).anchors.Pairwise
      fun first second => first.extra < second.extra := by
  rw [anchors_eq_map_recordings hsplit, List.pairwise_map]
  have hgains : (delimiter.recordings body tokens).Pairwise Progress.Gains := by
    rw [recordings_eq hsplit]
    exact pairwise_recordMarked hsplit.isToken _
  refine hgains.imp_of_mem ?_
  intro first second hfirst hsecond hgain
  have hfirst := exact_of_mem_recordings hsplit hlimit hfirst
  have hsecond := exact_of_mem_recordings hsplit hlimit hsecond
  rw [Progress.Gains, ← hfirst.extra, ← hsecond.extra, hfirst.start, hsecond.start] at hgain
  lia

end Split

end Recordings

/-! ## Searching by halving -/

/-- How many indices pass, if those that pass come first, of `size` many from `base` on. The one in
the middle is asked, and stays among those left if it passes. -/
def countByHalving (passes : Nat → Bool) (base : Nat) : Nat → Nat
  | 0 => base
  | 1 => if passes base then base + 1 else base
  | size + 2 =>
    let half := (size + 2) / 2
    if passes (base + half) then countByHalving passes (base + half) (size + 2 - half)
    else countByHalving passes base (size + 2 - half)

/-- Halving finds where passing stops. -/
theorem countByHalving_eq {passes : Nat → Bool} {base size count : Nat} (hlow : base ≤ count)
    (hhigh : count ≤ base + size)
    (hpasses : ∀ index < base + size, passes index = true ↔ index < count) :
    countByHalving passes base size = count := by
  fun_induction countByHalving passes base size with
  | case1 base => omega
  | case2 base hpass =>
    have hcount := (hpasses base (by omega)).1 hpass
    omega
  | case3 base hfail =>
    have hcount : ¬ base < count := fun h => hfail ((hpasses base (by omega)).2 h)
    omega
  | case4 base size half hpass ih =>
    have hcount := (hpasses (base + half) (by omega)).1 hpass
    exact ih (by omega) (by omega) fun index hindex => hpasses index (by omega)
  | case5 base size half hfail ih =>
    have hcount : ¬ base + half < count := fun h => hfail ((hpasses (base + half) (by omega)).2 h)
    exact ih hlow (by omega) fun index hindex => hpasses index (by omega)

namespace OffsetMap

/-- The number of anchors at or before an offset, found by halving. -/
def countUpTo (map : OffsetMap) (offset : Offset) : Nat :=
  countByHalving (fun index => map.anchors[index]?.any (·.start ≤ offset)) 0 map.anchors.length

/-- The anchor that halving finds for an offset. -/
def found? (map : OffsetMap) (offset : Offset) : Option Anchor :=
  match map.countUpTo offset with
  | 0 => none
  | index + 1 => map.anchors[index]?

/-- An offset splits anchors in order into those at or before it and those after it. -/
theorem exists_split {anchors : List Anchor} (offset : Offset)
    (horder : anchors.Pairwise fun first second => first.start ≤ second.start) :
    ∃ first second, anchors = first ++ second ∧ (∀ anchor ∈ first, anchor.start ≤ offset) ∧
      ∀ anchor ∈ second, offset < anchor.start := by
  induction anchors with
  | nil => exact ⟨[], [], rfl, by simp, by simp⟩
  | cons anchor anchors ih =>
    obtain ⟨hfirst, hrest⟩ := List.pairwise_cons.1 horder
    by_cases hstart : anchor.start ≤ offset
    · obtain ⟨first, second, rfl, hbefore, hafter⟩ := ih hrest
      exact ⟨anchor :: first, second, rfl, List.forall_mem_cons.2 ⟨hstart, hbefore⟩, hafter⟩
    · rw [Nat.not_le] at hstart
      refine ⟨[], anchor :: anchors, rfl, by simp, List.forall_mem_cons.2 ⟨hstart, ?_⟩⟩
      intro later hlater
      exact Nat.lt_of_lt_of_le hstart (hfirst later hlater)

section Split

variable {map : OffsetMap} {offset : Offset} {first second : List Anchor}
  (hsplit : map.anchors = first ++ second) (hfirst : ∀ anchor ∈ first, anchor.start ≤ offset)
  (hsecond : ∀ anchor ∈ second, offset < anchor.start)

include hsplit hfirst hsecond

theorem start_le_iff {index : Nat} {anchor : Anchor} (h : map.anchors[index]? = some anchor) :
    anchor.start ≤ offset ↔ index < first.length := by
  rw [hsplit] at h
  rcases Nat.lt_or_ge index first.length with hindex | hindex
  · rw [List.getElem?_append_left hindex] at h
    exact iff_of_true (hfirst anchor (List.mem_of_getElem? h)) hindex
  · rw [List.getElem?_append_right hindex] at h
    have hafter := hsecond anchor (List.mem_of_getElem? h)
    exact iff_of_false (Nat.not_le.2 hafter) (Nat.not_lt.2 hindex)

theorem countUpTo_eq : map.countUpTo offset = first.length := by
  refine countByHalving_eq (Nat.zero_le _) (by simp [hsplit]) ?_
  intro index hindex
  rw [Nat.zero_add] at hindex
  have hget := List.getElem?_eq_getElem hindex
  rw [← start_le_iff hsplit hfirst hsecond hget, hget]
  simp

theorem found?_eq : map.found? offset = first.getLast? := by
  rw [found?, countUpTo_eq hsplit hfirst hsecond, List.getLast?_eq_getElem?, hsplit]
  cases hlength : first.length with
  | zero =>
    rw [List.eq_nil_of_length_eq_zero hlength]
    rfl
  | succ index =>
    exact List.getElem?_append_left (by omega)

/-- The anchors at or before an offset are those in front. -/
theorem filter_eq : map.anchors.filter (·.start ≤ offset) = first := by
  have hkept : first.filter (fun anchor => decide (anchor.start ≤ offset)) = first :=
    List.filter_eq_self.2 fun anchor hanchor => decide_eq_true (hfirst anchor hanchor)
  have hgone : second.filter (fun anchor => decide (anchor.start ≤ offset)) = [] :=
    List.filter_eq_nil_iff.2 fun anchor hanchor => by simpa using hsecond anchor hanchor
  rw [hsplit, List.filter_append, hkept, hgone, List.append_nil]

end Split

section Ordered

variable {map : OffsetMap}
  (horder : map.anchors.Pairwise fun first second => first.start ≤ second.start)

include horder

/-- In a table in order, halving counts the anchors at or before an offset. -/
theorem start_le_iff_lt_countUpTo {offset : Offset} {index : Nat} {anchor : Anchor}
    (h : map.anchors[index]? = some anchor) :
    anchor.start ≤ offset ↔ index < map.countUpTo offset := by
  obtain ⟨first, second, hsplit, hfirst, hsecond⟩ := exists_split offset horder
  rw [countUpTo_eq hsplit hfirst hsecond]
  exact start_le_iff hsplit hfirst hsecond h

/-- So it finds the last of them. -/
theorem found?_eq_getLast? (offset : Offset) :
    map.found? offset = (map.anchors.filter (·.start ≤ offset)).getLast? := by
  obtain ⟨first, second, hsplit, hfirst, hsecond⟩ := exists_split offset horder
  rw [found?_eq hsplit hfirst hsecond, filter_eq hsplit hfirst hsecond]

end Ordered

/-- Out of order, an anchor can hide behind one that starts too late. -/
example : found? ⟨[⟨1, 1⟩, ⟨5, 2⟩, ⟨2, 3⟩]⟩ 2 = some ⟨1, 1⟩ ∧
    ([⟨1, 1⟩, ⟨5, 2⟩, ⟨2, 3⟩].filter fun anchor : Anchor => anchor.start ≤ 2).getLast? =
      some ⟨2, 3⟩ := by
  decide +kernel

/-- A map that can be searched by halving, and what it says of offsets. -/
structure Searchable (map : OffsetMap) : Prop where
  starts : map.anchors.Pairwise fun first second => first.start ≤ second.start
  extras : map.anchors.Pairwise fun first second => first.extra < second.extra
  /-- The anchors that halving counts are those at or before the offset. -/
  counted : ∀ offset index anchor, map.anchors[index]? = some anchor →
    (anchor.start ≤ offset ↔ index < map.countUpTo offset)
  /-- So the last of all anchors at or before the offset is found. -/
  found : ∀ offset, map.found? offset = (map.anchors.filter (·.start ≤ offset)).getLast?
  toBody_eq : ∀ offset,
    map.toBody offset = Offset.shift offset ((map.found? offset).elim 0 Anchor.extra)
  le_toBody : ∀ offset ≤ Offset.limit, offset ≤ map.toBody offset
  /-- The map is strictly increasing on the offsets that it moves without saturating. -/
  strictMonoOn : StrictMonoOn map.toBody {offset | offset + map.extraAt offset ≤ Offset.limit}

end OffsetMap

/-- The anchors of a literal are those recorded while its body is read, each of them exact. -/
structure Unquoted.Recorded (unquoted : Unquoted) (text : List Char) (delimiter : Delimiter)
    (body : List Char) (tokens : List Token) : Prop where
  delimits : body? text = some (delimiter, body)
  split : IsSplit delimiter body tokens
  anchors : unquoted.map.anchors = (delimiter.recordings body tokens).map Progress.anchor
  exact : ∀ read ∈ delimiter.recordings body tokens, read.Exact

/-- The map of a body whose offsets can all be reported can be searched. -/
theorem searchable_ofTokens {delimiter : Delimiter} {body : List Char} {tokens : List Token}
    (hsplit : IsSplit delimiter body tokens) (hlimit : Text.byteLength body ≤ Offset.limit) :
    (OffsetMap.ofTokens tokens).Searchable := by
  have hstarts : (OffsetMap.ofTokens tokens).anchors.Pairwise
      fun first second => first.start ≤ second.start := OffsetMap.pairwise_anchorsFrom 0 0 tokens
  have hshort : ∀ token ∈ tokens, token.bytes.length ≤ token.width :=
    fun token htoken => (hsplit.isToken token htoken).proper.length_le
  refine ⟨hstarts, pairwise_extra hsplit hlimit, ?counted, ?found, ?toBody_eq, ?le_toBody,
    ?strictMonoOn⟩
  case counted =>
    intro offset index anchor hanchor
    exact OffsetMap.start_le_iff_lt_countUpTo hstarts hanchor
  case found =>
    intro offset
    exact OffsetMap.found?_eq_getLast? hstarts offset
  case toBody_eq =>
    intro offset
    obtain ⟨first, second, hanchors, hfirst, hsecond⟩ := OffsetMap.exists_split offset hstarts
    rw [OffsetMap.found?_eq hanchors hfirst hsecond, OffsetMap.toBody,
      OffsetMap.extraAt_of_neighbours hanchors
        (fun anchor hlast => hfirst anchor (List.mem_of_getLast? hlast))
        (fun anchor hhead => hsecond anchor (List.mem_of_head? hhead))]
  case le_toBody =>
    intro offset hoffset
    exact Nat.le_min.2 ⟨Nat.le_add_right _ _, hoffset⟩
  case strictMonoOn =>
    intro first hfirst second hsecond hlt
    rw [OffsetMap.toBody, OffsetMap.toBody, Offset.shift_of_le hfirst, Offset.shift_of_le hsecond]
    exact Nat.add_lt_add_of_lt_of_le hlt
      (OffsetMap.extraAt_mono tokens (Nat.le_of_lt hlt) hshort)

/-- **Anchors.** Whatever a literal that unquotes contains, its anchors are recorded without loss
and can be searched by halving. -/
theorem unquote_searchable {text : List Char} {unquoted : Unquoted}
    (h : unquote text = .ok unquoted) (hlimit : Text.byteLength text ≤ Offset.limit) :
    (∃ delimiter body tokens, unquoted.Recorded text delimiter body tokens) ∧
      unquoted.map.Searchable := by
  obtain ⟨delimiter, body, tokens, hbody, hread, rfl⟩ := exists_tokens_of_unquote h
  have hlength := byteLength_of_body? hbody
  have hroom : Text.byteLength body ≤ Offset.limit := by omega
  have hsplit := tokens_eq_ok_iff.1 hread
  refine ⟨⟨delimiter, body, tokens, hbody, hsplit, ?anchors, ?exact⟩, ?searchable⟩
  case anchors => exact anchors_eq_map_recordings hsplit
  case exact =>
    intro read hmem
    exact exact_of_mem_recordings hsplit hroom hmem
  case searchable => exact searchable_ofTokens hsplit hroom

/-- A byte that is no UTF-8, a plain character of two bytes, and three more escape sequences. -/
theorem unquote_searchable_lossyEscapes :
    unquote "\"\\xff\u00e9\\u20ac\\101\\\"\"".toList =
        .ok ⟨"\ufffd\u00e9\u20acA\"".toList, ⟨[⟨1, 3⟩, ⟨6, 6⟩, ⟨7, 9⟩, ⟨8, 10⟩]⟩⟩ ∧
      Text.byteLength "\"\\xff\u00e9\\u20ac\\101\\\"\"".toList ≤ Offset.limit ∧
      (∃ delimiter body tokens, Unquoted.Recorded
        ⟨"\ufffd\u00e9\u20acA\"".toList, ⟨[⟨1, 3⟩, ⟨6, 6⟩, ⟨7, 9⟩, ⟨8, 10⟩]⟩⟩
        "\"\\xff\u00e9\\u20ac\\101\\\"\"".toList delimiter body tokens) ∧
      OffsetMap.Searchable ⟨[⟨1, 3⟩, ⟨6, 6⟩, ⟨7, 9⟩, ⟨8, 10⟩]⟩ := by
  have hunquote : unquote "\"\\xff\u00e9\\u20ac\\101\\\"\"".toList =
      .ok ⟨"\ufffd\u00e9\u20acA\"".toList, ⟨[⟨1, 3⟩, ⟨6, 6⟩, ⟨7, 9⟩, ⟨8, 10⟩]⟩⟩ := by
    decide +kernel
  exact ⟨hunquote, by decide, unquote_searchable hunquote (by decide)⟩

end TagLint.Literal
