import TagLint.Proofs.Tag.Escapes
import TagLint.Proofs.Text.Cut

/-!
# Well-formed tags, as they are written

A written tag is data from which the text follows: spaces, then pairs `key:"value"`, each
but the last followed by a gap, and the last one followed by a gap or by nothing. The
conditions on keys, values and gaps are fields of the data, so every `WrittenTag` is well
formed and its text needs no side condition.

`WrittenTag.placed` says where the pairs stand, and `spells_of_mem_placed` that they do
stand there.
-/

namespace TagLint

/-- A pair with a plain key and a value that can stand between quotes as it is. -/
structure WrittenPair where
  key : List Char
  value : List Char
  key_ne_nil : key ≠ []
  key_plain : ∀ c ∈ key, isKeyChar c = true
  value_head : ∀ c rest, value = c :: rest → Text.isControl c = false
  value_escaped : QuotesEscaped value
  value_even : backslashesAtEnd value % 2 = 0

/-- What stands between two pairs: one character, whichever it is as long as it is no control
character, and then spaces. -/
structure Gap where
  filler : Char
  spaces : Nat
  filler_ok : Text.isControl filler = false

structure WrittenTag where
  indent : Nat
  gapped : List (WrittenPair × Gap)
  last? : Option WrittenPair

def WrittenPair.text (pair : WrittenPair) : List Char :=
  pair.key ++ ':' :: '"' :: (pair.value ++ ['"'])

def Gap.text (gap : Gap) : List Char := gap.filler :: List.replicate gap.spaces ' '

def gappedText (pairs : List (WrittenPair × Gap)) : List Char :=
  pairs.flatMap fun (pair, gap) => pair.text ++ gap.text

theorem gappedText_cons (pair : WrittenPair) (gap : Gap) (rest : List (WrittenPair × Gap)) :
    gappedText ((pair, gap) :: rest) = (pair.text ++ gap.text) ++ gappedText rest := rfl

namespace WrittenTag

def text (tag : WrittenTag) : List Char :=
  List.replicate tag.indent ' ' ++
    (gappedText tag.gapped ++ (tag.last?.map WrittenPair.text).getD [])

def pairs (tag : WrittenTag) : List WrittenPair := tag.gapped.map Prod.fst ++ tag.last?.toList

/-- The pairs with the byte positions of their keys, the first at `offset`. -/
def placeGapped (offset : Offset) : List (WrittenPair × Gap) → List (Offset × WrittenPair)
  | [] => []
  | (pair, gap) :: rest =>
    (offset, pair) :: placeGapped (offset + Text.byteLength (pair.text ++ gap.text)) rest

/-- The pairs of a tag with the byte positions of their keys. -/
def placed (tag : WrittenTag) : List (Offset × WrittenPair) :=
  placeGapped tag.indent tag.gapped ++
    tag.last?.toList.map fun pair => (tag.indent + Text.byteLength (gappedText tag.gapped), pair)

end WrittenTag

/-- The entry of a pair whose key stands at `offset` in the source. An empty value stands
at the opening quote, any other value just after it. -/
def WrittenPair.entry (offset : Offset) (pair : WrittenPair) : Entry where
  key := String.ofList pair.key
  value := String.ofList pair.value
  keyOffset := offset
  valueOffset := offset + Text.byteLength pair.key + (if pair.value = [] then 1 else 2)
  valueEnd :=
    offset + Text.byteLength pair.key + (if pair.value = [] then 1 else 2) +
      Text.byteLength pair.value
  quoted := true
  unterminated := false
  separated := true

/-! ## Texts and positions -/

@[simp] theorem byteLength_spaces (n : Nat) : Text.byteLength (List.replicate n ' ') = n := by
  induction n with
  | zero => rfl
  | succ n ih =>
    rw [List.replicate_succ, Text.byteLength_cons, ih, show ' '.utf8Size = 1 from rfl]
    omega

namespace WrittenTag

theorem map_placeGapped (offset : Offset) (pairs : List (WrittenPair × Gap)) :
    (placeGapped offset pairs).map Prod.snd = pairs.map Prod.fst := by
  induction pairs generalizing offset with
  | nil => rfl
  | cons head rest ih => simp [placeGapped, ih]

theorem map_placed (tag : WrittenTag) : tag.placed.map Prod.snd = tag.pairs := by
  cases h : tag.last? <;> simp [placed, pairs, map_placeGapped, h]

theorem spells_of_mem_placeGapped {pairs : List (WrittenPair × Gap)} {before after : List Char}
    {offset : Offset} {pair : WrittenPair}
    (h : (offset, pair) ∈ placeGapped (Text.byteLength before) pairs) :
    (⟨offset, offset + Text.byteLength pair.text⟩ : Span).Spells
      (before ++ (gappedText pairs ++ after)) pair.text := by
  induction pairs generalizing before with
  | nil => simp [placeGapped] at h
  | cons head rest ih =>
    obtain ⟨first, gap⟩ := head
    simp only [placeGapped, List.mem_cons, Prod.mk.injEq] at h
    rcases h with ⟨rfl, rfl⟩ | h
    · exact ⟨before, gap.text ++ (gappedText rest ++ after), by simp [gappedText], rfl⟩
    · have hrest := @ih (before ++ (first.text ++ gap.text))
        (by rwa [Text.byteLength_append])
      simpa [gappedText] using hrest

/-- Every pair stands in the text at the position it is placed at. -/
theorem spells_of_mem_placed {tag : WrittenTag} {offset : Offset} {pair : WrittenPair}
    (h : (offset, pair) ∈ tag.placed) :
    (⟨offset, offset + Text.byteLength pair.text⟩ : Span).Spells tag.text pair.text := by
  rcases List.mem_append.1 h with h | h
  · rw [← byteLength_spaces tag.indent] at h
    exact spells_of_mem_placeGapped h
  · cases hlast : tag.last? with
    | none => simp [hlast] at h
    | some last =>
      simp only [hlast, Option.toList_some, List.map_cons, List.map_nil, List.mem_singleton,
        Prod.mk.injEq] at h
      obtain ⟨rfl, rfl⟩ := h
      exact ⟨List.replicate tag.indent ' ' ++ gappedText tag.gapped, [],
        by simp [text, hlast], by simp⟩

end WrittenTag

end TagLint
