import Mathlib.Data.List.DropRight
import TagLint.Tag.Entry

/-!
# Spans and the texts they spell

A span `Spells` a text in a content when the text stands exactly there, between a first
part and a last part of the content. Cutting such a span gives the text back, and a span
keeps what it spells when the content grows at its end.

A span is also a set of byte positions, those it `Covers`. The two views meet in
`Cuts.holds_of_covers`: a span with its ends at boundaries that covers some byte of a
character holds the whole character.
-/

namespace TagLint

namespace Text

theorem dropEndWhile_eq_rdropWhile (p : Char → Bool) (cs : List Char) :
    dropEndWhile p cs = cs.rdropWhile p := rfl

/-- The UTF-8 bytes of a text. -/
def utf8 (cs : List Char) : List UInt8 := cs.flatMap String.utf8EncodeChar

@[simp] theorem utf8_nil : utf8 [] = [] := rfl

@[simp] theorem utf8_cons (c : Char) (cs : List Char) :
    utf8 (c :: cs) = String.utf8EncodeChar c ++ utf8 cs := rfl

@[simp] theorem utf8_append (cs ds : List Char) : utf8 (cs ++ ds) = utf8 cs ++ utf8 ds := by
  simp [utf8]

@[simp] theorem length_utf8 (cs : List Char) : (utf8 cs).length = byteLength cs := by
  induction cs with
  | nil => rfl
  | cons c cs ih => simp [ih]

theorem byteLength_concat (cs : List Char) (c : Char) :
    byteLength (cs ++ [c]) = byteLength cs + c.utf8Size := by
  simp

theorem byteLength_lt_concat (cs : List Char) (c : Char) :
    byteLength cs < byteLength (cs ++ [c]) := by
  rw [byteLength_concat]
  exact Nat.lt_add_of_pos_right c.utf8Size_pos

theorem length_le_byteLength (cs : List Char) : cs.length ≤ byteLength cs := by
  induction cs with
  | nil => exact Nat.le_refl _
  | cons c cs ih =>
    have hpos := c.utf8Size_pos
    rw [List.length_cons, byteLength_cons]
    omega

theorem eq_nil_of_byteLength_eq_zero {cs : List Char} (h : byteLength cs = 0) : cs = [] := by
  cases cs with
  | nil => rfl
  | cons c cs =>
    have hpos := c.utf8Size_pos
    rw [byteLength_cons] at h
    omega

/-- A boundary of a text does not fall inside one of its characters. -/
theorem boundary_outside {first last before after : List Char} {c : Char}
    (h : before ++ c :: after = first ++ last) :
    byteLength first ≤ byteLength before ∨ byteLength before + c.utf8Size ≤ byteLength first := by
  rcases List.append_eq_append_iff.1 h with ⟨more, rfl, hmore⟩ | ⟨more, rfl, -⟩
  · cases more with
    | nil => simp
    | cons d more =>
      obtain ⟨rfl, -⟩ := List.cons.inj hmore
      right
      simp only [byteLength_append, byteLength_cons]
      omega
  · simp

end Text

/-- The span is the place of a text in a content. -/
def Span.Spells (span : Span) (content text : List Char) : Prop :=
  ∃ before after, content = before ++ (text ++ after) ∧
    span = ⟨Text.byteLength before, Text.byteLength before + Text.byteLength text⟩

namespace Span

/-- Cutting the place of a text gives the text. -/
theorem cut_of_spells {span : Span} {content text : List Char} (h : span.Spells content text) :
    span.cut content = String.ofList text := by
  obtain ⟨before, after, rfl, rfl⟩ := h
  simp [cut, Text.slice, Text.slice?_append]

/-- A point holds no text, wherever it lies. -/
theorem cut_eq_empty {span : Span} (h : span.start = span.stop) (content : List Char) :
    span.cut content = "" := by
  simp only [cut, Text.slice, Text.slice?, h, Nat.le_refl, if_true, Nat.sub_self]
  cases Text.dropBytes? span.stop content with
  | none => rfl
  | some rest => cases rest <;> rfl

@[simp] theorem cut_point (offset : Offset) (content : List Char) :
    (Span.point offset).cut content = "" := cut_eq_empty rfl content

/-- What stands in the first part of a content stands in the whole. -/
theorem Spells.append {span : Span} {content text : List Char} (h : span.Spells content text)
    (rest : List Char) : span.Spells (content ++ rest) text := by
  obtain ⟨before, after, rfl, hspan⟩ := h
  exact ⟨before, after ++ rest, by simp, hspan⟩

theorem Spells.stop_le {span : Span} {content text : List Char} (h : span.Spells content text) :
    span.stop ≤ Text.byteLength content := by
  obtain ⟨before, after, rfl, rfl⟩ := h
  simp

theorem Spells.start_add {span : Span} {content text : List Char}
    (h : span.Spells content text) : span.start + Text.byteLength text = span.stop := by
  obtain ⟨before, after, -, rfl⟩ := h
  rfl

/-- Of two texts that begin at the same place, the shorter begins the longer. -/
theorem Spells.isPrefix {first second : Span} {content text longer : List Char}
    (h : first.Spells content text) (hlonger : second.Spells content longer)
    (hstart : first.start = second.start) (hstop : first.stop ≤ second.stop) :
    text <+: longer := by
  obtain ⟨before, after, rfl, rfl⟩ := h
  obtain ⟨before', after', hcontent, rfl⟩ := hlonger
  simp only at hstart hstop
  have hafter : text ++ after = longer ++ after' := by
    have hdrop := Text.dropBytes?_append before (text ++ after)
    rw [hcontent, hstart, Text.dropBytes?_append] at hdrop
    exact (Option.some.inj hdrop).symm
  rcases List.append_eq_append_iff.1 hafter with ⟨more, hmore, -⟩ | ⟨more, hmore, -⟩
  · exact ⟨more, hmore.symm⟩
  · have hnone : more = [] := by
      rw [hstart, hmore, Text.byteLength_append] at hstop
      exact Text.eq_nil_of_byteLength_eq_zero (by lia)
    exact ⟨[], by rw [hmore, hnone, List.append_nil, List.append_nil]⟩

/-- A text whose place ends with the content is the end of it. -/
theorem Spells.isSuffix {span : Span} {content text : List Char} (h : span.Spells content text)
    (hstop : span.stop = Text.byteLength content) : text <:+ content := by
  obtain ⟨before, after, rfl, rfl⟩ := h
  simp only [Text.byteLength_append] at hstop
  have hafter : after = [] := Text.eq_nil_of_byteLength_eq_zero (by lia)
  exact ⟨before, by rw [hafter, List.append_nil]⟩

/-- A text at the end of a content grows with it. -/
theorem Spells.concat {start : Offset} {content text : List Char} (c : Char)
    (h : Spells ⟨start, Text.byteLength content⟩ content text) :
    Spells ⟨start, Text.byteLength (content ++ [c])⟩ (content ++ [c]) (text ++ [c]) := by
  obtain ⟨before, after, rfl, hspan⟩ := h
  obtain rfl : start = Text.byteLength before := congrArg Span.start hspan
  have hstop := congrArg Span.stop hspan
  simp only [Text.byteLength_append] at hstop
  -- The span reaches the end of the content, so nothing follows the text.
  have hafter : after = [] := Text.eq_nil_of_byteLength_eq_zero (by lia)
  subst hafter
  exact ⟨before, [], by simp, by simp⟩

/-- No text stands at the end of a content. -/
theorem Spells.point (content : List Char) :
    (Span.point (Text.byteLength content)).Spells content [] :=
  ⟨content, [], by simp, rfl⟩

/-- Both ends of the span are boundaries of the content, in order. -/
def Cuts (span : Span) (content : List Char) : Prop := ∃ text, span.Spells content text

/-- The byte position lies in the span. -/
def Covers (span : Span) (position : Offset) : Prop :=
  span.start ≤ position ∧ position < span.stop

instance (span : Span) (position : Offset) : Decidable (span.Covers position) :=
  inferInstanceAs (Decidable (_ ∧ _))

/-- The second span lies inside the first. -/
def Holds (outer inner : Span) : Prop := outer.start ≤ inner.start ∧ inner.stop ≤ outer.stop

instance (outer inner : Span) : Decidable (outer.Holds inner) :=
  inferInstanceAs (Decidable (_ ∧ _))

/-- The spans have no byte position in common. -/
def Avoids (first second : Span) : Prop := ∀ position, first.Covers position →
  ¬ second.Covers position

theorem avoids_of_le {first second : Span} (h : first.stop ≤ second.start) :
    first.Avoids second := by
  intro position hfirst hsecond
  exact absurd (Nat.lt_of_lt_of_le hfirst.2 h) (Nat.not_lt.2 hsecond.1)

theorem not_covers_of_eq {span : Span} (h : span.start = span.stop) (position : Offset) :
    ¬ span.Covers position := by
  rintro ⟨hstart, hstop⟩
  rw [h] at hstart
  exact Nat.not_lt.2 hstart hstop

namespace Cuts

/-- What is cut out stands where it was cut. -/
theorem spells_cut {span : Span} {content : List Char} (h : span.Cuts content) :
    span.Spells content (span.cut content).toList := by
  obtain ⟨text, hspells⟩ := h
  rwa [cut_of_spells hspells, String.toList_ofList]

theorem append {span : Span} {content : List Char} (h : span.Cuts content) (rest : List Char) :
    span.Cuts (content ++ rest) := by
  obtain ⟨text, hspells⟩ := h
  exact ⟨text, hspells.append rest⟩

theorem start_le {span : Span} {content : List Char} (h : span.Cuts content) :
    span.start ≤ span.stop := by
  obtain ⟨text, before, after, -, rfl⟩ := h
  exact Nat.le_add_right _ _

theorem stop_le {span : Span} {content : List Char} (h : span.Cuts content) :
    span.stop ≤ Text.byteLength content := by
  obtain ⟨text, hspells⟩ := h
  exact hspells.stop_le

/-- The empty span at the end of a content. -/
theorem point (content : List Char) : (Span.point (Text.byteLength content)).Cuts content :=
  ⟨[], .point content⟩

/-- A span that reaches to the end of a content grows with it. -/
theorem concat {start : Offset} {content : List Char} (c : Char)
    (h : Cuts ⟨start, Text.byteLength content⟩ content) :
    Cuts ⟨start, Text.byteLength (content ++ [c])⟩ (content ++ [c]) := by
  obtain ⟨text, hspells⟩ := h
  exact ⟨text ++ [c], hspells.concat c⟩

end Cuts

/-! ## Spans and single characters -/

/-- The span of the character between two parts of a content. -/
def ofChar (before : List Char) (c : Char) : Span :=
  ⟨Text.byteLength before, Text.byteLength before + c.utf8Size⟩

section OfChar

variable {span : Span} {before after : List Char} {c : Char}

theorem covers_of_holds (h : span.Holds (ofChar before c)) :
    span.Covers (Text.byteLength before) :=
  ⟨h.1, Nat.lt_of_lt_of_le (Nat.lt_add_of_pos_right c.utf8Size_pos) h.2⟩

/-- No end of a span falls inside a character, so covering one of its bytes is holding it. -/
theorem Cuts.holds_of_covers (h : span.Cuts (before ++ c :: after)) {position : Offset}
    (hposition : (ofChar before c).Covers position) (hcovers : span.Covers position) :
    span.Holds (ofChar before c) := by
  obtain ⟨text, first, last, hcontent, rfl⟩ := h
  have hstart := Text.boundary_outside hcontent
  have hstop := Text.boundary_outside (hcontent.trans (List.append_assoc _ _ _).symm)
  simp only [Covers, Holds, ofChar, Text.byteLength_append] at *
  lia

/-- A span with its ends at boundaries, or a point, holds a character or avoids it, and its
first byte decides which. -/
theorem holds_ofChar_iff (h : span.Cuts (before ++ c :: after) ∨ span.start = span.stop) :
    span.Holds (ofChar before c) ↔ span.Covers (Text.byteLength before) := by
  refine ⟨covers_of_holds, ?_⟩
  intro hcovers
  rcases h with hcuts | hpoint
  · exact hcuts.holds_of_covers ⟨Nat.le_refl _, Nat.lt_add_of_pos_right c.utf8Size_pos⟩ hcovers
  · exact absurd hcovers (not_covers_of_eq hpoint _)

theorem avoids_ofChar_iff (h : span.Cuts (before ++ c :: after) ∨ span.start = span.stop) :
    span.Avoids (ofChar before c) ↔ ¬ span.Covers (Text.byteLength before) := by
  constructor
  · intro havoids hcovers
    exact havoids _ hcovers ⟨Nat.le_refl _, Nat.lt_add_of_pos_right c.utf8Size_pos⟩
  · intro hnot position hcovers hposition
    rcases h with hcuts | hpoint
    · exact hnot (covers_of_holds (hcuts.holds_of_covers hposition hcovers))
    · exact not_covers_of_eq hpoint _ hcovers

end OfChar

/-! ## The bytes of a span -/

/-- The bytes of a content at the positions of a span. -/
def bytes (span : Span) (content : List Char) : List UInt8 :=
  ((Text.utf8 content).drop span.start).take (span.stop - span.start)

theorem bytes_of_spells {span : Span} {content text : List Char} (h : span.Spells content text) :
    span.bytes content = Text.utf8 text := by
  obtain ⟨before, after, rfl, rfl⟩ := h
  simp [bytes, ← Text.length_utf8]

theorem bytes_of_point {span : Span} (h : span.start = span.stop) (content : List Char) :
    span.bytes content = [] := by
  simp [bytes, h]

/-- The bytes of a span are those of the text it cuts out. -/
theorem bytes_eq_utf8_cut {span : Span} {content : List Char}
    (h : span.Cuts content ∨ span.start = span.stop) :
    span.bytes content = Text.utf8 (span.cut content).toList := by
  rcases h with ⟨text, hspells⟩ | hpoint
  · rw [bytes_of_spells hspells, cut_of_spells hspells, String.toList_ofList]
  · rw [bytes_of_point hpoint, cut_eq_empty hpoint]
    rfl

end Span

end TagLint
