import TagLint.Json.Value
import TagLint.Proofs.Json.Lexemes

/-!
# Reading JSON texts

Every text of the grammar is read as the value that it spells (`parse?_eq_some`), so no text
spells two values (`IsText.unique`).

Reading keeps open containers on a stack, and the grammar nests. What joins them is what each
phrase does to a cursor (`Phrase.Reads`): a cursor that awaits a value in some containers moves,
over the text of the value, to just after it in the same containers.
-/

namespace TagLint.Json

/-! ## Tokens -/

variable {cs rest : List Char} {token : Token} {p : Char → Bool}

theorem IsNumber.avoids (h : IsNumber cs) (hp : ∀ c, Text.isDigit c = true → p c = false)
    (hsign : p '-' = false) : Avoids p (cs ++ rest) := by
  cases h with
  | @parts sign integer fraction exponent hmem hinteger =>
    rw [List.append_assoc, List.append_assoc]
    rcases (by simpa using hmem : sign = [] ∨ sign = ['-']) with rfl | rfl
    · exact hinteger.avoids hp
    · exact avoids_cons.2 hsign

/-- Whether a character can start a number. -/
def startsNumber (c : Char) : Bool := Text.isDigit c || c == '-'

theorem not_isBlank_of_isDigit {c : Char} (h : Text.isDigit c = true) : isBlank c = false := by
  by_contra hblank
  rw [Bool.not_eq_false] at hblank
  rcases (by simpa [isBlank, or_assoc] using hblank : c = ' ' ∨ c = '\t' ∨ c = '\n' ∨ c = '\r')
    with rfl | rfl | rfl | rfl <;> cases h

theorem next?_number (h : IsNumber cs) (hrest : Avoids continuesNumber rest) :
    Token.next? (cs ++ rest) = some (.number cs, rest) := by
  have hstart : Avoids (fun c => !startsNumber c) (cs ++ rest) := by
    apply h.avoids
    · intro c hc
      simp [startsNumber, hc]
    · rfl
  have hnumber := number?_append h hrest
  unfold Token.next?
  split
  case h_11 => rw [hnumber]; rfl
  all_goals
    -- the other tokens start with no digit and no sign
    rename_i heq
    rw [heq, avoids_cons] at hstart
    cases hstart

theorem IsString.avoids {s : String} (h : IsString s cs) (hp : p '"' = false) :
    Avoids p (cs ++ rest) := by
  cases h
  exact avoids_cons.2 hp

theorem next?_string {s : String} (h : IsString s cs) :
    Token.next? (cs ++ rest) = some (.string (some s), rest) := by
  cases h with
  | quoted hchars =>
    obtain ⟨units, hbody, hunits⟩ := stringBody?_append hchars
    rw [List.cons_append, List.append_assoc, List.singleton_append, Token.next?, hbody]
    simp [hunits]

theorem tokens?_blank {c : Char} (h : isBlank c = true) : tokens? (c :: cs) = tokens? cs := by
  rw [tokens?, if_pos h]

theorem tokens?_of_next? (hblank : Avoids isBlank cs) (h : Token.next? cs = some (token, rest)) :
    tokens? cs = (tokens? rest).map (token :: ·) := by
  cases cs with
  | nil => cases h
  | cons c cs =>
    rw [tokens?, if_neg (by simp [avoids_cons.1 hblank])]
    split
    · rename_i hnext
      obtain ⟨rfl, rfl⟩ := Prod.mk.inj (Option.some.inj (hnext.symm.trans h))
      rfl
    · rename_i hnext
      cases hnext.symm.trans h

theorem Blanks.isBlank (h : Blanks cs) {c : Char} (hc : c ∈ cs) : isBlank c = true := by
  have hmem := h c hc
  simp only [List.mem_cons, List.not_mem_nil, or_false] at hmem
  rcases hmem with rfl | rfl | rfl | rfl <;> rfl

theorem Blanks.avoids (h : Blanks cs) (hrest : Avoids continuesNumber rest) :
    Avoids continuesNumber (cs ++ rest) := by
  cases cs with
  | nil => exact hrest
  | cons c cs =>
    have hmem := h c List.mem_cons_self
    simp only [List.mem_cons, List.not_mem_nil, or_false] at hmem
    rcases hmem with rfl | rfl | rfl | rfl <;> exact avoids_cons.2 rfl

/-! ## Cursors on a text -/

namespace Cursor

variable {cursor next : Cursor} {outer : List Frame}

/-- The value, if nothing is open. -/
def complete? : Cursor → Option Json
  | .after [] v => some v
  | _ => none

/-- The value that is complete when a text has been read. -/
def read? (cursor : Cursor) (cs : List Char) : Option Json :=
  (tokens? cs).bind fun tokens => (tokens.foldlM step? cursor).bind complete?

theorem parse?_eq_read? (text : List Char) : parse? text = (Cursor.value []).read? text := by
  unfold parse? read?
  congr
  funext tokens
  unfold ofTokens?
  cases tokens.foldlM step? (.value []) with
  | none => rfl
  | some cursor =>
    show _ = complete? cursor
    unfold complete?
    split <;> simp_all

theorem read?_nil : cursor.read? [] = cursor.complete? := by
  unfold read?
  rw [tokens?]
  rfl

theorem read?_blanks (h : Blanks cs) : cursor.read? (cs ++ rest) = cursor.read? rest := by
  induction cs with
  | nil => rfl
  | cons c cs ih =>
    have hlater : Blanks cs := fun d hd => h d (List.mem_cons_of_mem c hd)
    have hskip : tokens? (c :: (cs ++ rest)) = tokens? (cs ++ rest) :=
      tokens?_blank (h.isBlank List.mem_cons_self)
    rw [← ih hlater]
    unfold read?
    rw [List.cons_append, hskip]

/-- Moves past the token at the start of a text. -/
theorem read?_token (hblank : Avoids isBlank cs) (htoken : Token.next? cs = some (token, rest))
    (hstep : cursor.step? token = some next) : cursor.read? cs = next.read? rest := by
  unfold read?
  rw [tokens?_of_next? hblank htoken]
  cases tokens? rest with
  | none => rfl
  | some tokens =>
    show ((token :: tokens).foldlM step? cursor).bind complete? = _
    rw [List.foldlM_cons, hstep]
    rfl

/-- A value may come next, inside some containers. -/
def Awaits (cursor : Cursor) (outer : List Frame) : Prop :=
  ∀ token ≠ .closeBracket, cursor.step? token = begin? outer token

/-- A key may come next, after some members. -/
def AwaitsKey (cursor : Cursor) (outer : List Frame) (members : List (Option String × Json)) :
    Prop :=
  ∀ key, cursor.step? (.string key) = some (.colon outer members key)

theorem awaits_value : (Cursor.value outer).Awaits outer := by
  intro token _
  rfl

theorem awaits_firstItem : (Cursor.firstItem outer).Awaits (.array [] :: outer) := by
  intro token htoken
  cases token with
  | closeBracket => exact absurd rfl htoken
  | _ => rfl

theorem awaitsKey_firstKey : (Cursor.firstKey outer).AwaitsKey outer [] := by
  intro key
  rfl

theorem awaitsKey_nextKey {members : List (Option String × Json)} :
    (Cursor.nextKey outer members).AwaitsKey outer members := by
  intro key
  rfl

end Cursor

/-! ## Phrases -/

/-- What the text of a phrase does to a cursor that may stand before it. -/
def Phrase.Reads (cs : List Char) : Phrase → Prop
  | .value v | .element v => ∀ ⦃cursor : Cursor⦄ ⦃outer : List Frame⦄ ⦃rest : List Char⦄,
      cursor.Awaits outer → Avoids continuesNumber rest →
      cursor.read? (cs ++ rest) = (Cursor.after outer v).read? rest
  | .elements vs => ∀ ⦃cursor : Cursor⦄ ⦃outer : List Frame⦄ ⦃items : List Json⦄
      ⦃rest : List Char⦄, cursor.Awaits (.array items :: outer) →
      cursor.read? (cs ++ ']' :: rest) =
        (Cursor.after outer (.array (items.reverse ++ vs))).read? rest
  | .member key v => ∀ ⦃cursor : Cursor⦄ ⦃outer : List Frame⦄
      ⦃earlier : List (Option String × Json)⦄ ⦃rest : List Char⦄,
      cursor.AwaitsKey outer earlier → Avoids continuesNumber rest →
      cursor.read? (cs ++ rest) = (Cursor.after (.object earlier (some key) :: outer) v).read? rest
  | .members ms => ∀ ⦃cursor : Cursor⦄ ⦃outer : List Frame⦄
      ⦃earlier : List (Option String × Json)⦄ ⦃rest : List Char⦄,
      cursor.AwaitsKey outer earlier →
      cursor.read? (cs ++ '\x7d' :: rest) =
        (Cursor.after outer (.object (earlier.reverse ++ named ms))).read? rest

namespace Phrase

open Cursor

variable {v : Json} {vs : List Json} {key : String} {ms : List (String × Json)}
  {before name after later : List Char}

/-- A token that is a value by itself. -/
theorem reads_scalar (hblank : ∀ rest, Avoids isBlank (cs ++ rest))
    (htoken : ∀ ⦃rest⦄, Avoids continuesNumber rest → Token.next? (cs ++ rest) = some (token, rest))
    (hscalar : token.scalar? = some v) : (value v).Reads cs := by
  intro cursor outer rest hawaits hrest
  have hbegin : begin? outer token = token.scalar?.map (.after outer) := by
    cases token with
    | openBracket | openBrace => cases hscalar
    | _ => rfl
  have hstep : cursor.step? token = some (.after outer v) := by
    rw [hawaits token (by rintro rfl; cases hscalar), hbegin, hscalar]
    rfl
  exact read?_token (hblank rest) (htoken hrest) hstep

theorem reads_number (h : IsNumber cs) : (value (.number cs)).Reads cs :=
  reads_scalar (fun _ => h.avoids (fun _ => not_isBlank_of_isDigit) rfl)
    (fun _ => next?_number h) rfl

theorem reads_string {s : String} (h : IsString s cs) : (value (text s)).Reads cs :=
  reads_scalar (fun _ => h.avoids rfl) (fun _ _ => next?_string h) rfl

theorem reads_emptyArray (h : Blanks cs) : (value (.array [])).Reads ('[' :: (cs ++ [']'])) := by
  intro cursor outer rest hawaits _
  calc cursor.read? ('[' :: (cs ++ [']']) ++ rest)
    _ = (Cursor.firstItem outer).read? (cs ++ [']'] ++ rest) :=
      read?_token (avoids_cons.2 rfl) rfl (hawaits .openBracket (by simp))
    _ = (Cursor.firstItem outer).read? (']' :: rest) := by
      rw [List.append_assoc, read?_blanks h]
      rfl
    _ = (Cursor.after outer (.array [])).read? rest := read?_token (avoids_cons.2 rfl) rfl rfl

theorem reads_array (h : (elements vs).Reads cs) :
    (value (.array vs)).Reads ('[' :: (cs ++ [']'])) := by
  intro cursor outer rest hawaits _
  calc cursor.read? ('[' :: (cs ++ [']']) ++ rest)
    _ = (Cursor.firstItem outer).read? (cs ++ [']'] ++ rest) :=
      read?_token (avoids_cons.2 rfl) rfl (hawaits .openBracket (by simp))
    _ = (Cursor.firstItem outer).read? (cs ++ ']' :: rest) := by
      rw [List.append_assoc]
      rfl
    _ = (Cursor.after outer (.array vs)).read? rest := h awaits_firstItem

theorem reads_emptyObject (h : Blanks cs) :
    (value (record [])).Reads ('\x7b' :: (cs ++ ['\x7d'])) := by
  intro cursor outer rest hawaits _
  calc cursor.read? ('\x7b' :: (cs ++ ['\x7d']) ++ rest)
    _ = (Cursor.firstKey outer).read? (cs ++ ['\x7d'] ++ rest) :=
      read?_token (avoids_cons.2 rfl) rfl (hawaits .openBrace (by simp))
    _ = (Cursor.firstKey outer).read? ('\x7d' :: rest) := by
      rw [List.append_assoc, read?_blanks h]
      rfl
    _ = (Cursor.after outer (record [])).read? rest := read?_token (avoids_cons.2 rfl) rfl rfl

theorem reads_object (h : (members ms).Reads cs) :
    (value (record ms)).Reads ('\x7b' :: (cs ++ ['\x7d'])) := by
  intro cursor outer rest hawaits _
  calc cursor.read? ('\x7b' :: (cs ++ ['\x7d']) ++ rest)
    _ = (Cursor.firstKey outer).read? (cs ++ ['\x7d'] ++ rest) :=
      read?_token (avoids_cons.2 rfl) rfl (hawaits .openBrace (by simp))
    _ = (Cursor.firstKey outer).read? (cs ++ '\x7d' :: rest) := by
      rw [List.append_assoc]
      rfl
    _ = (Cursor.after outer (record ms)).read? rest := h awaitsKey_firstKey

theorem reads_element (hbefore : Blanks before) (h : (value v).Reads cs) (hafter : Blanks after) :
    (element v).Reads (before ++ (cs ++ after)) := by
  intro cursor outer rest hawaits hrest
  -- a number ends at a blank as well as at what follows the element
  have hend : Avoids continuesNumber (after ++ rest) := hafter.avoids hrest
  rw [List.append_assoc, read?_blanks hbefore, List.append_assoc, h hawaits hend,
    read?_blanks hafter]

theorem reads_lastElement (h : (element v).Reads cs) : (elements [v]).Reads cs := by
  intro cursor outer items rest hawaits
  calc cursor.read? (cs ++ ']' :: rest)
    _ = (Cursor.after (.array items :: outer) v).read? (']' :: rest) :=
      h hawaits (avoids_cons.2 rfl)
    _ = (Cursor.after outer (.array (v :: items).reverse)).read? rest :=
      read?_token (avoids_cons.2 rfl) rfl rfl
    _ = (Cursor.after outer (.array (items.reverse ++ [v]))).read? rest := by
      rw [List.reverse_cons]

theorem reads_elements (h : (element v).Reads cs) (hlater : (elements vs).Reads later) :
    (elements (v :: vs)).Reads (cs ++ ',' :: later) := by
  intro cursor outer items rest hawaits
  calc cursor.read? (cs ++ ',' :: later ++ ']' :: rest)
    _ = (Cursor.after (.array items :: outer) v).read? (',' :: (later ++ ']' :: rest)) := by
      rw [List.append_assoc]
      exact h hawaits (avoids_cons.2 rfl)
    _ = (Cursor.value (.array (v :: items) :: outer)).read? (later ++ ']' :: rest) :=
      read?_token (avoids_cons.2 rfl) rfl rfl
    _ = (Cursor.after outer (.array ((v :: items).reverse ++ vs))).read? rest :=
      hlater awaits_value
    _ = (Cursor.after outer (.array (items.reverse ++ v :: vs))).read? rest := by
      rw [List.reverse_cons, List.append_assoc]
      rfl

theorem reads_member (hbefore : Blanks before) (hname : IsString key name)
    (hafter : Blanks after) (h : (element v).Reads cs) :
    (member key v).Reads (before ++ (name ++ (after ++ ':' :: cs))) := by
  intro cursor outer earlier rest hawaits hrest
  calc cursor.read? (before ++ (name ++ (after ++ ':' :: cs)) ++ rest)
    _ = cursor.read? (name ++ (after ++ ':' :: cs ++ rest)) := by
      rw [List.append_assoc, read?_blanks hbefore, List.append_assoc]
    _ = (Cursor.colon outer earlier (some key)).read? (after ++ ':' :: cs ++ rest) :=
      read?_token (hname.avoids rfl) (next?_string hname) (hawaits (some key))
    _ = (Cursor.colon outer earlier (some key)).read? (':' :: (cs ++ rest)) := by
      rw [List.append_assoc, read?_blanks hafter]
      rfl
    _ = (Cursor.value (.object earlier (some key) :: outer)).read? (cs ++ rest) :=
      read?_token (avoids_cons.2 rfl) rfl rfl
    _ = (Cursor.after (.object earlier (some key) :: outer) v).read? rest := h awaits_value hrest

theorem reads_lastMember (h : (member key v).Reads cs) : (members [(key, v)]).Reads cs := by
  intro cursor outer earlier rest hawaits
  calc cursor.read? (cs ++ '\x7d' :: rest)
    _ = (Cursor.after (.object earlier (some key) :: outer) v).read? ('\x7d' :: rest) :=
      h hawaits (avoids_cons.2 rfl)
    _ = (Cursor.after outer (.object ((some key, v) :: earlier).reverse)).read? rest :=
      read?_token (avoids_cons.2 rfl) rfl rfl
    _ = (Cursor.after outer (.object (earlier.reverse ++ [(some key, v)]))).read? rest := by
      rw [List.reverse_cons]

theorem reads_members (h : (member key v).Reads cs) (hlater : (members ms).Reads later) :
    (members ((key, v) :: ms)).Reads (cs ++ ',' :: later) := by
  intro cursor outer earlier rest hawaits
  calc cursor.read? (cs ++ ',' :: later ++ '\x7d' :: rest)
    _ = (Cursor.after (.object earlier (some key) :: outer) v).read?
        (',' :: (later ++ '\x7d' :: rest)) := by
      rw [List.append_assoc]
      exact h hawaits (avoids_cons.2 rfl)
    _ = (Cursor.nextKey outer ((some key, v) :: earlier)).read? (later ++ '\x7d' :: rest) :=
      read?_token (avoids_cons.2 rfl) rfl rfl
    _ = (Cursor.after outer
        (.object (((some key, v) :: earlier).reverse ++ named ms))).read? rest :=
      hlater awaitsKey_nextKey
    _ = (Cursor.after outer (.object (earlier.reverse ++ named ((key, v) :: ms)))).read? rest := by
      rw [List.reverse_cons, List.append_assoc]
      rfl

end Phrase

/-- A text of the grammar is read as what it spells, wherever it stands. -/
theorem Spells.reads {phrase : Phrase} (h : Spells phrase cs) : phrase.Reads cs := by
  induction h with
  | null => exact Phrase.reads_scalar (fun _ => avoids_cons.2 rfl) (fun _ _ => rfl) rfl
  | true => exact Phrase.reads_scalar (fun _ => avoids_cons.2 rfl) (fun _ _ => rfl) rfl
  | false => exact Phrase.reads_scalar (fun _ => avoids_cons.2 rfl) (fun _ _ => rfl) rfl
  | number hnumber => exact Phrase.reads_number hnumber
  | string hstring => exact Phrase.reads_string hstring
  | emptyArray hblanks => exact Phrase.reads_emptyArray hblanks
  | array _ ih => exact Phrase.reads_array ih
  | emptyObject hblanks => exact Phrase.reads_emptyObject hblanks
  | object _ ih => exact Phrase.reads_object ih
  | element hbefore _ hafter ih => exact Phrase.reads_element hbefore ih hafter
  | lastElement _ ih => exact Phrase.reads_lastElement ih
  | elements _ _ ih ihlater => exact Phrase.reads_elements ih ihlater
  | member hbefore hname hafter _ ih => exact Phrase.reads_member hbefore hname hafter ih
  | lastMember _ ih => exact Phrase.reads_lastMember ih
  | members _ _ ih ihlater => exact Phrase.reads_members ih ihlater

/-- A text is read as the value that it spells. -/
theorem parse?_eq_some {v : Json} {text : List Char} (h : IsText v text) :
    parse? text = some v := by
  have hread : (Cursor.value []).read? (text ++ []) = (Cursor.after [] v).read? [] :=
    Spells.reads h Cursor.awaits_value avoids_nil
  rw [List.append_nil, Cursor.read?_nil] at hread
  rw [Cursor.parse?_eq_read?, hread]
  rfl

/-- No text spells two values. -/
theorem IsText.unique {v w : Json} {text : List Char} (hv : IsText v text) (hw : IsText w text) :
    v = w :=
  Option.some.inj ((parse?_eq_some hv).symm.trans (parse?_eq_some hw))

end TagLint.Json
