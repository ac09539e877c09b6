import TagLint.Json.Value
import TagLint.Proofs.Json.Grammar

/-!
# Writing JSON texts

What `render` writes is a text of the grammar that spells the value written (`Written`), as long
as the value is built from texts, natural numbers, nulls, arrays and records. Arrays and records
are written if what is in them is.

A number is written in base ten, and reading its digits gives it back (`numeral?_toDigits`).
-/

namespace TagLint

/-! ## Numbers in base ten -/

namespace Text

theorem digit?_digitChar : ∀ n < 10, digit? 10 n.digitChar = some n := by decide

/-- The digits of a number stand for it. -/
theorem numeral?_toDigits (n : Nat) : numeral? 10 (Nat.toDigits 10 n) = some n := by
  induction n using Nat.strongRecOn with
  | ind n ih =>
    rw [Nat.toDigits_eq_if (by decide)]
    by_cases hn : n < 10
    · rw [if_pos hn, numeral?, List.foldlM_cons, digit?_digitChar n hn]
      simp
    · have hlead : numeral? 10 (Nat.toDigits 10 (n / 10)) = some (n / 10) := ih _ (by omega)
      have hlast : digit? 10 (n % 10).digitChar = some (n % 10) :=
        digit?_digitChar _ (Nat.mod_lt n (by decide))
      unfold numeral? at hlead
      rw [if_neg hn, numeral?, List.foldlM_append, hlead]
      show ((digit? 10 (n % 10).digitChar).map (n / 10 * 10 + ·)).bind some = some n
      rw [hlast]
      show some (n / 10 * 10 + n % 10) = some n
      rw [Nat.div_add_mod']

end Text

namespace Json

theorem isDigits_toDigits (n : Nat) : IsDigits (Nat.toDigits 10 n) :=
  ⟨Nat.toDigits_ne_nil, fun _ hc => Nat.isDigit_of_mem_toDigits (by decide) (by decide) hc⟩

/-- No number but zero is written with a leading zero. -/
theorem head?_toDigits {n : Nat} (hn : n ≠ 0) : (Nat.toDigits 10 n).head? ≠ some '0' := by
  induction n using Nat.strongRecOn with
  | ind n ih =>
    rw [Nat.toDigits_eq_if (by decide)]
    by_cases hsmall : n < 10
    · rw [if_pos hsmall]
      intro hzero
      exact hn (Nat.digitChar_eq_zero.1 (Option.some.inj hzero))
    · obtain ⟨c, cs, hlead⟩ :=
        List.exists_cons_of_ne_nil (Nat.toDigits_ne_nil : Nat.toDigits 10 (n / 10) ≠ [])
      have hzero := ih (n / 10) (by omega) (by omega)
      rw [if_neg hsmall]
      rw [hlead] at hzero ⊢
      exact hzero

theorem isNumber_toDigits (n : Nat) : IsNumber (Nat.toDigits 10 n) := by
  have hinteger : IsInteger (Nat.toDigits 10 n) := by
    by_cases hn : n = 0
    · subst hn
      exact .zero
    · exact .digits (isDigits_toDigits n) (head?_toDigits hn)
  -- a number with no sign, no fraction and no exponent
  have hnumber : IsNumber ([] ++ (Nat.toDigits 10 n ++ ([] ++ []))) :=
    .parts (by simp) hinteger .absent .absent
  rwa [List.append_nil, List.nil_append, List.append_nil] at hnumber

/-! ## Strings -/

theorem numeral?_hexChar : ∀ n < 0x20,
    Text.numeral? 16 ['0', '0', hexChar (n / 16), hexChar n] = some n := by
  decide

theorem isChar_escapeChar (c : Char) : IsChar c (escapeChar c) := by
  unfold escapeChar
  -- seven characters are escaped by a letter
  iterate 7
    split
    · subst c
      exact .named (by simp [namedEscapes])
  split
  · rename_i hcontrol
    exact .code (by omega) (.digits (numeral?_hexChar _ hcontrol))
  · rename_i hquote hbackslash _ _ _ _ _ hprintable
    exact .raw (by omega) hquote hbackslash

theorem isString_quoteText (s : String) : IsString s (quoteText s) := by
  have hchars : ∀ cs : List Char, IsChars cs (cs.flatMap escapeChar) := by
    intro cs
    induction cs with
    | nil => exact .nil
    | cons c cs ih => exact .cons (isChar_escapeChar c) ih
  exact .quoted (hchars s.toList)

/-! ## Values -/

/-- A value is written as one of its texts. -/
def Written (v : Json) : Prop := Spells (.value v) v.render

theorem blanks_nil : Blanks [] := by simp [Blanks]

theorem written_null : Written .null := .null

theorem written_nat (n : Nat) : Written (nat n) := by
  have hrender : (nat n).render = Nat.toDigits 10 n := by
    simp [nat, render, tokens, Token.render]
  rw [Written, hrender]
  exact .number (isNumber_toDigits n)

theorem written_text (s : String) : Written (text s) := by
  have hrender : (text s).render = quoteText s := by
    simp [text, render, tokens, Token.render]
  rw [Written, hrender]
  exact .string (isString_quoteText s)

theorem Written.element {v : Json} (h : v.Written) : Spells (.element v) v.render := by
  have helement := Spells.element blanks_nil h blanks_nil
  rwa [List.append_nil] at helement

/-- Elements of an array, each written in one way. -/
theorem spells_elements {write : Json → List Char} {v : Json} {vs : List Json}
    (h : ∀ w ∈ v :: vs, Spells (.element w) (write w)) :
    Spells (.elements (v :: vs)) (write v ++ vs.flatMap fun w => ',' :: write w) := by
  induction vs generalizing v with
  | nil =>
    rw [List.flatMap_nil, List.append_nil]
    exact .lastElement (h v List.mem_cons_self)
  | cons w ws ih =>
    obtain ⟨hv, hlater⟩ := List.forall_mem_cons.1 h
    exact .elements hv (ih hlater)

theorem render_array (v : Json) (vs : List Json) :
    (Json.array (v :: vs)).render =
      '[' :: (v.render ++ (vs.flatMap fun w => ',' :: w.render) ++ [']']) := by
  have hitems : (itemTokens vs).flatMap Token.render =
      (vs.flatMap fun w => ',' :: w.render) ++ [']'] := by
    induction vs with
    | nil => rfl
    | cons w ws ih =>
      rw [itemTokens, List.flatMap_cons, List.flatMap_append, ih, List.flatMap_cons,
        List.append_assoc]
      rfl
  rw [render, tokens, List.flatMap_cons, List.flatMap_append, hitems, List.append_assoc]
  rfl

theorem written_array {vs : List Json} (h : ∀ v ∈ vs, v.Written) : Written (.array vs) := by
  cases vs with
  | nil => exact .emptyArray blanks_nil
  | cons v vs =>
    rw [Written, render_array]
    exact .array (spells_elements fun w hw => (h w hw).element)

theorem written_texts (items : List String) : Written (texts items) := by
  apply written_array
  rw [List.forall_mem_map]
  intro item _
  exact written_text item

/-- A member without blanks. -/
def renderMember (member : String × Json) : List Char :=
  quoteText member.1 ++ ':' :: member.2.render

theorem spells_members {m : String × Json} {ms : List (String × Json)}
    (h : ∀ member ∈ m :: ms, member.2.Written) :
    Spells (.members (m :: ms))
      (renderMember m ++ ms.flatMap fun member => ',' :: renderMember member) := by
  have hmember : ∀ member : String × Json, member.2.Written →
      Spells (.member member.1 member.2) (renderMember member) := by
    intro member hvalue
    exact .member blanks_nil (isString_quoteText member.1) blanks_nil hvalue.element
  induction ms generalizing m with
  | nil =>
    rw [List.flatMap_nil, List.append_nil]
    exact .lastMember (hmember m (h m List.mem_cons_self))
  | cons n ms ih =>
    obtain ⟨hm, hlater⟩ := List.forall_mem_cons.1 h
    exact .members (hmember m hm) (ih hlater)

theorem render_record (m : String × Json) (ms : List (String × Json)) :
    (record (m :: ms)).render =
      '\x7b' :: (renderMember m ++ (ms.flatMap fun member => ',' :: renderMember member) ++
        ['\x7d']) := by
  have hmembers : (memberTokens (named ms)).flatMap Token.render =
      (ms.flatMap fun member => ',' :: renderMember member) ++ ['\x7d'] := by
    induction ms with
    | nil => rfl
    | cons n ms ih =>
      rw [named_cons, memberTokens, List.flatMap_cons, List.flatMap_cons, List.flatMap_cons,
        List.flatMap_append, ih, List.flatMap_cons, List.append_assoc]
      simp [Token.render, renderMember, render]
  rw [record_eq, named_cons, render, tokens, List.flatMap_cons, List.flatMap_cons,
    List.flatMap_cons, List.flatMap_append, hmembers]
  simp [Token.render, renderMember, render]

theorem written_record {ms : List (String × Json)} (h : ∀ m ∈ ms, m.2.Written) :
    Written (record ms) := by
  cases ms with
  | nil => exact .emptyObject blanks_nil
  | cons m ms =>
    rw [Written, render_record]
    exact .object (spells_members h)

end Json

end TagLint
