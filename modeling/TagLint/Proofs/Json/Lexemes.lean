import Mathlib.Tactic.Common
import TagLint.Json.Token
import TagLint.Proofs.Json.Grammar

/-!
# Reading numbers and strings

A reader takes as much as it can, so what it takes depends on the text that follows. A number is
taken whole where it is not continued by a digit, a point or an exponent (`number?_append`). A
string ends at its quote, whatever follows (`stringBody?_append`): each character of it comes
back from the places that it is written with, be they one or, for a pair of codes, two.
-/

namespace TagLint.Json

/-! ## What comes next in a text -/

/-- A text does not start with a character of a class. -/
def Avoids (p : Char → Bool) (cs : List Char) : Prop := ∀ c ∈ cs.head?, p c = false

variable {p q : Char → Bool} {cs rest : List Char}

theorem avoids_nil : Avoids p [] := by simp [Avoids]

theorem avoids_cons {c : Char} : Avoids p (c :: cs) ↔ p c = false := by simp [Avoids]

theorem Avoids.mono (h : Avoids p cs) (himp : ∀ c, q c = true → p c = true) : Avoids q cs := by
  intro c hc
  by_contra hq
  rw [Bool.not_eq_false] at hq
  exact Bool.false_ne_true ((h c hc).symm.trans (himp c hq))

theorem IsDigits.avoids (h : IsDigits cs) (hp : ∀ c, Text.isDigit c = true → p c = false) :
    Avoids p (cs ++ rest) := by
  obtain ⟨hne, hdigits⟩ := h
  cases cs with
  | nil => exact absurd rfl hne
  | cons c cs => exact avoids_cons.2 (hp c (hdigits c List.mem_cons_self))

theorem IsInteger.avoids (h : IsInteger cs) (hp : ∀ c, Text.isDigit c = true → p c = false) :
    Avoids p (cs ++ rest) := by
  cases h with
  | zero => exact avoids_cons.2 (hp '0' rfl)
  | digits hdigits _ => exact hdigits.avoids hp

theorem IsFraction.avoids (h : IsFraction cs) (hp : p '.' = false) (hrest : Avoids p rest) :
    Avoids p (cs ++ rest) := by
  cases h with
  | absent => exact hrest
  | present _ => exact avoids_cons.2 hp

theorem IsExponent.avoids (h : IsExponent cs) (hp : ∀ e ∈ ['e', 'E'], p e = false)
    (hrest : Avoids p rest) : Avoids p (cs ++ rest) := by
  cases h with
  | absent => exact hrest
  | present he _ _ => exact avoids_cons.2 (hp _ he)

/-! ## Numbers -/

namespace Reader

/-- A reader takes the first of two parts of a text. -/
def Takes (reader : Reader) (taken rest : List Char) : Prop :=
  reader (taken ++ rest) = some (taken, rest)

variable {first second reader : Reader} {taken more : List Char} {condition : Char → Bool}

theorem Takes.andThen (hfirst : first.Takes taken (more ++ rest))
    (hsecond : second.Takes more rest) :
    (first.andThen second).Takes (taken ++ more) rest := by
  unfold Takes Reader.andThen
  rw [List.append_assoc, hfirst]
  show (second (more ++ rest)).map _ = _
  rw [hsecond]
  rfl

theorem takes_one (c : Char) : one.Takes [c] rest := rfl

theorem takes_nothing (h : Avoids condition rest) :
    (reader.orNothing condition).Takes [] rest := by
  cases rest with
  | nil => rfl
  | cons c cs => simp [Takes, orNothing, avoids_cons.1 h]

theorem Takes.orNothing {c : Char} (h : reader.Takes (c :: taken) rest) (hc : condition c = true) :
    (reader.orNothing condition).Takes (c :: taken) rest := by
  unfold Takes Reader.orNothing
  rw [List.cons_append]
  show (if condition c = true then _ else _) = _
  rw [if_pos hc]
  exact h

/-- An optional sign is taken if it is there, and otherwise what follows is none. -/
theorem takes_sign {signs : List (List Char)} (hsigns : ∀ sign ∈ signs, sign = [] ∨
      ∃ c, sign = [c] ∧ condition c = true)
    (hsign : taken ∈ signs) (hrest : Avoids condition rest) :
    (one.orNothing condition).Takes taken rest := by
  rcases hsigns taken hsign with rfl | ⟨c, rfl, hc⟩
  · exact takes_nothing hrest
  · exact (takes_one c).orNothing hc

end Reader

theorem takes_digits? (h : IsDigits cs) (hrest : Avoids Text.isDigit rest) :
    Reader.Takes digits? cs rest := by
  obtain ⟨hne, hdigits⟩ := h
  have hhead : rest.takeWhile Text.isDigit = [] ∧ rest.dropWhile Text.isDigit = rest := by
    cases rest with
    | nil => exact ⟨rfl, rfl⟩
    | cons c cs => simp [avoids_cons.1 hrest]
  unfold Reader.Takes digits?
  rw [List.takeWhile_append_of_pos hdigits, List.dropWhile_append_of_pos hdigits, hhead.1, hhead.2,
    List.append_nil, if_neg (by simpa using hne)]

theorem takes_integer? (h : IsInteger cs) (hrest : Avoids Text.isDigit rest) :
    Reader.Takes integer? cs rest := by
  cases h with
  | zero => rfl
  | digits hdigits hzero =>
    have htakes := takes_digits? hdigits hrest
    unfold Reader.Takes integer?
    split
    · -- a leading zero would be a number by itself
      rename_i later heq
      obtain ⟨c, cs, rfl⟩ := List.exists_cons_of_ne_nil hdigits.1
      obtain ⟨rfl, -⟩ := List.cons.inj heq
      exact absurd rfl hzero
    · exact htakes

theorem takes_fraction? (h : IsFraction cs) (hpoint : Avoids (· == '.') rest)
    (hdigit : Avoids Text.isDigit rest) : Reader.Takes fraction? cs rest := by
  cases h with
  | absent => exact Reader.takes_nothing hpoint
  | present hdigits =>
    apply Reader.Takes.orNothing
    · exact (Reader.takes_one '.').andThen (takes_digits? hdigits hdigit)
    · rfl

theorem takes_exponent? (h : IsExponent cs) (he : Avoids (fun c => c == 'e' || c == 'E') rest)
    (hdigit : Avoids Text.isDigit rest) : Reader.Takes exponent? cs rest := by
  cases h with
  | absent => exact Reader.takes_nothing he
  | @present e sign cs hletter hsign hdigits =>
    have hnosign : Avoids (fun c => c == '+' || c == '-') (cs ++ rest) := by
      apply hdigits.avoids
      intro c hc
      rw [Bool.or_eq_false_iff, beq_eq_false_iff_ne, beq_eq_false_iff_ne]
      constructor <;> (rintro rfl; cases hc)
    have hreads := ((Reader.takes_one e).andThen
      (Reader.takes_sign (by simp) hsign hnosign)).andThen (takes_digits? hdigits hdigit)
    exact hreads.orNothing (by simpa using hletter)

/-- Whether a character can continue a number that could end before it. -/
def continuesNumber (c : Char) : Bool := Text.isDigit c || c == '.' || c == 'e' || c == 'E'

/-- A number is taken whole unless it goes on. -/
theorem number?_append (h : IsNumber cs) (hrest : Avoids continuesNumber rest) :
    number? (cs ++ rest) = some (cs, rest) := by
  cases h with
  | @parts sign integer fraction exponent hsign hinteger hfraction hexponent =>
    -- each part ends where the next one begins, and the digits hide no sign
    have hdigit : Avoids Text.isDigit rest := hrest.mono (by simp +contextual [continuesNumber])
    have hpoint : Avoids (· == '.') rest := hrest.mono (by simp [continuesNumber])
    have he : Avoids (fun c => c == 'e' || c == 'E') rest :=
      hrest.mono (by rintro c hc; simp [continuesNumber, or_assoc, by simpa using hc])
    have hletter : ∀ e ∈ ['e', 'E'], Text.isDigit e = false ∧ (e == '.') = false := by
      intro e hmem
      rcases (by simpa using hmem : e = 'e' ∨ e = 'E') with rfl | rfl <;> exact ⟨rfl, rfl⟩
    have hexponentDigit : Avoids Text.isDigit (exponent ++ rest) :=
      hexponent.avoids (fun e hmem => (hletter e hmem).1) hdigit
    have hexponentPoint : Avoids (· == '.') (exponent ++ rest) :=
      hexponent.avoids (fun e hmem => (hletter e hmem).2) hpoint
    have hfractionDigit : Avoids Text.isDigit (fraction ++ exponent ++ rest) := by
      rw [List.append_assoc]
      exact hfraction.avoids rfl hexponentDigit
    have hnosign : Avoids (· == '-') (integer ++ (fraction ++ exponent) ++ rest) := by
      rw [List.append_assoc]
      apply hinteger.avoids
      intro c hc
      rw [beq_eq_false_iff_ne]
      rintro rfl
      cases hc
    exact (Reader.takes_sign (by simp) hsign hnosign).andThen
      ((takes_integer? hinteger hfractionDigit).andThen
        ((takes_fraction? hfraction hexponentPoint hexponentDigit).andThen
          (takes_exponent? hexponent he hdigit)))

/-! ## Strings -/

/-- What a character is written as gives some places of a string, and these the character. -/
structure Denotes (c : Char) (written : List Char) (units : List Unit16) : Prop where
  body : ∀ rest, stringBody? (written ++ rest) =
    (stringBody? rest).map fun (later, rest) => (units ++ later, rest)
  chars : ∀ later, chars? (units ++ later) = (chars? later).map (c :: ·)

theorem namedEscape?_of_mem {letter c : Char} (h : (letter, c) ∈ namedEscapes) :
    namedEscape? letter = some c ∧ letter ≠ 'u' := by
  simp only [namedEscapes, List.mem_cons, Prod.mk.injEq, List.not_mem_nil, or_false] at h
  rcases h with ⟨rfl, rfl⟩ | ⟨rfl, rfl⟩ | ⟨rfl, rfl⟩ | ⟨rfl, rfl⟩ | ⟨rfl, rfl⟩ | ⟨rfl, rfl⟩ |
    ⟨rfl, rfl⟩ | ⟨rfl, rfl⟩ <;> simp [namedEscape?]

theorem chars?_char (c : Char) (later : List Unit16) :
    chars? (.char c :: later) = (chars? later).map (c :: ·) := by
  rw [chars?]

/-- The body of a string from a code on. -/
theorem IsCode.stringBody? {bits : Nat} (h : IsCode bits cs) (rest : List Char) :
    stringBody? (cs ++ rest) =
      (stringBody? rest).map fun (later, rest) => (.code bits :: later, rest) := by
  cases h with
  | digits hnumeral =>
    simp only [List.cons_append, List.nil_append]
    rw [Json.stringBody?, hnumeral]

theorem toNat_ranges (c : Char) : c.toNat < 0xD800 ∨ 0xDFFF < c.toNat ∧ c.toNat < 0x110000 :=
  c.valid

/-- A character is no half of a pair. -/
theorem not_isSurrogate (c : Char) :
    isHighSurrogate c.toNat = false ∧ isLowSurrogate c.toNat = false := by
  have := toNat_ranges c
  simp only [isHighSurrogate, isLowSurrogate, Bool.and_eq_false_iff, decide_eq_false_iff_not]
  omega

theorem chars?_code (c : Char) (later : List Unit16) :
    chars? (.code c.toNat :: later) = (chars? later).map (c :: ·) := by
  obtain ⟨hhigh, hlow⟩ := not_isSurrogate c
  -- two codes in a row are looked at together, so what follows matters to the definition
  cases later with
  | nil => simp [chars?, hhigh, hlow]
  | cons unit later =>
    cases unit with
    | char d => simp [chars?, hhigh, hlow]
    | code bits => rw [chars?]; simp [hhigh, hlow]

/-- The two codes of a character past U+FFFF. -/
theorem chars?_pair (c : Char) (hc : 0x10000 ≤ c.toNat) (later : List Unit16) :
    chars? (.code (0xD800 + (c.toNat - 0x10000) / 0x400) ::
        .code (0xDC00 + (c.toNat - 0x10000) % 0x400) :: later) =
      (chars? later).map (c :: ·) := by
  have hbound : c.toNat < 0x110000 := by
    have := toNat_ranges c
    omega
  have hhigh : isHighSurrogate (0xD800 + (c.toNat - 0x10000) / 0x400) = true := by
    simp only [isHighSurrogate, Bool.and_eq_true, decide_eq_true_eq]
    omega
  have hlow : isLowSurrogate (0xDC00 + (c.toNat - 0x10000) % 0x400) = true := by
    simp only [isLowSurrogate, Bool.and_eq_true, decide_eq_true_eq]
    omega
  have hpair : pairChar (0xD800 + (c.toNat - 0x10000) / 0x400)
      (0xDC00 + (c.toNat - 0x10000) % 0x400) = c := by
    have hsum : 0x10000 + (0xD800 + (c.toNat - 0x10000) / 0x400 - 0xD800) * 0x400 +
        (0xDC00 + (c.toNat - 0x10000) % 0x400 - 0xDC00) = c.toNat := by
      omega
    rw [pairChar, hsum, Char.ofNat_toNat]
  rw [chars?, if_pos hhigh, if_pos hlow, hpair]

theorem stringBody?_raw {c : Char} (hprintable : 0x20 ≤ c.toNat) (hquote : c ≠ '"')
    (hbackslash : c ≠ '\\') (rest : List Char) :
    stringBody? (c :: rest) =
      (stringBody? rest).map fun (later, rest) => (.char c :: later, rest) := by
  rw [stringBody?.eq_def]
  split
  case h_1 heq => cases heq
  case h_2 heq => exact absurd (List.cons.inj heq).1 hquote
  case h_3 heq => exact absurd (List.cons.inj heq).1 hbackslash
  case h_4 heq => exact absurd (List.cons.inj heq).1 hbackslash
  case h_5 heq =>
    obtain ⟨rfl, rfl⟩ := List.cons.inj heq
    rw [if_neg (not_or.2 ⟨hbackslash, Nat.not_lt.2 hprintable⟩)]

theorem IsChar.denotes {c : Char} (h : IsChar c cs) : ∃ units, Denotes c cs units := by
  cases h with
  | raw hprintable hquote hbackslash =>
    exact ⟨[.char c], stringBody?_raw hprintable hquote hbackslash, chars?_char c⟩
  | @named letter hname =>
    obtain ⟨hescape, hcode⟩ := namedEscape?_of_mem hname
    refine ⟨[.char c], ?_, chars?_char c⟩
    intro rest
    show stringBody? ('\\' :: letter :: rest) = _
    rw [stringBody?, hescape]
    · rfl
    · simp [hcode]
  | code hsmall hcode =>
    exact ⟨[.code c.toNat], hcode.stringBody?, chars?_code c⟩
  | @pair high low hlarge hhigh hlow =>
    refine ⟨[.code _, .code _], ?_, chars?_pair c hlarge⟩
    intro rest
    rw [List.append_assoc, hhigh.stringBody?, hlow.stringBody?, Option.map_map]
    rfl

/-- A string is read up to its quote. -/
theorem stringBody?_append {written : List Char} (h : IsChars cs written) :
    ∃ units, (∀ rest, stringBody? (written ++ '"' :: rest) = some (units, rest)) ∧
      chars? units = some cs := by
  induction h with
  | nil => exact ⟨[], fun rest => by simp [stringBody?], by simp [chars?]⟩
  | cons hchar _ ih =>
    obtain ⟨unit, hunit⟩ := hchar.denotes
    obtain ⟨units, hbody, hchars⟩ := ih
    refine ⟨unit ++ units, ?_, ?_⟩
    · intro rest
      rw [List.append_assoc, hunit.body, hbody]
      rfl
    · rw [hunit.chars, hchars]
      rfl

end TagLint.Json
