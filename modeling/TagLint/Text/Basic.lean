/-!
# Texts measured in bytes

A text is processed as its list of characters, while positions in it count UTF-8 bytes.
`byteLength` is the bridge, and `slice?` cuts a text at byte positions: a cut exists only at
a character boundary, so a slice never holds half a character.
-/

namespace TagLint.Text

/-- The number of bytes that UTF-8 spends on a text. -/
def byteLength : List Char → Nat
  | [] => 0
  | c :: cs => c.utf8Size + byteLength cs

@[simp] theorem byteLength_nil : byteLength [] = 0 := rfl

@[simp] theorem byteLength_cons (c : Char) (cs : List Char) :
    byteLength (c :: cs) = c.utf8Size + byteLength cs := rfl

@[simp] theorem byteLength_append (cs ds : List Char) :
    byteLength (cs ++ ds) = byteLength cs + byteLength ds := by
  induction cs with
  | nil => simp
  | cons c cs ih => simp [ih, Nat.add_assoc]

/-- The bytes of a string are those of its characters. -/
theorem byteLength_toList (s : String) : byteLength s.toList = s.utf8ByteSize := by
  have hchars (cs : List Char) : (String.ofList cs).utf8ByteSize = byteLength cs := by
    induction cs with
    | nil => rfl
    | cons c cs ih =>
      have hcons : String.ofList (c :: cs) = String.singleton c ++ String.ofList cs := by
        rw [String.singleton_eq_ofList, ← String.ofList_append]
        rfl
      rw [hcons, String.utf8ByteSize_append, ih, String.utf8ByteSize_singleton, byteLength_cons]
  rw [← hchars, String.ofList_toList]

/-- The text from byte position `n` on, when a character starts or the text ends there. -/
def dropBytes? : Nat → List Char → Option (List Char)
  | 0, cs => some cs
  | _ + 1, [] => none
  | n + 1, c :: cs => if c.utf8Size ≤ n + 1 then dropBytes? (n + 1 - c.utf8Size) cs else none

/-- The text up to byte position `n`, when a character starts or the text ends there. -/
def takeBytes? : Nat → List Char → Option (List Char)
  | 0, _ => some []
  | _ + 1, [] => none
  | n + 1, c :: cs =>
    if c.utf8Size ≤ n + 1 then (takeBytes? (n + 1 - c.utf8Size) cs).map (c :: ·) else none

/-- Dropping the bytes of a first part leaves the second. -/
theorem dropBytes?_append (cs ds : List Char) :
    dropBytes? (byteLength cs) (cs ++ ds) = some ds := by
  induction cs with
  | nil => simp [dropBytes?]
  | cons c cs ih =>
    have hc := c.utf8Size_pos
    obtain ⟨n, hn⟩ : ∃ n, c.utf8Size + byteLength cs = n + 1 :=
      ⟨c.utf8Size + byteLength cs - 1, by omega⟩
    have hrest : n + 1 - c.utf8Size = byteLength cs := by omega
    simp only [byteLength_cons, hn, List.cons_append, dropBytes?]
    rw [if_pos (by omega), hrest, ih]

/-- Taking the bytes of a first part gives it back. -/
theorem takeBytes?_append (cs ds : List Char) :
    takeBytes? (byteLength cs) (cs ++ ds) = some cs := by
  induction cs with
  | nil => simp [takeBytes?]
  | cons c cs ih =>
    have hc := c.utf8Size_pos
    obtain ⟨n, hn⟩ : ∃ n, c.utf8Size + byteLength cs = n + 1 :=
      ⟨c.utf8Size + byteLength cs - 1, by omega⟩
    have hrest : n + 1 - c.utf8Size = byteLength cs := by omega
    simp only [byteLength_cons, hn, List.cons_append, takeBytes?]
    rw [if_pos (by omega), hrest, ih]
    rfl

/-- Whether a character starts, or the text ends, at a byte position. -/
def isBoundary (cs : List Char) (position : Nat) : Bool := (dropBytes? position cs).isSome

/-- The text between two byte positions, when both are boundaries in order. -/
def slice? (start stop : Nat) (cs : List Char) : Option (List Char) :=
  if start ≤ stop then (dropBytes? start cs).bind (takeBytes? (stop - start)) else none

/-- The text between two byte positions, empty where there is no such slice. -/
def slice (start stop : Nat) (cs : List Char) : List Char :=
  (slice? start stop cs).getD []

/-- The middle of three parts is the slice between their boundaries. -/
theorem slice?_append (cs ds es : List Char) :
    slice? (byteLength cs) (byteLength cs + byteLength ds) (cs ++ (ds ++ es)) = some ds := by
  simp [slice?, dropBytes?_append, takeBytes?_append]

/-- A control character: U+0000 to U+001F and U+007F to U+009F. -/
def isControl (c : Char) : Bool :=
  c.toNat < 0x20 || (0x7F ≤ c.toNat && c.toNat ≤ 0x9F)

/-- The text without the characters of a class at its end. -/
def dropEndWhile (p : Char → Bool) (cs : List Char) : List Char :=
  (cs.reverse.dropWhile p).reverse

end TagLint.Text
