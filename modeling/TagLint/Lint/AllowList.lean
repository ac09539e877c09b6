/-!
# The allow-list

The keys that a run accepts. They come from values that may each hold several keys joined
by commas; an empty piece is dropped, so the empty key is never allowed, and a key is taken
as it is written. The list is kept in increasing order without repetition, so two
allow-lists with the same keys are equal.
-/

namespace TagLint

/-- The keys that a run accepts, in increasing order. -/
structure AllowList where
  /-- The keys, each once. -/
  keys : List String
deriving DecidableEq, Repr

/-- The pieces of a value between its commas. -/
def splitAtCommas : List Char → List (List Char)
  | [] => [[]]
  | c :: cs =>
    if c = ',' then [] :: splitAtCommas cs
    else
      match splitAtCommas cs with
      | [] => [[c]]
      | piece :: pieces => (c :: piece) :: pieces

/-- The keys that a value lists: its non-empty pieces. -/
def listedKeys (value : String) : List String :=
  ((splitAtCommas value.toList).filter (!·.isEmpty)).map String.ofList

namespace AllowList

/-- The list that accepts no key. -/
def empty : AllowList := ⟨[]⟩

/-- A key put in its place among increasing ones, unless it is there already. -/
def insertSorted (key : String) : List String → List String
  | [] => [key]
  | first :: rest =>
    if key < first then key :: first :: rest
    else if key = first then first :: rest
    else first :: insertSorted key rest

/-- Accepts one more key. -/
def insert (allowed : AllowList) (key : String) : AllowList := ⟨insertSorted key allowed.keys⟩

/-- Accepts every key that a value lists. -/
def addValue (allowed : AllowList) (value : String) : AllowList :=
  (listedKeys value).foldl insert allowed

/-- Accepts every key that one of the values lists. -/
def addValues (allowed : AllowList) (values : List String) : AllowList :=
  values.foldl addValue allowed

/-- The keys that some values list. -/
def ofValues (values : List String) : AllowList := empty.addValues values

/-- Whether a key is accepted. -/
def contains (allowed : AllowList) (key : String) : Bool := allowed.keys.contains key

/-- How many keys are accepted. -/
def size (allowed : AllowList) : Nat := allowed.keys.length

/-- Whether no key is accepted. -/
def isEmpty (allowed : AllowList) : Bool := allowed.keys.isEmpty

theorem mem_insertSorted {key other : String} {keys : List String} :
    other ∈ insertSorted key keys ↔ other = key ∨ other ∈ keys := by
  induction keys with
  | nil => simp [insertSorted]
  | cons first rest ih =>
    simp only [insertSorted]
    split
    · simp
    · split
      · simp_all
      · simp only [List.mem_cons, ih]
        constructor <;> rintro (h | h | h) <;> simp [h]

/-- Inserting a key accepts that key and what was accepted before. -/
theorem contains_insert (allowed : AllowList) (key other : String) :
    (allowed.insert key).contains other = (other == key || allowed.contains other) := by
  rw [Bool.eq_iff_iff]
  simp [contains, insert, mem_insertSorted]

end AllowList

end TagLint
