import TagLint.Proofs.Json.Decoding
import TagLint.Proofs.Json.Writing

/-!
# Records in any order

A record is a choice of its fields, each given or left out, and an order for the members that
result. Decoding undoes the order and tells which fields were given (`fields?_of_isRecord`).

`Recovers` is what a decoder should do: it gives back a value from everything that the value may
be written as. A decoder of lists, of values that may be null and of fields with a default does so
if the decoder of single values does.
-/

namespace TagLint.Json

/-! ## Single values -/

/-- A natural number. -/
def nat? : Json → Option Nat
  | .number literal => Text.numeral? 10 literal
  | _ => none

theorem nat?_nat (n : Nat) : nat? (nat n) = some n := Text.numeral?_toDigits n

theorem offset?_nat {offset : Offset} (h : offset ≤ Offset.limit) :
    offset? (nat offset) = some offset := by
  show (Text.numeral? 10 (Nat.toDigits 10 offset)).filter _ = _
  rw [Text.numeral?_toDigits, Option.filter_some, if_pos (decide_eq_true h)]

theorem text?_text (s : String) : text? (text s) = some s := rfl

/-! ## Fields -/

theorem namedMembers?_named (members : List (String × Json)) :
    namedMembers? (named members) = some members := by
  unfold namedMembers? named
  rw [mapM_eq_some_iff, List.forall₂_map_left_iff, List.forall₂_same]
  intro member _
  rfl

/-- The members of a record, given the value of each of its fields or that it is left out. -/
def given (names : List String) (slots : List (Option Json)) : List (String × Json) :=
  (names.zip slots).filterMap fun (name, slot) => slot.map fun value => (name, value)

/-- A value is a record of some fields, in any order. -/
def IsRecord (names : List String) (slots : List (Option Json)) (value : Json) : Prop :=
  ∃ members, members.Perm (given names slots) ∧ value = record members

variable {names : List String} {slots : List (Option Json)}

theorem given_cons (name : String) (slot : Option Json) :
    given (name :: names) (slot :: slots) =
      (slot.toList.map fun value => (name, value)) ++ given names slots := by
  cases slot <;> rfl

theorem mem_of_mem_given {member : String × Json} (h : member ∈ given names slots) :
    member.1 ∈ names := by
  obtain ⟨⟨name, slot⟩, hzip, hslot⟩ := List.mem_filterMap.1 h
  obtain ⟨value, -, rfl⟩ := Option.map_eq_some_iff.1 hslot
  exact (List.of_mem_zip hzip).1

/-- Of the members of a record only those of a field have its name. -/
theorem filter_given (hnodup : names.Nodup) {name : String} {slot : Option Json}
    (hmem : (name, slot) ∈ names.zip slots) :
    (given names slots).filter (·.1 == name) = slot.toList.map fun value => (name, value) := by
  induction names generalizing slots with
  | nil => cases hmem
  | cons first names ih =>
    cases slots with
    | nil => cases hmem
    | cons firstSlot slots =>
      obtain ⟨hfirst, hnodup⟩ := List.nodup_cons.1 hnodup
      rw [given_cons, List.filter_append]
      rcases List.mem_cons.1 hmem with heq | hlater
      · -- the first field: no later one has its name
        obtain ⟨rfl, rfl⟩ := Prod.mk.inj heq
        have hnone : (given names slots).filter (·.1 == name) = [] := by
          rw [List.filter_eq_nil_iff]
          rintro member hmember hname
          exact hfirst (beq_iff_eq.1 hname ▸ mem_of_mem_given hmember)
        rw [hnone, List.append_nil, List.filter_eq_self]
        simp
      · -- a later field: the first has another name
        have hne : first ≠ name := by
          rintro rfl
          exact hfirst (List.of_mem_zip hlater).1
        have hnone :
            (firstSlot.toList.map fun value => (first, value)).filter (·.1 == name) = [] := by
          simp [hne]
        rw [hnone, List.nil_append, ih hnodup hlater]

theorem member?_of_perm {members : List (String × Json)} (hnodup : names.Nodup)
    (hperm : members.Perm (given names slots)) {name : String} {slot : Option Json}
    (hmem : (name, slot) ∈ names.zip slots) : member? members name = some slot := by
  have hfilter : (members.filter (·.1 == name)).Perm (slot.toList.map fun value => (name, value)) :=
    filter_given hnodup hmem ▸ hperm.filter _
  unfold member?
  cases slot with
  | none => rw [List.perm_nil.1 hfilter]
  | some value => rw [List.perm_singleton.1 hfilter]

/-- Whatever the order, decoding gives the value of every field and tells which are left out. -/
theorem fields?_of_isRecord {value : Json} (h : IsRecord names slots value) (hnodup : names.Nodup)
    (hlength : names.length = slots.length) : fields? names value = some slots := by
  obtain ⟨members, hperm, rfl⟩ := h
  have hmembers : names.mapM (member? members) = some slots := by
    rw [mapM_eq_some_iff, List.forall₂_iff_zip]
    exact ⟨hlength, fun hmem => member?_of_perm hnodup hperm hmem⟩
  rw [record_eq]
  show (namedMembers? (named members)).bind _ = _
  rw [namedMembers?_named]
  exact hmembers

/-! ## Decoders that undo writing -/

section Recovers

variable {α : Type} {decode : Json → Option α} {writes : α → Json → Prop}

/-- A decoder gives back a value from everything that it may be written as. -/
def Recovers (decode : Json → Option α) (writes : α → Json → Prop) (item : α) : Prop :=
  ∀ ⦃value : Json⦄, writes item value → decode value = some item

/-- A value that may be missing, written as `null` if it is. -/
inductive Nullable (writes : α → Json → Prop) : Option α → Json → Prop
  | absent : Nullable writes none .null
  | present {item : α} {value : Json} : writes item value → Nullable writes (some item) value

/-- A field that may be left out where its value is the default. -/
inductive Defaulted (default : α) (writes : α → Json → Prop) (item : α) : Option Json → Prop
  | written {value : Json} : writes item value → Defaulted default writes item (some value)
  | omitted : item = default → Defaulted default writes item none

/-- A list written as an array. -/
inductive Listed (writes : α → Json → Prop) (items : List α) : Json → Prop
  | array {values : List Json} : List.Forall₂ writes items values →
      Listed writes items (.array values)

theorem Recovers.nullable? {item? : Option α} (hnull : decode .null = none)
    (h : ∀ item ∈ item?, Recovers decode writes item) :
    Recovers (nullable? decode) (Nullable writes) item? := by
  intro value hvalue
  cases hvalue with
  | absent => rfl
  | @present item value hwrites =>
    have hdecode : decode value = some item := h item rfl hwrites
    unfold Json.nullable?
    split
    · cases hnull.symm.trans hdecode
    · rw [hdecode]
      rfl

theorem Recovers.list? {items : List α} (h : ∀ item ∈ items, Recovers decode writes item) :
    Recovers (list? decode) (Listed writes) items := by
  intro value hvalue
  cases hvalue with
  | array hall =>
    rw [list?_array]
    induction hall with
    | nil => exact .nil
    | cons hwrites _ ih =>
      obtain ⟨hitem, hlater⟩ := List.forall_mem_cons.1 h
      exact .cons (hitem hwrites) (ih hlater)

theorem Recovers.defaulting? {default item : α} (h : Recovers decode writes item)
    {field : Option Json} (hfield : Defaulted default writes item field) :
    defaulting? default decode field = some item := by
  cases hfield with
  | written hwrites => exact h hwrites
  | omitted heq => exact congrArg some heq.symm

end Recovers

end TagLint.Json
