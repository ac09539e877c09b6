import TagLint.Json.Decode
import TagLint.Proofs.Traversal

/-!
# What decoders give

A decoder of lists or of values that may be missing is built from a decoder of single values.
What the single decoder ensures of every value that it gives (`Ensures`), the composed one
ensures of each value inside.
-/

namespace TagLint.Json

variable {α : Type}

theorem list?_array {decode : Json → Option α} {values : List Json} {items : List α} :
    list? decode (.array values) = some items ↔
      List.Forall₂ (fun value item => decode value = some item) values items :=
  mapM_eq_some_iff

/-! ## What is true of every decoded value -/

/-- Every value that a decoder gives has a property. -/
def Ensures (decode : Json → Option α) (property : α → Prop) : Prop :=
  ∀ ⦃value : Json⦄ ⦃item : α⦄, decode value = some item → property item

theorem ensures_offset? : Ensures offset? (· ≤ Offset.limit) := by
  intro value offset h
  cases value with
  | number literal =>
    obtain ⟨-, hlimit⟩ := Option.filter_eq_some_iff.1 h
    exact of_decide_eq_true hlimit
  | _ => cases h

section Composed

variable {decode : Json → Option α} {property : α → Prop}

theorem Ensures.list? (h : Ensures decode property) :
    Ensures (list? decode) fun items => ∀ item ∈ items, property item := by
  intro value items hitems
  cases value with
  | array values =>
    have hall := list?_array.1 hitems
    induction hall with
    | nil => simp
    | @cons value item values items hitem hlater ih =>
      rw [List.forall_mem_cons]
      exact ⟨h hitem, ih (list?_array.2 hlater)⟩
  | _ => cases hitems

theorem Ensures.nullable? (h : Ensures decode property) :
    Ensures (nullable? decode) fun item? => ∀ item ∈ item?, property item := by
  intro value item? hitem
  unfold Json.nullable? at hitem
  split at hitem
  · obtain rfl := Option.some.inj hitem
    simp
  · obtain ⟨item, hdecode, rfl⟩ := Option.map_eq_some_iff.1 hitem
    intro other hother
    exact Option.mem_some_iff.1 hother ▸ h hdecode

theorem Ensures.defaulting? (h : Ensures decode property) {default : α}
    (hdefault : property default) {field : Option Json} {item : α}
    (hitem : defaulting? default decode field = some item) : property item := by
  cases field with
  | none => exact Option.some.inj hitem ▸ hdefault
  | some value => exact h hitem

theorem Ensures.required? (h : Ensures decode property) {field : Option Json} {item : α}
    (hitem : required? decode field = some item) : property item := by
  obtain ⟨value, -, hdecode⟩ := Option.bind_eq_some_iff.1 hitem
  exact h hdecode

end Composed

end TagLint.Json
