import LiveTemplate.Proofs.Value.Agreement

/-!
# Values equal to themselves

Equality of content is not reflexive: a number that is not a number differs from itself, and so does
everything that it is in. Nothing else does (`Value.equals_self_iff`).
-/
namespace LiveTemplate.Value

/-- Every number in the value, however deep, is a number. -/
inductive Definite : Value → Prop where
  | undefined : Definite .undefined
  | null : Definite .null
  | bool (b : Bool) : Definite (.bool b)
  | number {x : Float} (definite : x.isNaN = false) : Definite (.number x)
  | text (s : String) : Definite (.text s)
  | array (i : Nat) {items : List Value} (each : ∀ x ∈ items, Definite x) : Definite (.array i items)
  | object (i : Nat) {fields : List (String × Value)} (each : ∀ p ∈ fields, Definite p.2) :
      Definite (.object i fields)
  | cell (c : Cell) : Definite (.cell c)

theorem definite_number {x : Float} : (number x).Definite ↔ x.isNaN = false :=
  ⟨fun h => by cases h; assumption, .number⟩

theorem definite_array {i : Nat} {items : List Value} :
    (array i items).Definite ↔ ∀ x ∈ items, x.Definite :=
  ⟨fun h => by cases h; assumption, .array i⟩

theorem definite_object {i : Nat} {fields : List (String × Value)} :
    (object i fields).Definite ↔ ∀ p ∈ fields, p.2.Definite :=
  ⟨fun h => by cases h; assumption, .object i⟩

theorem beq_self_iff (x : Float) : (x == x) = true ↔ x.isNaN = false := by
  rw [beq_iff, ← Bool.not_eq_true, isNaN_iff]
  simp

/-- A value is equal to itself if nothing in it is not a number. -/
theorem equals_self_iff {v : Value} (proper : v.Proper) : v.equals v = true ↔ v.Definite := by
  induction proper with
  | undefined | null | bool | text | cell => exact iff_of_true (by simp [equals]) (by constructor)
  | number x => rw [equals, beq_self_iff, definite_number]
  | array i _ ih =>
    rw [equals, equalItems_iff, List.forall₂_same, definite_array]
    exact forall₂_congr ih
  | @object i fields keys _ ih =>
    have own {p : String × Value} (hp : p ∈ fields) :
        (∃ y, fields.lookup p.1 = some y ∧ p.2.equals y = true) ↔ p.2.Definite := by
      simp [lookup_of_mem keys hp, ih p hp]
    simp only [equals, beq_self_eq_true, Bool.true_and, fieldsWithin_iff, definite_object]
    exact forall₂_congr fun p hp => own hp

end LiveTemplate.Value
