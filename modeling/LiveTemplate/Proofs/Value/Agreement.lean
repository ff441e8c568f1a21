import Mathlib
import LiveTemplate.Reactive.Engine

/-!
# Agreement of values

Equality of content in which a number that is not a number agrees with another. It differs from
`Value.equals` in this only, and unlike it is an equivalence on values that are proper: that list
each key of an object once.

`Outcome.Alike` carries it to outcomes of proper values, where it is symmetric and transitive.
-/
namespace LiveTemplate

/-! ## Numbers -/

open Float.Model (UnpackedFloat)

/-- What two numbers share when they are equal; none for what is not a number. -/
def landmark : UnpackedFloat → Option (Option (UnpackedFloat.Sign × Option (Nat × Int)))
  | .notANumber => none
  | .infinity s => some (some (s, none))
  | .zero _ => some none
  | .finite s m e _ => some (some (s, some (m, e)))

theorem compare_sign (s t : UnpackedFloat.Sign) : compare s t = .eq ↔ s = t := by
  cases s <;> cases t <;> simp [compare]

theorem compare_eq_iff (a b : UnpackedFloat) :
    a.compare b = some .eq ↔ landmark a = landmark b ∧ landmark a ≠ none := by
  rcases a with ⟨s⟩ | _ | ⟨s⟩ | ⟨s, m, e, h⟩ <;> rcases b with ⟨t⟩ | _ | ⟨t⟩ | ⟨t, n, f, g⟩ <;>
    (try cases s) <;> (try cases t) <;>
    simp [UnpackedFloat.compare, landmark, compare_sign, and_comm]

theorem isNaN_iff (x : Float) : x.isNaN = true ↔ landmark x.toModel.unpack = none := by
  show x.toModel.unpack.isNaN = true ↔ _
  cases x.toModel.unpack <;> simp [UnpackedFloat.isNaN, landmark]

theorem beq_iff (x y : Float) : (x == y) = true ↔
    landmark x.toModel.unpack = landmark y.toModel.unpack ∧ landmark x.toModel.unpack ≠ none := by
  rw [← compare_eq_iff]
  show (x.toModel.unpack.compare y.toModel.unpack == some .eq) = true ↔ _
  exact beq_iff_eq

/-- Numbers agree if they are equal or none of them is a number. -/
def numbersAgree (x y : Float) : Bool :=
  x == y || (x.isNaN && y.isNaN)

theorem numbersAgree_iff (x y : Float) :
    numbersAgree x y = true ↔ landmark x.toModel.unpack = landmark y.toModel.unpack := by
  simp only [numbersAgree, Bool.or_eq_true, Bool.and_eq_true, beq_iff, isNaN_iff]
  by_cases h : landmark x.toModel.unpack = none
  · simp [h, eq_comm]
  · simp [h]

namespace Value

/-! ## Values -/

mutual

/-- Equality of content, with one not-a-number like another. -/
def agrees : Value → Value → Bool
  | undefined, undefined => true
  | null, null => true
  | bool a, bool b => a == b
  | number a, number b => numbersAgree a b
  | text a, text b => a == b
  | array _ xs, array _ ys => itemsAgree xs ys
  | object _ xs, object _ ys => xs.length == ys.length && fieldsAgree xs ys
  | cell a, cell b => a == b
  | _, _ => false

def itemsAgree : List Value → List Value → Bool
  | [], [] => true
  | x :: xs, y :: ys => agrees x y && itemsAgree xs ys
  | _, _ => false

/-- Whether every field of the first list has an agreeing one of its key in the second. -/
def fieldsAgree : List (String × Value) → List (String × Value) → Bool
  | [], _ => true
  | (key, x) :: xs, ys =>
    (match ys.lookup key with
      | some y => agrees x y
      | none => false) && fieldsAgree xs ys

end

-- their equations are derived once, here, and not wherever they are used first
attribute [local simp] agrees itemsAgree fieldsAgree equals equalItems fieldsWithin

/-- Every object in the value, however deep, lists each of its keys once. -/
inductive Proper : Value → Prop where
  | undefined : Proper .undefined
  | null : Proper .null
  | bool (b : Bool) : Proper (.bool b)
  | number (x : Float) : Proper (.number x)
  | text (s : String) : Proper (.text s)
  | array (i : Nat) {items : List Value} (each : ∀ x ∈ items, Proper x) : Proper (.array i items)
  | object (i : Nat) {fields : List (String × Value)} (keys : (fields.map (·.1)).Nodup)
      (each : ∀ p ∈ fields, Proper p.2) : Proper (.object i fields)
  | cell (c : Cell) : Proper (.cell c)

theorem itemsAgree_iff (xs ys : List Value) :
    itemsAgree xs ys = true ↔ List.Forall₂ (fun x y => agrees x y = true) xs ys := by
  induction xs generalizing ys with
  | nil => cases ys <;> simp [itemsAgree]
  | cons x xs ih => cases ys <;> simp [itemsAgree, ih]

theorem fieldsAgree_iff (xs ys : List (String × Value)) :
    fieldsAgree xs ys = true ↔
      ∀ p ∈ xs, ∃ y, ys.lookup p.1 = some y ∧ agrees p.2 y = true := by
  induction xs with
  | nil => simp [fieldsAgree]
  | cons p xs ih =>
    obtain ⟨key, x⟩ := p
    cases h : ys.lookup key <;> simp [fieldsAgree, h, ih]

theorem equalItems_iff (xs ys : List Value) :
    equalItems xs ys = true ↔ List.Forall₂ (fun x y => equals x y = true) xs ys := by
  induction xs generalizing ys with
  | nil => cases ys <;> simp [equalItems]
  | cons x xs ih => cases ys <;> simp [equalItems, ih]

theorem fieldsWithin_iff (xs ys : List (String × Value)) :
    fieldsWithin xs ys = true ↔
      ∀ p ∈ xs, ∃ y, ys.lookup p.1 = some y ∧ equals p.2 y = true := by
  induction xs with
  | nil => simp [fieldsWithin]
  | cons p xs ih =>
    obtain ⟨key, x⟩ := p
    cases h : ys.lookup key <;> simp [fieldsWithin, h, ih]

theorem mem_of_lookup {fields : List (String × Value)} {key : String} {x : Value}
    (h : fields.lookup key = some x) : (key, x) ∈ fields := by
  obtain ⟨before, after, rfl, -⟩ := List.lookup_eq_some_iff.1 h
  simp

theorem lookup_of_mem {fields : List (String × Value)} {key : String} {x : Value}
    (keys : (fields.map (·.1)).Nodup) (h : (key, x) ∈ fields) : fields.lookup key = some x := by
  obtain ⟨before, after, rfl⟩ := List.append_of_mem h
  refine List.lookup_eq_some_iff.2 ⟨before, after, rfl, fun p hp => ?_⟩
  have hkeys := (List.nodup_append.1 (by simpa using keys)).2.2 p.1 (List.mem_map_of_mem hp) key
    (by simp)
  simpa using Ne.symm hkeys

theorem agrees_refl {v : Value} (hv : v.Proper) : v.agrees v = true := by
  induction hv with
  | undefined | null | bool | text | cell => simp [agrees]
  | number x => simp [agrees, numbersAgree_iff]
  | array i _ ih => simpa [agrees, itemsAgree_iff, List.forall₂_same] using ih
  | object i keys _ ih =>
    simp only [agrees, beq_self_eq_true, Bool.true_and, fieldsAgree_iff]
    exact fun p hp => ⟨p.2, lookup_of_mem keys hp, ih p hp⟩

/-- Of two key lists of one length, one without repetition inside the other holds it as well. -/
theorem fields_mem_of_length {xs ys : List (String × Value)} (keys : (xs.map (·.1)).Nodup)
    (length : xs.length = ys.length) (sub : ∀ p ∈ xs, ∃ y, ys.lookup p.1 = some y)
    {key : String} {y : Value} (h : (key, y) ∈ ys) : ∃ x, (key, x) ∈ xs := by
  have hsub : xs.map (·.1) ⊆ ys.map (·.1) := by
    intro k hk
    obtain ⟨p, hp, rfl⟩ := List.mem_map.1 hk
    obtain ⟨z, hz⟩ := sub p hp
    exact List.mem_map.2 ⟨(p.1, z), mem_of_lookup hz, rfl⟩
  have hperm := (List.subperm_of_subset keys hsub).perm_of_length_le (by simp [length])
  obtain ⟨⟨k, x⟩, hx, rfl⟩ := List.mem_map.1 (hperm.mem_iff.2 (List.mem_map.2 ⟨_, h, rfl⟩))
  exact ⟨x, hx⟩

theorem agrees_symm {v w : Value} (hv : v.Proper) (hw : w.Proper) (h : v.agrees w = true) :
    w.agrees v = true := by
  induction hv generalizing w with
  | undefined | null | bool | text | cell => cases w <;> simp_all [agrees]
  | number x => cases w <;> simp_all [agrees, numbersAgree_iff]
  | array i _ ih =>
    cases hw with
    | array j each =>
      simp only [agrees, itemsAgree_iff] at h ⊢
      refine List.Forall₂.flip ((List.forall₂_iff_get.1 h).elim fun length get => ?_)
      exact List.forall₂_iff_get.2 ⟨length, fun n hn hn' =>
        ih _ (List.get_mem _ _) (each _ (List.get_mem _ _)) (get n hn hn')⟩
    | _ => simp [agrees] at h
  | @object i xs keys _ ih =>
    cases hw with
    | @object j ys keys' each =>
      simp only [agrees, Bool.and_eq_true, beq_iff_eq, fieldsAgree_iff] at h ⊢
      obtain ⟨length, within⟩ := h
      refine ⟨length.symm, fun p hp => ?_⟩
      obtain ⟨x, hx⟩ := fields_mem_of_length keys length
        (fun p hp => (within p hp).imp fun _ => And.left) hp
      obtain ⟨y, hy, hxy⟩ := within _ hx
      obtain rfl : p.2 = y := Option.some.inj ((lookup_of_mem keys' hp).symm.trans hy)
      exact ⟨x, lookup_of_mem keys hx, ih _ hx (each p hp) hxy⟩
    | _ => simp [agrees] at h

theorem agrees_trans {u v w : Value} (hu : u.Proper) (huv : u.agrees v = true)
    (hvw : v.agrees w = true) : u.agrees w = true := by
  induction hu generalizing v w with
  | undefined | null | bool | text | cell => cases v <;> cases w <;> simp_all [agrees]
  | number x => cases v <;> cases w <;> simp_all [agrees, numbersAgree_iff]
  | array i _ ih =>
    cases v <;> cases w <;> simp only [agrees, itemsAgree_iff, Bool.false_eq_true] at huv hvw ⊢
    obtain ⟨length, get⟩ := List.forall₂_iff_get.1 huv
    obtain ⟨length', get'⟩ := List.forall₂_iff_get.1 hvw
    exact List.forall₂_iff_get.2 ⟨length.trans length', fun n hn hn' =>
      ih _ (List.get_mem _ _) (get n hn (length ▸ hn)) (get' n (length ▸ hn) hn')⟩
  | object i keys _ ih =>
    cases v <;> cases w <;>
      simp only [agrees, Bool.and_eq_true, beq_iff_eq, fieldsAgree_iff, Bool.false_eq_true]
        at huv hvw ⊢
    refine ⟨huv.1.trans hvw.1, fun p hp => ?_⟩
    obtain ⟨y, hy, hxy⟩ := huv.2 p hp
    obtain ⟨z, hz, hyz⟩ := hvw.2 _ (mem_of_lookup hy)
    exact ⟨z, hz, ih p hp hxy hyz⟩

/-- Values that are equal agree. -/
theorem agrees_of_equals {v w : Value} (hv : v.Proper) (h : v.equals w = true) :
    v.agrees w = true := by
  induction hv generalizing w with
  | undefined | null | bool | text | cell => cases w <;> simp_all [agrees, equals]
  | number x => cases w <;> simp_all [agrees, equals, numbersAgree]
  | array i _ ih =>
    cases w <;> simp only [agrees, equals, itemsAgree_iff, equalItems_iff, Bool.false_eq_true]
      at h ⊢
    obtain ⟨length, get⟩ := List.forall₂_iff_get.1 h
    exact List.forall₂_iff_get.2 ⟨length, fun n hn hn' => ih _ (List.get_mem _ _) (get n hn hn')⟩
  | object i keys _ ih =>
    cases w <;>
      simp only [agrees, equals, Bool.and_eq_true, beq_iff_eq, fieldsAgree_iff, fieldsWithin_iff,
        Bool.false_eq_true] at h ⊢
    refine ⟨h.1, fun p hp => ?_⟩
    obtain ⟨y, hy, hxy⟩ := h.2 p hp
    exact ⟨y, hy, ih p hp hxy⟩

end Value

namespace Reactive.Outcome

/-! ## Outcomes -/

/-- An outcome whose value, if it has one, is proper. -/
def Proper : Outcome → Prop
  | .ok v => v.Proper
  | .error _ => True

def agrees : Outcome → Outcome → Bool
  | .ok v, .ok w => v.agrees w
  | .error f, .error g => f == g
  | _, _ => false

/-- Outcomes of proper values that agree. -/
def Alike (o o' : Outcome) : Prop :=
  o.Proper ∧ o'.Proper ∧ o.agrees o' = true

theorem Alike.refl {o : Outcome} (h : o.Proper) : o.Alike o := by
  refine ⟨h, h, ?_⟩
  cases o with
  | ok v => exact Value.agrees_refl h
  | error f => simp [agrees]

theorem Alike.symm {o o' : Outcome} (h : o.Alike o') : o'.Alike o := by
  obtain ⟨hp, hp', ha⟩ := h
  refine ⟨hp', hp, ?_⟩
  cases o <;> cases o' <;> simp_all [agrees]
  exact Value.agrees_symm hp hp' ha

theorem Alike.trans {o p q : Outcome} (h : o.Alike p) (h' : p.Alike q) : o.Alike q := by
  refine ⟨h.1, h'.2.1, ?_⟩
  obtain ⟨hp, -, ha⟩ := h
  obtain ⟨-, -, hb⟩ := h'
  cases o <;> cases p <;> cases q <;> simp_all [agrees]
  exact Value.agrees_trans hp ha hb

theorem Alike.left {o o' : Outcome} (h : o.Alike o') : o.Proper := h.1

theorem Alike.of_equals {o o' : Outcome} (h : o.Proper) (h' : o'.Proper)
    (he : o.equals o' = true) : o.Alike o' := by
  refine ⟨h, h', ?_⟩
  cases o <;> cases o' <;> simp_all [agrees, equals]
  exact Value.agrees_of_equals h he

theorem Alike.eq_of_error {f : Fault} {o : Outcome} (h : Alike (.error f) o) : o = .error f := by
  obtain ⟨-, -, ha⟩ := h
  cases o <;> simp_all [agrees]

end Reactive.Outcome

end LiveTemplate
