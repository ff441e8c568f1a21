import Mathlib
import LiveTemplate.Proofs.Value.Identity
import LiveTemplate.Resolution

/-!
# Values that match

Two values match along a relation of identities if they have the same content and their identities are
related place by place. If the relation is one to one, no operation on values can tell matching
operands apart (`Value.Matches.binary`), and members of matching values match
(`Value.Matches.member`).
-/
namespace LiveTemplate

/-- No identity is related to two, on either side. -/
def OneToOne (R : Nat → Nat → Prop) : Prop :=
  ∀ ⦃i j i' j'⦄, R i j → R i' j' → (i = i' ↔ j = j')

namespace Value

inductive Matches (R : Nat → Nat → Prop) : Value → Value → Prop where
  | scalar {v : Value} (free : v.identity? = none) : Matches R v v
  | array {i j : Nat} {xs ys : List Value} (related : R i j) (items : List.Forall₂ (Matches R) xs ys) :
      Matches R (.array i xs) (.array j ys)
  | object {i j : Nat} {xs ys : Fields} (related : R i j) (keys : xs.map (·.1) = ys.map (·.1))
      (values : List.Forall₂ (Matches R) (xs.map (·.2)) (ys.map (·.2))) :
      Matches R (.object i xs) (.object j ys)

/-- Tables match if they list the same keys with matching values. -/
def FieldsMatch (R : Nat → Nat → Prop) (xs ys : Fields) : Prop :=
  List.Forall₂ (fun p q => p.1 = q.1 ∧ p.2.Matches R q.2) xs ys

variable {R S T : Nat → Nat → Prop} {v w v' w' : Value}

theorem fieldsMatch_iff {xs ys : Fields} : FieldsMatch R xs ys ↔
    xs.map (·.1) = ys.map (·.1) ∧ List.Forall₂ (Matches R) (xs.map (·.2)) (ys.map (·.2)) := by
  rw [FieldsMatch, List.forall₂_map_left_iff, List.forall₂_map_right_iff]
  induction xs generalizing ys with
  | nil => cases ys <;> simp
  | cons p xs ih =>
    cases ys with
    | nil => simp
    | cons q ys =>
      simp only [List.forall₂_cons, ih, List.map_cons, List.cons.injEq]
      tauto

theorem matches_object {i j : Nat} {xs ys : Fields} :
    (Value.object i xs).Matches R (.object j ys) ↔ R i j ∧ FieldsMatch R xs ys := by
  rw [fieldsMatch_iff]
  constructor
  · intro h
    cases h with
    | scalar free => cases free
    | object related keys values => exact ⟨related, keys, values⟩
  · rintro ⟨related, keys, values⟩
    exact .object related keys values

theorem matches_array {i j : Nat} {xs ys : List Value} :
    (Value.array i xs).Matches R (.array j ys) ↔ R i j ∧ List.Forall₂ (Matches R) xs ys := by
  constructor
  · intro h
    cases h with
    | scalar free => cases free
    | array related items => exact ⟨related, items⟩
  · rintro ⟨related, items⟩
    exact .array related items

theorem forall₂_imp_of_mem {α β : Type} {P Q : α → β → Prop} {xs : List α} {ys : List β}
    (h : List.Forall₂ P xs ys) (imp : ∀ x ∈ xs, ∀ y, P x y → Q x y) : List.Forall₂ Q xs ys := by
  induction h with
  | nil => exact .nil
  | cons first _ ih =>
    exact .cons (imp _ (by simp) _ first) (ih fun x hx => imp x (by simp [hx]))

/-- Induction on a match: what holds of scalars, and of aggregates whose parts match and have it. -/
@[elab_as_elim]
theorem Matches.rule {motive : ∀ v w, Matches R v w → Prop}
    (scalar : ∀ v (free : v.identity? = none), motive v v (.scalar free))
    (array : ∀ i j xs ys (h : Matches R (.array i xs) (.array j ys)), R i j →
      List.Forall₂ (fun x y => ∃ h, motive x y h) xs ys → motive _ _ h)
    (object : ∀ i j xs ys (h : Matches R (.object i xs) (.object j ys)), R i j →
      List.Forall₂ (fun p q => p.1 = q.1 ∧ ∃ h, motive p.2 q.2 h) xs ys → motive _ _ h)
    (h : v.Matches R w) : motive v w h := by
  induction v using induct generalizing w with
  | array i xs ih =>
    cases h with
    | scalar free => exact scalar _ free
    | array related items =>
      exact array _ _ _ _ _ related (forall₂_imp_of_mem items fun x hx y hxy => ⟨hxy, ih x hx hxy⟩)
  | object i xs ih =>
    cases h with
    | scalar free => exact scalar _ free
    | object related keys values =>
      exact object _ _ _ _ _ related (forall₂_imp_of_mem (fieldsMatch_iff.2 ⟨keys, values⟩)
        fun p hp q ⟨hkey, hvalue⟩ => ⟨hkey, hvalue, ih p hp hvalue⟩)
  | _ => cases h with | scalar free => exact scalar _ free

theorem Matches.mono (h : v.Matches R w) (weaker : ∀ i j, R i j → S i j) : v.Matches S w := by
  induction h using Matches.rule with
  | scalar v free => exact .scalar free
  | array i j xs ys _ related items =>
    exact .array (weaker i j related) (items.imp fun _ _ ⟨_, h⟩ => h)
  | object i j xs ys _ related fields =>
    exact matches_object.2 ⟨weaker i j related, fields.imp fun _ _ ⟨hkey, _, h⟩ => ⟨hkey, h⟩⟩

theorem matches_self (v : Value) : v.Matches Eq v := by
  induction v using induct with
  | array i xs ih => exact .array rfl (List.forall₂_same.2 ih)
  | object i xs ih => exact matches_object.2 ⟨rfl, List.forall₂_same.2 fun p hp => ⟨rfl, ih p hp⟩⟩
  | _ => exact .scalar rfl

theorem Matches.erase (h : v.Matches R w) : v.erase = w.erase := by
  induction h using Matches.rule with
  | scalar v free => rfl
  | array i j xs ys _ _ items =>
    have hitems : xs.map Value.erase = ys.map Value.erase := by
      rw [← List.forall₂_eq_eq_eq, List.forall₂_map_left_iff, List.forall₂_map_right_iff]
      exact items.imp fun _ _ part => part.elim fun _ h => h
    rw [Value.erase, Value.erase, eraseItems_eq, eraseItems_eq, hitems]
  | object i j xs ys _ _ fields =>
    have hfields : (xs.map fun p => (p.1, p.2.erase)) = ys.map fun p => (p.1, p.2.erase) := by
      rw [← List.forall₂_eq_eq_eq, List.forall₂_map_left_iff, List.forall₂_map_right_iff]
      exact fields.imp fun _ _ part => Prod.ext part.1 (part.2.elim fun _ h => h)
    rw [Value.erase, Value.erase, eraseFields_eq, eraseFields_eq, hfields]

theorem forall₂_meet {α β γ : Type} {P : α → γ → Prop} {Q : β → γ → Prop} {T : α → β → Prop}
    (meet : ∀ x y z, P x z → Q y z → T x y) {xs : List α} {ys : List β} {zs : List γ}
    (h : List.Forall₂ P xs zs) (h' : List.Forall₂ Q ys zs) : List.Forall₂ T xs ys := by
  induction h generalizing ys with
  | nil => cases h'; exact .nil
  | cons first _ ih =>
    cases h' with
    | cons first' rest' => exact .cons (meet _ _ _ first first') (ih rest')

/-- Values that match a third one match each other. -/
theorem Matches.trans_symm (h : v.Matches R v') (h' : w.Matches S v') :
    v.Matches (fun i j => ∃ n, R i n ∧ S j n) w := by
  induction h using Matches.rule generalizing w with
  | scalar v free =>
    cases h' with
    | scalar => exact .scalar free
    | array | object => cases free
  | array i n xs zs _ related items =>
    cases h' with
    | scalar free => cases free
    | array related' items' =>
      exact .array ⟨n, related, related'⟩ (forall₂_meet (fun _ _ _ ⟨_, h⟩ h' => h h') items items')
  | object i n xs zs _ related fields =>
    cases h' with
    | scalar free => cases free
    | object related' keys values =>
      exact matches_object.2 ⟨⟨n, related, related'⟩, forall₂_meet
        (fun _ _ _ ⟨hkey, _, h⟩ ⟨hkey', h'⟩ => ⟨hkey.trans hkey'.symm, h h'⟩) fields
        (fieldsMatch_iff.2 ⟨keys, values⟩)⟩

theorem Matches.identity? (h : v.Matches R w) :
    Option.Rel R v.identity? w.identity? := by
  cases h with
  | scalar free => rw [free]; exact .none
  | array related => exact .some related
  | object related => exact .some related

theorem Matches.same (one : OneToOne R) (h : v.Matches R w) (h' : v'.Matches R w') :
    v.same v' = w.same w' := by
  rw [same_eq, same_eq w, h.erase, h'.erase]
  congr 1
  have hleft := h.identity?
  have hright := h'.identity?
  revert hleft hright
  generalize v.identity? = a
  generalize w.identity? = b
  generalize v'.identity? = a'
  generalize w'.identity? = b'
  rintro (⟨hleft⟩ | _) (⟨hright⟩ | _)
  · rw [Bool.eq_iff_iff, beq_iff_eq, beq_iff_eq, Option.some.injEq, Option.some.injEq]
    exact one hleft hright
  · rfl
  · rfl
  · rfl

theorem Matches.isTruthy (h : v.Matches R w) : v.isTruthy = w.isTruthy := by
  rw [← isTruthy_erase v, h.erase, isTruthy_erase]

theorem Matches.isNullish (h : v.Matches R w) : v.isNullish = w.isNullish := by
  rw [← isNullish_erase v, h.erase, isNullish_erase]

theorem Matches.isReactive (h : v.Matches R w) : v.isReactive = w.isReactive := by
  cases h <;> rfl

theorem Matches.eq_cell {c : Cell} (h : Matches R (.cell c) w) : w = .cell c := by
  cases h
  rfl

theorem Matches.unary (op : UnaryOperator) (h : v.Matches R w) :
    (Value.unary op v).Matches R (Value.unary op w) := by
  rw [unary_congr op h.erase]
  cases op <;> exact .scalar rfl

/-- Operators that evaluate both operands make scalars. -/
theorem Matches.binary {op : BinaryOperator} (eager : op ≠ .and ∧ op ≠ .or) (one : OneToOne R)
    (h : v.Matches R w) (h' : v'.Matches R w') :
    (Value.binary op v v').Matches R (Value.binary op w w') := by
  rw [binary_congr eager h.erase h'.erase (h.same one h')]
  have hplain : (Value.binary op w w').Plain 0 := plain_binary eager w w'
  refine .scalar (Option.eq_none_iff_forall_ne_some.2 fun i hi => ?_)
  exact absurd (hplain.identity_lt hi) (Nat.not_lt_zero i)

theorem matches_getD {x y : Option Value} (h : Option.Rel (Matches R) x y) :
    (x.getD .undefined).Matches R (y.getD .undefined) := by
  cases h with
  | none => exact .scalar rfl
  | some h => exact h

theorem forall₂_getElem? {α β : Type} {P : α → β → Prop} {xs : List α} {ys : List β}
    (h : List.Forall₂ P xs ys) (i : Nat) : Option.Rel P xs[i]? ys[i]? := by
  induction h generalizing i with
  | nil => exact .none
  | cons first _ ih =>
    cases i with
    | zero => exact .some first
    | succ i => exact ih i

theorem FieldsMatch.get? {xs ys : Fields} (h : FieldsMatch R xs ys) (key : String) :
    Option.Rel (Matches R) (Table.get? key xs) (Table.get? key ys) := by
  induction h with
  | nil => exact .none
  | @cons p q xs ys first _ ih =>
    obtain ⟨k, x⟩ := p
    obtain ⟨k', y⟩ := q
    obtain ⟨rfl, hvalue⟩ := first
    rw [Table.get?_cons, Table.get?_cons]
    split
    · exact .some hvalue
    · exact ih

theorem FieldsMatch.mono {xs ys : Fields} (h : FieldsMatch R xs ys)
    (weaker : ∀ i j, R i j → S i j) : FieldsMatch S xs ys :=
  List.Forall₂.imp (fun _ _ h => ⟨h.1, h.2.mono weaker⟩) h

theorem FieldsMatch.set {xs ys : Fields} (h : FieldsMatch R xs ys) (key : String)
    (hv : v.Matches R w) : FieldsMatch R (xs.set key v) (ys.set key w) := by
  induction h with
  | nil => exact .cons ⟨rfl, hv⟩ .nil
  | @cons p q xs ys first rest ih =>
    obtain ⟨k, x⟩ := p
    obtain ⟨k', y⟩ := q
    obtain ⟨rfl, hvalue⟩ := first
    rw [Table.set, Table.set]
    split
    · exact .cons ⟨rfl, hv⟩ rest
    · exact .cons ⟨rfl, hvalue⟩ ih

theorem identity?_member (free : v.identity? = none) (segment : Segment) :
    (v.member segment).identity? = none := by
  cases v with
  | array | object => cases free
  | text s =>
    cases segment with
    | key name => simp only [member]; split <;> rfl
    | index i => simp only [member]; split <;> rfl
  | _ => rfl

/-- The members of matching values match. -/
theorem Matches.member (h : v.Matches R w) (segment : Segment) :
    (v.member segment).Matches R (w.member segment) := by
  cases h with
  | scalar free => exact .scalar (identity?_member free segment)
  | array related items =>
    cases segment with
    | index i => exact matches_getD (forall₂_getElem? items i)
    | key name =>
      simp only [Value.member, items.length_eq]
      split
      · exact .scalar rfl
      · split
        · exact matches_getD (forall₂_getElem? items _)
        · exact .scalar rfl
  | object related keys values =>
    have hfields := fieldsMatch_iff.2 ⟨keys, values⟩
    cases segment <;> exact matches_getD (hfields.get? _)

end Value

end LiveTemplate
