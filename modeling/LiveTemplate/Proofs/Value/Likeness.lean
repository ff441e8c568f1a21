import LiveTemplate.Proofs.Value.Identity
import LiveTemplate.Resolution

/-!
# What expressions see of values that agree

Numbers that agree are one number or the two zeros, so a function of numbers respects agreement as
soon as it does at the zeros. Sums, products and remainders do, and so do order and equality; a
quotient tells the zeros apart as a divisor.

Values that agree have the same text and the same truth, agreeing numbers and agreeing members. All
operators respect agreement that do not divide, raise to a power, or compare for equality
(`Value.binary_agrees`).
-/
namespace LiveTemplate

open Float.Model (UnpackedFloat)

/-! ## Numbers -/

section Numbers

variable {x y x' y' : Float}

/-- Numbers that agree are the same but for the sign of a zero. -/
theorem agree_cases (h : numbersAgree x y = true) : x = y ∨ x = 0 ∧ y = -0 ∨ x = -0 ∧ y = 0 := by
  rw [numbersAgree, Bool.or_eq_true, Bool.and_eq_true, Float.beq_iff_ne_nan_and_eq,
    Float.isNaN_eq_decide_eq_nan, Float.isNaN_eq_decide_eq_nan, decide_eq_true_iff,
    decide_eq_true_iff] at h
  rcases h with ⟨-, -, h⟩ | ⟨rfl, rfl⟩
  · exact h
  · exact .inl rfl

theorem agree_refl (x : Float) : numbersAgree x x = true :=
  (numbersAgree_iff x x).2 rfl

theorem agree_symm (h : numbersAgree x y = true) : numbersAgree y x = true :=
  (numbersAgree_iff y x).2 ((numbersAgree_iff x y).1 h).symm

theorem agree_trans (h : numbersAgree x y = true) (h' : numbersAgree y y' = true) :
    numbersAgree x y' = true :=
  (numbersAgree_iff x y').2 (((numbersAgree_iff x y).1 h).trans ((numbersAgree_iff y y').1 h'))

/-- What is the same of the two zeros is the same of numbers that agree. -/
theorem congr_of_agree {α : Type} {f : Float → α} (zeros : f 0 = f (-0))
    (h : numbersAgree x y = true) : f x = f y := by
  rcases agree_cases h with rfl | ⟨rfl, rfl⟩ | ⟨rfl, rfl⟩
  · rfl
  · exact zeros
  · exact zeros.symm

theorem agree_map {f : Float → Float} (zeros : numbersAgree (f 0) (f (-0)) = true)
    (h : numbersAgree x y = true) : numbersAgree (f x) (f y) = true := by
  rcases agree_cases h with rfl | ⟨rfl, rfl⟩ | ⟨rfl, rfl⟩
  · exact agree_refl _
  · exact zeros
  · exact agree_symm zeros

theorem agree_map₂ {f : Float → Float → Float} (left : ∀ y, numbersAgree (f 0 y) (f (-0) y) = true)
    (right : ∀ x, numbersAgree (f x 0) (f x (-0)) = true) (h : numbersAgree x x' = true)
    (h' : numbersAgree y y' = true) : numbersAgree (f x y) (f x' y') = true :=
  agree_trans (agree_map (f := (f · y)) (left y) h) (agree_map (right x') h')

theorem congr_of_agree₂ {α : Type} {f : Float → Float → α} (left : ∀ y, f 0 y = f (-0) y)
    (right : ∀ x, f x 0 = f x (-0)) (h : numbersAgree x x' = true) (h' : numbersAgree y y' = true) :
    f x y = f x' y' :=
  (congr_of_agree (f := (f · y)) (left y) h).trans (congr_of_agree (right x') h')

/-- What is true of both zeros, by one evaluation. -/
theorem zeros : numbersAgree 0 (-0) = true ∧ numbersAgree (-0) (- -0) = true ∧
    (((0 : Float) == 0) = true ∧ ((-0 : Float) == 0) = true) ∧
    ((0 : Float).isNaN = false ∧ (-0 : Float).isNaN = false ∧
      (0 : Float).isInf = false ∧ (-0 : Float).isInf = false) ∧
    numberText 0 = numberText (-0) := by
  decide +kernel

theorem agree_zeros : numbersAgree 0 (-0) = true := zeros.1

theorem beq_zeros : ((0 : Float) == 0) = true ∧ ((-0 : Float) == 0) = true := zeros.2.2.1

theorem agree_neg (h : numbersAgree x y = true) : numbersAgree (-x) (-y) = true :=
  agree_map zeros.2.1 h

/-! ### Arithmetic -/

theorem unpack_pack_zero (s : UnpackedFloat.Sign) : (Float.Model.pack (.zero s)).unpack = .zero s :=
  UnpackedFloat.unpack_packedZero

/-- Rounding respects agreement: what agrees before it is the same, or the two zeros. -/
theorem landmark_pack {u v : UnpackedFloat} (h : landmark u = landmark v) :
    landmark (Float.Model.pack u).unpack = landmark (Float.Model.pack v).unpack := by
  cases u <;> cases v <;>
    simp only [landmark, Option.some.injEq, Prod.mk.injEq, reduceCtorEq, and_false, and_true] at h
  case infinity.infinity => rw [h]
  case notANumber.notANumber => rfl
  case zero.zero => simp only [unpack_pack_zero, landmark]
  case finite.finite =>
    obtain ⟨rfl, rfl, rfl⟩ := h
    rfl

/-- A function that does not see the sign of a zero respects agreement. -/
theorem agree_rounded {f : Float → Float} (op : UnpackedFloat → UnpackedFloat)
    (computes : ∀ x, (f x).toModel = Float.Model.pack (op x.toModel.unpack))
    (blind : ∀ s t, landmark (op (.zero s)) = landmark (op (.zero t)))
    (h : numbersAgree x y = true) : numbersAgree (f x) (f y) = true := by
  refine agree_map ?_ h
  rw [numbersAgree_iff, computes, computes]
  exact landmark_pack (blind .positive .negative)

theorem agree_rounded₂ {f : Float → Float → Float}
    (op : UnpackedFloat → UnpackedFloat → UnpackedFloat)
    (computes : ∀ x y, (f x y).toModel = Float.Model.pack (op x.toModel.unpack y.toModel.unpack))
    (left : ∀ s t v, landmark (op (.zero s) v) = landmark (op (.zero t) v))
    (right : ∀ s t v, landmark (op v (.zero s)) = landmark (op v (.zero t)))
    (h : numbersAgree x x' = true) (h' : numbersAgree y y' = true) :
    numbersAgree (f x y) (f x' y') = true :=
  agree_trans
    (agree_rounded (f := (f · y)) (op · y.toModel.unpack) (computes · y) (left · · _) h)
    (agree_rounded (f := f x') (op x'.toModel.unpack) (computes x') (right · · _) h')

theorem agree_add (h : numbersAgree x x' = true) (h' : numbersAgree y y' = true) :
    numbersAgree (x + y) (x' + y') = true := by
  refine agree_rounded₂ (UnpackedFloat.add _) (fun _ _ => rfl) (fun s t v => ?_) (fun s t v => ?_) h h' <;>
    cases v <;> simp only [UnpackedFloat.add] <;> (repeat' split) <;> rfl

theorem agree_sub (h : numbersAgree x x' = true) (h' : numbersAgree y y' = true) :
    numbersAgree (x - y) (x' - y') = true := by
  refine agree_rounded₂ (UnpackedFloat.sub _) (fun _ _ => rfl) (fun s t v => ?_) (fun s t v => ?_) h h' <;>
    cases v <;> simp only [UnpackedFloat.sub] <;> (repeat' split) <;> rfl

theorem agree_mul (h : numbersAgree x x' = true) (h' : numbersAgree y y' = true) :
    numbersAgree (x * y) (x' * y') = true := by
  refine agree_rounded₂ (UnpackedFloat.mul _) (fun _ _ => rfl) (fun s t v => ?_) (fun s t v => ?_) h h' <;>
    cases v <;> rfl

/-- A zero that is divided does not show its sign. -/
theorem agree_div (h : numbersAgree x x' = true) (y : Float) :
    numbersAgree (x / y) (x' / y) = true := by
  refine agree_rounded (f := (· / y)) (UnpackedFloat.div _ · y.toModel.unpack) (fun _ => rfl)
    (fun s t => ?_) h
  cases y.toModel.unpack <;> rfl

/-! ### Comparison -/

theorem beq_agree (h : numbersAgree x x' = true) (h' : numbersAgree y y' = true) :
    (x == y) = (x' == y') := by
  have hx := (numbersAgree_iff x x').1 h
  have hy := (numbersAgree_iff y y').1 h'
  rw [Bool.eq_iff_iff, beq_iff, beq_iff, hx, hy]

theorem compare_agree (h : numbersAgree x x' = true) (h' : numbersAgree y y' = true) :
    x.toModel.unpack.compare y.toModel.unpack = x'.toModel.unpack.compare y'.toModel.unpack := by
  refine congr_of_agree₂ (f := fun x y : Float => x.toModel.unpack.compare y.toModel.unpack)
    (fun y => ?_) (fun x => ?_) h h'
  · show UnpackedFloat.compare (.zero .positive) _ = UnpackedFloat.compare (.zero .negative) _
    rcases y.toModel.unpack with ⟨_ | _⟩ | _ | _ | ⟨_ | _, _, _, _⟩ <;> rfl
  · show UnpackedFloat.compare _ (.zero .positive) = UnpackedFloat.compare _ (.zero .negative)
    rcases x.toModel.unpack with ⟨_ | _⟩ | _ | _ | ⟨_ | _, _, _, _⟩ <;> rfl

theorem lt_iff (x y : Float) :
    x < y ↔ x.toModel.unpack.compare y.toModel.unpack = some .lt := by
  show decide (Float.Model.lt _ _ = true) = true ↔ _
  rw [decide_eq_true_iff]
  exact beq_iff_eq

theorem le_iff (x y : Float) :
    x ≤ y ↔ (x.toModel.unpack.compare y.toModel.unpack).any (·.isLE) = true := by
  show decide (Float.Model.le _ _ = true) = true ↔ _
  rw [decide_eq_true_iff]
  rfl

theorem lt_agree (h : numbersAgree x x' = true) (h' : numbersAgree y y' = true) :
    x < y ↔ x' < y' := by
  rw [lt_iff, lt_iff, compare_agree h h']

theorem le_agree (h : numbersAgree x x' = true) (h' : numbersAgree y y' = true) :
    x ≤ y ↔ x' ≤ y' := by
  rw [le_iff, le_iff, compare_agree h h']

/-- The remainder of a zero is that zero or no number, and there is none by a zero. -/
theorem agree_remainder (h : numbersAgree x x' = true) (h' : numbersAgree y y' = true) :
    numbersAgree (remainder x y) (remainder x' y') = true := by
  obtain ⟨-, -, hzero, hfinite, -⟩ := zeros
  refine agree_map₂ (fun y => ?_) (fun x => ?_) h h'
  · simp only [remainder, hzero, hfinite, Bool.or_true, if_true, Bool.false_or]
    split
    · exact agree_refl _
    · exact agree_zeros
  · simp only [remainder, hzero, Bool.or_true, if_true]
    exact agree_refl _

theorem numberText_agree (h : numbersAgree x y = true) : numberText x = numberText y :=
  congr_of_agree zeros.2.2.2.2 h

/-- Only a zero agrees with another number. -/
theorem eq_of_agree (h : numbersAgree x y = true) (nonzero : (x == 0) = false) : x = y := by
  rcases agree_cases h with h | ⟨rfl, rfl⟩ | ⟨rfl, rfl⟩
  · exact h
  · exact absurd (beq_zeros.1.symm.trans nonzero) (by decide)
  · exact absurd (beq_zeros.2.symm.trans nonzero) (by decide)

end Numbers

/-! ## Values -/

/-- Operators whose result may depend on the sign of a zero or on identities. -/
def BinaryOperator.isKeen : BinaryOperator → Bool
  | divide | power | equal | notEqual | identical | notIdentical => true
  | _ => false

namespace Value

variable {v w v' w' : Value}

/-- Agreement does not look at identities. -/
theorem agrees_of_erase_eq (proper : v.Proper) (h : v.erase = w.erase) : v.agrees w = true := by
  induction proper generalizing w with
  | @array i items each ih =>
    clear each
    cases w <;> simp only [erase, reduceCtorEq, array.injEq, true_and, eraseItems_eq] at h
    rw [← List.forall₂_eq_eq_eq, List.forall₂_map_left_iff, List.forall₂_map_right_iff] at h
    rw [agrees, itemsAgree_iff]
    induction h with
    | nil => exact .nil
    | cons first _ ihRest =>
      exact .cons (ih _ List.mem_cons_self first) (ihRest fun x hx => ih x (List.mem_cons_of_mem _ hx))
  | @object i fields keys _ ih =>
    cases w <;> simp only [erase, reduceCtorEq, object.injEq, true_and] at h
    rw [agrees, Bool.and_eq_true, beq_iff_eq, fieldsAgree_iff]
    refine ⟨by simpa [eraseFields_eq] using congrArg List.length h, fun p hp => ?_⟩
    have hlookup := lookup_eraseFields p.1 fields
    rw [h, lookup_eraseFields, lookup_of_mem keys hp, Option.map_some] at hlookup
    obtain ⟨y, hy, herase⟩ := Option.map_eq_some_iff.1 hlookup
    exact ⟨y, hy, ih p hp herase.symm⟩
  | undefined | null | bool | number | text | cell =>
    cases w <;> simp_all [erase, agrees, agree_refl]

/-! ### Coercions -/

theorem toText_of_agrees (h : v.agrees w = true) : v.toText = w.toText := by
  induction v using induct generalizing w with
  | array i items ih =>
    cases w <;> simp only [agrees, Bool.false_eq_true, itemsAgree_iff] at h
    rw [toText, toText]
    refine joinedText_congr ?_
    induction h with
    | nil => rfl
    | cons first _ ihRest =>
      simp only [List.map_cons, List.cons.injEq]
      exact ⟨ih _ (by simp) first, ihRest fun x hx => ih x (by simp [hx])⟩
  | number x =>
    cases w <;> simp only [agrees, Bool.false_eq_true] at h
    exact numberText_agree h
  | _ => cases w <;> simp_all [agrees, toText]

theorem toNumber_of_agrees (h : v.agrees w = true) :
    numbersAgree v.toNumber w.toNumber = true := by
  have htext := toText_of_agrees h
  cases v <;> cases w <;> simp only [agrees, Bool.false_eq_true, beq_iff_eq] at h
  case number.number => exact h
  case array.array =>
    rw [toNumber, toNumber, htext]
    exact agree_refl _
  all_goals first | exact agree_refl _ | (subst h; exact agree_refl _)

theorem isTruthy_of_agrees (h : v.agrees w = true) : v.isTruthy = w.isTruthy := by
  cases v <;> cases w <;> simp only [agrees, Bool.false_eq_true, beq_iff_eq] at h
  case number.number => exact congr_of_agree (f := fun x => (number x).isTruthy) (by decide +kernel) h
  all_goals first | rfl | (subst h; rfl)

theorem isNullish_of_agrees (h : v.agrees w = true) : v.isNullish = w.isNullish := by
  cases v <;> cases w <;> first | rfl | simp [agrees] at h

theorem isReactive_of_agrees (h : v.agrees w = true) : v.isReactive = w.isReactive := by
  cases v <;> cases w <;> first | rfl | simp [agrees] at h

/-! ### Members -/

theorem agrees_getElem? {xs ys : List Value} (h : List.Forall₂ (fun x y => agrees x y = true) xs ys)
    (i : Nat) : (xs[i]?.getD undefined).agrees (ys[i]?.getD undefined) = true := by
  induction h generalizing i with
  | nil => rfl
  | cons first _ ih =>
    cases i with
    | zero => exact first
    | succ i => simpa using ih i

theorem agrees_get? {xs ys : Fields} (keys : (xs.map (·.1)).Nodup) (length : xs.length = ys.length)
    (within : ∀ p ∈ xs, ∃ y, ys.lookup p.1 = some y ∧ agrees p.2 y = true) (key : String) :
    ((Table.get? key xs).getD undefined).agrees ((Table.get? key ys).getD undefined) = true := by
  cases hx : Table.get? key xs with
  | some x =>
    obtain ⟨y, hy, hxy⟩ := within _ (mem_of_lookup hx)
    rw [Table.get?, hy]
    exact hxy
  | none =>
    cases hy : Table.get? key ys with
    | none => rfl
    | some y =>
      -- a key of the second table is one of the first, since both have as many
      obtain ⟨x, hmem⟩ := fields_mem_of_length keys length
        (fun p hp => (within p hp).imp fun _ => And.left) (mem_of_lookup hy)
      cases hx.symm.trans (lookup_of_mem keys hmem)

theorem agrees_member (proper : v.Proper) (h : v.agrees w = true) (segment : Segment) :
    (v.member segment).agrees (w.member segment) = true := by
  cases proper with
  | array i each =>
    cases w <;> simp only [agrees, Bool.false_eq_true, itemsAgree_iff] at h
    cases segment with
    | index i => exact agrees_getElem? h i
    | key name =>
      simp only [member]
      split
      · rw [h.length_eq]
        exact agree_refl _
      · split
        · exact agrees_getElem? h _
        · rfl
  | object i keys each =>
    cases w <;> simp only [agrees, Bool.false_eq_true, Bool.and_eq_true, beq_iff_eq,
      fieldsAgree_iff] at h
    cases segment <;> exact agrees_get? keys h.1 h.2 _
  | text s =>
    cases w <;> simp only [agrees, Bool.false_eq_true, beq_iff_eq] at h
    subst h
    cases segment with
    | index i =>
      simp only [member]
      split
      · exact agrees_refl (.text _)
      · rfl
    | key name =>
      simp only [member]
      split
      · exact agree_refl _
      · rfl
  | _ => cases w <;> first | rfl | simp [agrees] at h

/-! ### Operators -/

theorem unary_agrees (op : UnaryOperator) (h : v.agrees w = true) :
    (unary op v).agrees (unary op w) = true := by
  cases op with
  | negate => exact agree_neg (toNumber_of_agrees h)
  | plus => exact toNumber_of_agrees h
  | not =>
    simp only [unary, isTruthy_of_agrees h]
    exact agrees_refl (.bool _)

theorem add_agrees (h : v.agrees w = true) (h' : v'.agrees w' = true) :
    (add v v').agrees (add w w') = true := by
  have htext := toText_of_agrees h
  have htext' := toText_of_agrees h'
  cases v <;> cases w <;> simp only [agrees, Bool.false_eq_true] at h <;>
    cases v' <;> cases w' <;> simp only [agrees, Bool.false_eq_true] at h'
  case number.number.number.number => exact agree_add h h'
  all_goals
    simp only [add, htext, htext']
    exact agrees_refl (.text _)

theorem less_agrees (h : v.agrees w = true) (h' : v'.agrees w' = true) :
    v.less v' = w.less w' := by
  have hnumber := toNumber_of_agrees h
  have hnumber' := toNumber_of_agrees h'
  cases v <;> cases w <;> simp only [agrees, Bool.false_eq_true] at h <;>
    cases v' <;> cases w' <;> simp only [agrees, Bool.false_eq_true] at h'
  case text.text.text.text => rw [eq_of_beq h, eq_of_beq h']
  all_goals exact decide_eq_decide.2 (lt_agree hnumber hnumber')

theorem lessEqual_agrees (h : v.agrees w = true) (h' : v'.agrees w' = true) :
    v.lessEqual v' = w.lessEqual w' := by
  have hnumber := toNumber_of_agrees h
  have hnumber' := toNumber_of_agrees h'
  cases v <;> cases w <;> simp only [agrees, Bool.false_eq_true] at h <;>
    cases v' <;> cases w' <;> simp only [agrees, Bool.false_eq_true] at h'
  case text.text.text.text => rw [eq_of_beq h, eq_of_beq h']
  all_goals exact decide_eq_decide.2 (le_agree hnumber hnumber')

/-- An operator that is not keen gives on values that agree results that agree. -/
theorem binary_agrees {op : BinaryOperator} (keen : op.isKeen = false) (h : v.agrees w = true)
    (h' : v'.agrees w' = true) : (binary op v v').agrees (binary op w w') = true := by
  have hnumber := toNumber_of_agrees h
  have hnumber' := toNumber_of_agrees h'
  have htruthy := isTruthy_of_agrees h
  cases op with
  | add => exact add_agrees h h'
  | subtract => exact agree_sub hnumber hnumber'
  | multiply => exact agree_mul hnumber hnumber'
  | remainder => exact agree_remainder hnumber hnumber'
  | less | greater => simp [binary, less_agrees h h', less_agrees h' h, agrees]
  | lessEqual | greaterEqual => simp [binary, lessEqual_agrees h h', lessEqual_agrees h' h, agrees]
  | and | or =>
    simp only [binary, htruthy]
    split <;> assumption
  | _ => simp [BinaryOperator.isKeen] at keen

end Value

end LiveTemplate
