import Mathlib
import LiveTemplate.Expr.Parser

/-!
# Numbers as they are read and written

A number that is read from digits has no sign, so it is written without one: in digits with at most one
point if it is finite, and as a word otherwise (`numberText_cases`). The number that is not a number and
the infinity without a sign are single doubles, which the words stand for.
-/
namespace LiveTemplate

open Float.Model (UnpackedFloat Format)
open Float.Model.UnpackedFloat

/-! ## Signs -/

/-- The sign of a number; what is not a number has none. -/
def signOf : UnpackedFloat → Sign
  | .infinity s | .zero s | .finite s _ _ _ => s
  | .notANumber => .positive

section Format

variable {spec : Format}

theorem unpackSign_pack (u : UnpackedFloat) : unpackSign (pack spec u) = (signOf u).toBitVec := by
  unfold pack
  split
  next => exact unpackSign_packComponents ..
  next => exact unpackSign_packComponents ..
  next => exact unpackSign_packComponents ..
  next =>
    dsimp only
    split
    · exact unpackSign_packComponents ..
    · split <;> exact unpackSign_packComponents ..

theorem signOf_unpack {b : BitVec spec.numBits} (h : unpackSign b = 0#1) :
    signOf (unpack spec b) = .positive := by
  have positive : Sign.ofBitVec (unpackSign b) = .positive := if_pos h
  unfold unpack
  dsimp only
  split
  · split
    · exact positive
    · rfl
  · split
    · split <;> exact positive
    · exact positive

theorem signOf_roundWithAccuracy (s : Sign) (m : Nat) (e : Int) (a : Accuracy) :
    signOf (roundWithAccuracy spec s m e a) = s := by
  unfold roundWithAccuracy
  dsimp only
  split <;> rfl

theorem signOf_ofNat (n : Nat) : signOf (UnpackedFloat.ofNat spec n) = .positive := by
  unfold UnpackedFloat.ofNat UnpackedFloat.ofInt UnpackedFloat.normalize
  split
  next h =>
    rw [Int.compare_eq_lt] at h
    omega
  next => rfl
  next => exact signOf_roundWithAccuracy ..

theorem signOf_mul {u v : UnpackedFloat} (hu : signOf u = .positive) (hv : signOf v = .positive) :
    signOf (mul spec u v) = .positive := by
  have signs {s t : Sign} (hs : s = .positive) (ht : t = .positive) : s * t = .positive := by
    rw [hs, ht]
    rfl
  unfold mul
  split
  all_goals first
    | rfl
    | exact signs hu hv
    | exact (signOf_roundWithAccuracy ..).trans (signs hu hv)

theorem signOf_div {u v : UnpackedFloat} (hu : signOf u = .positive) (hv : signOf v = .positive) :
    signOf (div spec u v) = .positive := by
  have signs {s t : Sign} (hs : s = .positive) (ht : t = .positive) : s / t = .positive := by
    rw [hs, ht]
    rfl
  unfold div
  split
  all_goals first
    | rfl
    | exact signs hu hv
    | exact (signOf_roundWithAccuracy ..).trans (signs hu hv)

theorem signOf_ofScientific (m : Nat) (e : Int) :
    signOf (UnpackedFloat.ofScientific spec m e) = .positive := by
  unfold UnpackedFloat.ofScientific
  split
  · rfl
  · split
    · rfl
    · split
      · rfl
      · split
        · exact signOf_mul rfl rfl
        · exact signOf_div rfl rfl

end Format

/-- The double has no sign. -/
def Unsigned (x : Float) : Prop := @unpackSign .binary64 x.toModel.toBits.toBitVec = 0#1

instance (x : Float) : Decidable (Unsigned x) := inferInstanceAs (Decidable (_ = _))

theorem unsigned_pack {u : UnpackedFloat} (h : signOf u = .positive) :
    Unsigned (.ofModel (.pack u)) := by
  show unpackSign (pack .binary64 u) = 0#1
  rw [unpackSign_pack, h]
  rfl

theorem Unsigned.mul {x y : Float} (hx : Unsigned x) (hy : Unsigned y) : Unsigned (x * y) :=
  unsigned_pack (signOf_mul (signOf_unpack hx) (signOf_unpack hy))

theorem Unsigned.div {x y : Float} (hx : Unsigned x) (hy : Unsigned y) : Unsigned (x / y) :=
  unsigned_pack (signOf_div (signOf_unpack hx) (signOf_unpack hy))

theorem unsigned_powersOfTen : ∀ x ∈ Float.exactlyRepresentablePowersOfTen.toList, Unsigned x := by
  decide +kernel

theorem unsigned_ofScientific (m : Nat) (s : Bool) (e : Nat) : Unsigned (Float.ofScientific m s e) := by
  unfold Float.ofScientific
  split
  next h =>
    have hm : Unsigned m.toUInt64.toFloat := unsigned_pack (signOf_ofNat _)
    have size : Float.exactlyRepresentablePowersOfTen.size = 23 := rfl
    have listed : e < Float.exactlyRepresentablePowersOfTen.size := by omega
    have hpower := unsigned_powersOfTen Float.exactlyRepresentablePowersOfTen[e] (by simp)
    split
    · exact hm.div hpower
    · exact hm.mul hpower
  next => exact unsigned_pack (signOf_ofScientific ..)

theorem isNegative_of_unsigned {x : Float} (h : Unsigned x) : isNegative x = false := by
  have hsign : x.toModel.toBits.toNat / 2 ^ 63 % 2 = 0 := by
    simpa [unpackSign, Nat.shiftRight_eq_div_pow] using congrArg BitVec.toNat h
  have hbits : x.toModel.toBits.toNat < 2 ^ 64 := x.toModel.toBits.toNat_lt
  refine decide_eq_false ?_
  show ¬ 2 ^ 63 ≤ x.toModel.toBits.toNat
  omega

theorem unsigned_toFloat {n : Numeral} (h : n.negative = false) : Unsigned n.toFloat := by
  rw [Numeral.toFloat, h]
  exact unsigned_ofScientific ..

/-- What begins with a digit has no sign. -/
theorem Numeral.negative_of_read {c : Char} {cs : List Char} (digit : c.isDigit = true) {n : Numeral}
    (h : Numeral.read (c :: cs) = some n) : n.negative = false := by
  have sign : splitSign (c :: cs) = (false, c :: cs) := by
    unfold splitSign
    split
    next heq =>
      cases heq
      cases digit
    next heq =>
      cases heq
      cases digit
    next => rfl
  unfold Numeral.read at h
  rw [sign] at h
  dsimp only at h
  split at h
  next => cases h
  next =>
    obtain ⟨_, -, rfl⟩ := Option.map_eq_some_iff.1 h
    rfl

theorem Expr.unsigned_numberContent {text : String} {c : Char} {cs : List Char}
    (htext : text.toList = c :: cs) (digit : c.isDigit = true) : Unsigned (numberContent text) := by
  unfold numberContent
  split
  next n hread => exact unsigned_toFloat (Numeral.negative_of_read digit (htext ▸ hread))
  next => decide +kernel

/-! ## Texts -/

/-- There is one infinity without a sign. -/
theorem eq_of_isInf {x : Float} (h : x.isInf = true) (unsigned : Unsigned x) : x = 1 / 0 := by
  have hunpack : x.toModel.unpack = (1 / 0 : Float).toModel.unpack := by
    have hinf : x.toModel.unpack.isInf = true := h
    have hsign : signOf x.toModel.unpack = .positive := signOf_unpack unsigned
    cases hx : x.toModel.unpack with
    | infinity s =>
      obtain rfl : s = .positive := by simpa [hx, signOf] using hsign
      rfl
    | _ => simp [hx, isInf] at hinf
  have hbits := (unpack_inj_of_valid x.toModel.valid (1 / 0 : Float).toModel.valid).1 hunpack
  exact Float.toBits_inj.1 (UInt64.toBitVec_inj.1 hbits)

/-- How a number without a sign is written. -/
theorem numberText_cases {x : Float} (unsigned : Unsigned x) :
    (x = 0 / 0 ∧ numberText x = "NaN") ∨ (x = 1 / 0 ∧ numberText x = "Infinity") ∨
      x.isFinite = true ∧
        (numberText x = "0" ∨ ∃ d : Shortest.Decimal, numberText x = String.ofList d.positional) := by
  unfold numberText
  split
  next hnan => exact .inl ⟨of_decide_eq_true (Float.isNaN_eq_decide_eq_nan ▸ hnan), rfl⟩
  next hnan =>
    split
    next hinf =>
      obtain rfl := eq_of_isInf hinf unsigned
      exact .inr (.inl ⟨rfl, if_pos (by decide +kernel)⟩)
    next hinf =>
      refine .inr (.inr ⟨?_, ?_⟩)
      · have hx : x.toModel.unpack.isNaN = false ∧ x.toModel.unpack.isInf = false :=
          ⟨Bool.of_not_eq_true hnan, Bool.of_not_eq_true hinf⟩
        show x.toModel.unpack.isFinite = true
        revert hx
        cases x.toModel.unpack <;> simp [isNaN, isInf, isFinite]
      · rw [isNegative_of_unsigned unsigned]
        split
        · exact .inl rfl
        · exact .inr ⟨_, rfl⟩

/-- A decimal is written in digits with at most one point, which has digits on both sides. -/
theorem positional_eq (d : Shortest.Decimal) : ∃ ds fs : List Char, ds ≠ [] ∧
    (∀ c ∈ ds, c.isDigit = true) ∧ (∀ c ∈ fs, c.isDigit = true) ∧
      (d.positional = ds ∨ fs ≠ [] ∧ d.positional = ds ++ '.' :: fs) := by
  have digits : ∀ c ∈ Nat.toDigits 10 d.digits, c.isDigit = true :=
    fun c hc => Nat.isDigit_of_mem_toDigits (by decide) (by decide) hc
  have some : Nat.toDigits 10 d.digits ≠ [] := Nat.toDigits_ne_nil
  have zeros (n : Nat) : ∀ c ∈ List.replicate n '0', c.isDigit = true := fun c hc => by
    rw [List.eq_of_mem_replicate hc]
    rfl
  unfold Shortest.Decimal.positional
  dsimp only
  split
  next =>
    refine ⟨_, [], by simp [some], fun c hc => ?_, nofun, .inl rfl⟩
    exact (List.mem_append.1 hc).elim (digits c) (zeros _ c)
  next =>
    split
    next =>
      refine ⟨['0'], _, by simp, by simp, fun c hc => ?_, .inr ⟨by simp [some], rfl⟩⟩
      exact (List.mem_append.1 hc).elim (zeros _ c) (digits c)
    next =>
      refine ⟨_, _, ?_, fun c hc => digits c (List.mem_of_mem_take hc),
        fun c hc => digits c (List.mem_of_mem_drop hc), .inr ⟨?_, rfl⟩⟩
      · simp [some]; omega
      · simp; omega

end LiveTemplate
