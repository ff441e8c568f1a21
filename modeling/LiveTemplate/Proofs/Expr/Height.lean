import Mathlib
import LiveTemplate.Proofs.Expr.Display

/-!
# The height of parsed trees

Every construct goes one level down for its parts, except for the part it begins with: the left operand
of an operator and the condition of a conditional are parsed before the construct is known, with the
room that it has itself. So the number of levels bounds the height of a tree in which the steps to
first parts do not count (`Expr.rank`), and the height only of a tree where no first part is higher than
the parts behind it (`Expr.Rising`).

The height is bounded all the same. A chain with so much room has at most so many operators on top of
its first operand, which may be a group with a chain of its own, one operator shorter; so the bound is
a sum, and it is met by groups that begin one in another (`Expr.slope`).
-/
namespace LiveTemplate.Expr

mutual

/-- The height when the steps to first parts do not count. -/
def rank : Expr → Nat
  | literal _ | path _ => 1
  | array items => 1 + itemsRank items
  | object fields => 1 + fieldsRank fields
  | unary _ operand => 1 + rank operand
  | binary _ left right => max (rank left) (1 + rank right)
  | conditional condition whenTrue whenFalse =>
    max (rank condition) (1 + max (rank whenTrue) (rank whenFalse))

def itemsRank : List Expr → Nat
  | [] => 0
  | e :: rest => max (rank e) (itemsRank rest)

def fieldsRank : List (String × Expr) → Nat
  | [] => 0
  | (_, e) :: rest => max (rank e) (fieldsRank rest)

end

mutual

/-- No first part is higher than the parts behind it. -/
def Rising : Expr → Prop
  | literal _ | path _ => True
  | array items => ItemsRising items
  | object fields => FieldsRising fields
  | unary _ operand => Rising operand
  | binary _ left right => Rising left ∧ Rising right ∧ left.height ≤ right.height
  | conditional condition whenTrue whenFalse => Rising condition ∧ Rising whenTrue ∧
    Rising whenFalse ∧ condition.height ≤ max whenTrue.height whenFalse.height

def ItemsRising : List Expr → Prop
  | [] => True
  | e :: rest => Rising e ∧ ItemsRising rest

def FieldsRising : List (String × Expr) → Prop
  | [] => True
  | (_, e) :: rest => Rising e ∧ FieldsRising rest

end

mutual

theorem Rising.rank_eq {e : Expr} (rising : e.Rising) : e.rank = e.height := by
  cases e with
  | literal | path => rfl
  | array items => rw [rank, height, ItemsRising.itemsRank_eq rising]
  | object fields => rw [rank, height, FieldsRising.fieldsRank_eq rising]
  | unary _ operand =>
    have inner : operand.Rising := rising
    rw [rank, height, inner.rank_eq]
  | binary _ left right =>
    obtain ⟨hleft, hright, le⟩ := rising
    rw [rank, height, hleft.rank_eq, hright.rank_eq]
    omega
  | conditional condition whenTrue whenFalse =>
    obtain ⟨hcondition, htrue, hfalse, le⟩ := rising
    rw [rank, height, hcondition.rank_eq, htrue.rank_eq, hfalse.rank_eq]
    omega

theorem ItemsRising.itemsRank_eq {items : List Expr} (rising : ItemsRising items) :
    itemsRank items = itemsHeight items := by
  cases items with
  | nil => rfl
  | cons e rest => rw [itemsRank, itemsHeight, rising.1.rank_eq, rising.2.itemsRank_eq]

theorem FieldsRising.fieldsRank_eq {fields : List (String × Expr)} (rising : FieldsRising fields) :
    fieldsRank fields = fieldsHeight fields := by
  cases fields with
  | nil => rfl
  | cons p rest => rw [fieldsRank, fieldsHeight, rising.1.rank_eq, rising.2.fieldsRank_eq]

end

/-- The height of the highest tree that is parsed with so many levels below. -/
def ceiling : Nat → Nat
  | 0 => 1
  | room + 1 => ceiling room + (room + 1)

theorem ceiling_eq (room : Nat) : ceiling room = 1 + room * (room + 1) / 2 := by
  induction room with
  | zero => rfl
  | succ room ih =>
    have split : (room + 1) * (room + 1 + 1) = room * (room + 1) + (room + 1) * 2 := by ring
    rw [ceiling, ih, split, Nat.add_mul_div_right _ _ Nat.two_pos, Nat.add_assoc]

/-- The tree is no higher than a bound, and its rank no more than another. -/
structure Fits (height rank : Nat) (e : Expr) : Prop where
  height_le : e.height ≤ height
  rank_le : e.rank ≤ rank

section Fits

variable {h h' k k' : Nat} {e f g : Expr}

theorem Fits.mono (fits : e.Fits h k) (hh : h ≤ h') (hk : k ≤ k') : e.Fits h' k' :=
  ⟨fits.height_le.trans hh, fits.rank_le.trans hk⟩

theorem fits_literal (v : Value) : (literal v).Fits 1 1 :=
  ⟨le_rfl, le_rfl⟩

theorem fits_path (p : Path) : (path p).Fits 1 1 :=
  ⟨le_rfl, le_rfl⟩

theorem fits_array {es : List Expr} (each : ∀ e ∈ es, e.Fits h k) :
    (array es).Fits (1 + h) (1 + k) := by
  have items : itemsHeight es ≤ h ∧ itemsRank es ≤ k := by
    induction es with
    | nil => exact ⟨Nat.zero_le _, Nat.zero_le _⟩
    | cons e es ih =>
      obtain ⟨first, rest⟩ := List.forall_mem_cons.1 each
      exact ⟨max_le first.height_le (ih rest).1, max_le first.rank_le (ih rest).2⟩
  exact ⟨Nat.add_le_add_left items.1 1, Nat.add_le_add_left items.2 1⟩

theorem fits_object {es : List (String × Expr)} (each : ∀ p ∈ es, p.2.Fits h k) :
    (object es).Fits (1 + h) (1 + k) := by
  have fields : fieldsHeight es ≤ h ∧ fieldsRank es ≤ k := by
    induction es with
    | nil => exact ⟨Nat.zero_le _, Nat.zero_le _⟩
    | cons p es ih =>
      obtain ⟨first, rest⟩ := List.forall_mem_cons.1 each
      exact ⟨max_le first.height_le (ih rest).1, max_le first.rank_le (ih rest).2⟩
  exact ⟨Nat.add_le_add_left fields.1 1, Nat.add_le_add_left fields.2 1⟩

theorem Fits.unary (op : UnaryOperator) (fits : e.Fits h k) : (unary op e).Fits (1 + h) (1 + k) :=
  ⟨Nat.add_le_add_left fits.height_le 1, Nat.add_le_add_left fits.rank_le 1⟩

theorem Fits.binary (op : BinaryOperator) (left : e.Fits h (1 + k)) (right : f.Fits h k) :
    (binary op e f).Fits (1 + h) (1 + k) := by
  have parts : max e.height f.height ≤ h := max_le left.height_le right.height_le
  have rest : 1 + f.rank ≤ 1 + k := Nat.add_le_add_left right.rank_le 1
  exact ⟨Nat.add_le_add_left parts 1, max_le left.rank_le rest⟩

theorem Fits.conditional (condition : e.Fits h (1 + k)) (whenTrue : f.Fits h k)
    (whenFalse : g.Fits h k) : (conditional e f g).Fits (1 + h) (1 + k) := by
  have branches : max f.height g.height ≤ h := max_le whenTrue.height_le whenFalse.height_le
  have parts : max e.height (max f.height g.height) ≤ h := max_le condition.height_le branches
  have rest : max f.rank g.rank ≤ k := max_le whenTrue.rank_le whenFalse.rank_le
  exact ⟨Nat.add_le_add_left parts 1, max_le condition.rank_le (Nat.add_le_add_left rest 1)⟩

end Fits

/-! ## What the parsers hand down -/

section Parts

variable {ts rest : List Lexeme} {e : Expr} {below : Option Level}

/-- The parser returns the tree for some tokens. -/
def Returns (parser : Parser Expr) (e : Expr) : Prop := ∃ ts rest, parser ts = .ok (e, rest)

theorem returns_of_mem_items {item : Parser Expr} {bound : Nat} {es : List Expr}
    (h : items item bound ts = .ok (es, rest)) : ∀ e ∈ es, Returns item e := by
  induction bound generalizing ts es with
  | zero => cases h
  | succ bound ih =>
    unfold items at h
    split at h
    next =>
      obtain ⟨rfl, -⟩ := Prod.mk.inj (Except.ok.inj h)
      exact nofun
    next =>
      split at h
      next => cases h
      next first tail hitem =>
        have hfirst : Returns item first := ⟨_, _, hitem⟩
        split at h
        next =>
          obtain ⟨⟨es, _⟩, hrest, hend⟩ := map_eq_ok.1 h
          obtain ⟨rfl, rfl⟩ := Prod.mk.inj hend
          exact List.forall_mem_cons.2 ⟨hfirst, ih hrest⟩
        next =>
          obtain ⟨_, -, hend⟩ := map_eq_ok.1 h
          obtain ⟨rfl, -⟩ := Prod.mk.inj hend
          exact List.forall_mem_singleton.2 hfirst

theorem returns_of_field {item : Parser Expr} {p : String × Expr}
    (h : field item ts = .ok (p, rest)) : Returns item p.2 := by
  unfold field at h
  split at h
  next => cases h
  next =>
    split at h
    next => cases h
    next =>
      split at h
      next => cases h
      next =>
        obtain ⟨_, hitem, hend⟩ := map_eq_ok.1 h
        obtain ⟨rfl, -⟩ := Prod.mk.inj hend
        exact ⟨_, _, hitem⟩

theorem returns_of_mem_fields {item : Parser Expr} {bound : Nat} {es : List (String × Expr)}
    (h : fields item bound ts = .ok (es, rest)) : ∀ p ∈ es, Returns item p.2 := by
  induction bound generalizing ts es with
  | zero => cases h
  | succ bound ih =>
    unfold fields at h
    split at h
    next =>
      obtain ⟨rfl, -⟩ := Prod.mk.inj (Except.ok.inj h)
      exact nofun
    next =>
      split at h
      next => cases h
      next first tail hfield =>
        have hfirst := returns_of_field hfield
        split at h
        next =>
          obtain ⟨⟨es, _⟩, hrest, hend⟩ := map_eq_ok.1 h
          obtain ⟨rfl, rfl⟩ := Prod.mk.inj hend
          exact List.forall_mem_cons.2 ⟨hfirst, ih hrest⟩
        next =>
          obtain ⟨_, -, hend⟩ := map_eq_ok.1 h
          obtain ⟨rfl, -⟩ := Prod.mk.inj hend
          exact List.forall_mem_singleton.2 hfirst

namespace Level

/-- The condition has as much room as the branches have. -/
theorem conditionalOver_eq_ok (h : conditionalOver below ts = .ok (e, rest)) :
    ∃ level ∈ below, ∃ c, Returns (level.binary 1) c ∧ (e = c ∨ ∃ t f,
      Returns level.conditional t ∧ Returns level.conditional f ∧ e = .conditional c t f) := by
  unfold conditionalOver at h
  split at h
  next => cases h
  next _ level =>
    refine ⟨level, rfl, ?_⟩
    split at h
    next => cases h
    next condition hcondition =>
      obtain ⟨rfl, -⟩ := Prod.mk.inj (Except.ok.inj h)
      exact ⟨_, ⟨_, _, hcondition⟩, .inl rfl⟩
    next condition question tail hcondition =>
      refine ⟨condition, ⟨_, _, hcondition⟩, ?_⟩
      split at h
      next =>
        split at h
        next => cases h
        next whenTrue _ hwhenTrue =>
          split at h
          next => cases h
          next =>
            obtain ⟨⟨whenFalse, _⟩, hwhenFalse, hend⟩ := map_eq_ok.1 h
            obtain ⟨rfl, -⟩ := Prod.mk.inj hend
            exact .inr ⟨_, _, ⟨_, _, hwhenTrue⟩, ⟨_, _, hwhenFalse⟩, rfl⟩
      next =>
        obtain ⟨rfl, -⟩ := Prod.mk.inj (Except.ok.inj h)
        exact .inl rfl

/-- What a group holds has as much room as the group. -/
theorem primaryOver_eq_ok (h : primaryOver below ts = .ok (e, rest)) :
    (∃ v, e = .literal v) ∨ (∃ p, e = .path p) ∨ Returns (conditionalOver below) e ∨
      (∃ level ∈ below, ∃ es, e = .array es ∧ ∀ x ∈ es, Returns level.conditional x) ∨
      ∃ level ∈ below, ∃ es, e = .object es ∧ ∀ p ∈ es, Returns level.conditional p.2 := by
  unfold primaryOver at h
  split at h
  next => cases h
  next t tail =>
    split at h
    next => exact .inl ⟨_, (Prod.mk.inj (Except.ok.inj h)).1.symm⟩
    next => exact .inl ⟨_, (Prod.mk.inj (Except.ok.inj h)).1.symm⟩
    next => exact .inl ⟨_, (Prod.mk.inj (Except.ok.inj h)).1.symm⟩
    next =>
      rw [word_eq] at h
      split at h
      next => exact .inl ⟨_, (Prod.mk.inj (Except.ok.inj h)).1.symm⟩
      next =>
        obtain ⟨_, -, hend⟩ := map_eq_ok.1 h
        exact .inr (.inl ⟨_, (Prod.mk.inj hend).1.symm⟩)
    next =>
      split at h
      next => cases h
      next inner _ hinner =>
        obtain ⟨_, -, hend⟩ := map_eq_ok.1 h
        obtain ⟨rfl, -⟩ := Prod.mk.inj hend
        exact .inr (.inr (.inl ⟨_, _, hinner⟩))
    next =>
      split at h
      next => cases h
      next level =>
        obtain ⟨_, hitems, hend⟩ := map_eq_ok.1 h
        obtain ⟨rfl, -⟩ := Prod.mk.inj hend
        exact .inr (.inr (.inr (.inl ⟨level, rfl, _, rfl, returns_of_mem_items hitems⟩)))
    next =>
      split at h
      next => cases h
      next level =>
        obtain ⟨_, hfields, hend⟩ := map_eq_ok.1 h
        obtain ⟨rfl, -⟩ := Prod.mk.inj hend
        exact .inr (.inr (.inr (.inr ⟨level, rfl, _, rfl, returns_of_mem_fields hfields⟩)))
    next => cases h

theorem unaryOver_eq_ok (h : unaryOver below ts = .ok (e, rest)) :
    Returns (primaryOver below) e ∨
      ∃ level ∈ below, ∃ op f, e = .unary op f ∧ Returns level.unary f := by
  unfold unaryOver at h
  split at h
  next => exact .inl ⟨_, _, h⟩
  next =>
    split at h
    next => exact .inl ⟨_, _, h⟩
    next op _ =>
      split at h
      next => cases h
      next level =>
        obtain ⟨_, hoperand, hend⟩ := map_eq_ok.1 h
        obtain ⟨rfl, -⟩ := Prod.mk.inj hend
        exact .inr ⟨level, rfl, op, _, rfl, _, _, hoperand⟩

/-- The rest of a chain after an operator has the room that the right operand has. -/
theorem chainOver_eq_ok {tier : Nat} {left : Expr} (h : chainOver below tier left ts = .ok (e, rest)) :
    e = left ∨ ∃ level ∈ below, ∃ op right, Returns (level.binary (op.tier + 1)) right ∧
      Returns (level.chain tier (.binary op left right)) e := by
  unfold chainOver at h
  split at h
  next => exact .inl (Prod.mk.inj (Except.ok.inj h)).1.symm
  next =>
    split at h
    next op _ =>
      split at h
      next => exact .inl (Prod.mk.inj (Except.ok.inj h)).1.symm
      next =>
        split at h
        next => cases h
        next level =>
          split at h
          next => cases h
          next right _ hright => exact .inr ⟨level, rfl, op, right, ⟨_, _, hright⟩, _, _, h⟩
    next => exact .inl (Prod.mk.inj (Except.ok.inj h)).1.symm

/-! ## The bounds -/

/-- What the parsers of a level with so much room return. -/
structure Bounded (room : Nat) (level : Level) : Prop where
  conditional : ∀ {e}, Returns level.conditional e → e.Fits (ceiling room) room
  unary : ∀ {e}, Returns level.unary e → e.Fits (ceiling room) (1 + room)
  binary : ∀ {tier e}, Returns (level.binary tier) e → e.Fits (ceiling room + room) (1 + room)
  chain : ∀ {tier left e h k}, ceiling room ≤ h + 1 → room ≤ k → left.Fits h (1 + k) →
    Returns (level.chain tier left) e → e.Fits (h + room) (1 + k)

variable {room : Nat} (hbelow : ∀ level ∈ below, ∃ deep, room = deep + 1 ∧ level.Bounded deep)
include hbelow

theorem fits_conditional (h : Returns (conditionalOver below) e) : e.Fits (ceiling room) room := by
  obtain ⟨_, _, h⟩ := h
  obtain ⟨level, hlevel, c, hc, hcases⟩ := conditionalOver_eq_ok h
  obtain ⟨deep, rfl, bounded⟩ := hbelow level hlevel
  have condition := bounded.binary hc
  rcases hcases with rfl | ⟨t, f, ht, hf, rfl⟩
  · exact condition.mono (by simp only [ceiling]; omega) (by omega)
  · have whenTrue := (bounded.conditional ht).mono (Nat.le_add_right _ deep) le_rfl
    have whenFalse := (bounded.conditional hf).mono (Nat.le_add_right _ deep) le_rfl
    exact (condition.conditional whenTrue whenFalse).mono (by simp only [ceiling]; omega) (by omega)

theorem fits_primary (h : Returns (primaryOver below) e) : e.Fits (ceiling room) (1 + room) := by
  have one_le : 1 ≤ ceiling room := by rw [ceiling_eq]; omega
  obtain ⟨_, _, h⟩ := h
  rcases primaryOver_eq_ok h with ⟨v, rfl⟩ | ⟨p, rfl⟩ | hgroup | ⟨level, hlevel, es, rfl, each⟩ |
    ⟨level, hlevel, es, rfl, each⟩
  · exact (fits_literal v).mono one_le (Nat.le_add_right _ _)
  · exact (fits_path p).mono one_le (Nat.le_add_right _ _)
  · exact (fits_conditional hbelow hgroup).mono le_rfl (Nat.le_add_left _ _)
  · obtain ⟨deep, rfl, bounded⟩ := hbelow level hlevel
    exact (fits_array fun x hx => bounded.conditional (each x hx)).mono
      (by simp only [ceiling]; omega) (by omega)
  · obtain ⟨deep, rfl, bounded⟩ := hbelow level hlevel
    exact (fits_object fun p hp => bounded.conditional (each p hp)).mono
      (by simp only [ceiling]; omega) (by omega)

theorem fits_unary (h : Returns (unaryOver below) e) : e.Fits (ceiling room) (1 + room) := by
  obtain ⟨_, _, h⟩ := h
  rcases unaryOver_eq_ok h with hprimary | ⟨level, hlevel, op, f, rfl, hf⟩
  · exact fits_primary hbelow hprimary
  · obtain ⟨deep, rfl, bounded⟩ := hbelow level hlevel
    exact ((bounded.unary hf).unary op).mono (by simp only [ceiling]; omega) (by omega)

theorem fits_chain {tier h k : Nat} {left : Expr} (high : ceiling room ≤ h + 1) (wide : room ≤ k)
    (fits : left.Fits h (1 + k)) (hchain : Returns (chainOver below tier left) e) :
    e.Fits (h + room) (1 + k) := by
  obtain ⟨_, _, hchain⟩ := hchain
  rcases chainOver_eq_ok hchain with rfl | ⟨level, hlevel, op, right, hright, hrest⟩
  · exact fits.mono (Nat.le_add_right _ _) le_rfl
  · obtain ⟨deep, rfl, bounded⟩ := hbelow level hlevel
    simp only [ceiling] at high
    have operand : right.Fits h k := (bounded.binary hright).mono (by omega) (by omega)
    exact (bounded.chain (by omega) (by omega) (fits.binary op operand) hrest).mono (by omega) le_rfl

theorem bounded_above : (above below).Bounded room where
  conditional := fits_conditional hbelow
  unary := fits_unary hbelow
  binary {tier e} h := by
    obtain ⟨ts, rest, h⟩ := h
    change binaryOver below tier ts = _ at h
    unfold binaryOver at h
    split at h
    next => cases h
    next left tail hleft =>
      exact fits_chain hbelow (Nat.le_succ _) le_rfl (fits_unary hbelow ⟨_, _, hleft⟩) ⟨_, _, h⟩
  chain := fits_chain hbelow

omit hbelow in
theorem bounded_withRoom (room : Nat) : (withRoom room).Bounded room := by
  induction room with
  | zero => exact bounded_above nofun
  | succ room ih => exact bounded_above fun level hlevel => ⟨room, rfl, Option.some.inj hlevel ▸ ih⟩

end Level

end Parts

theorem returns_of_parse {source : String} {e : Expr} (h : parse source = .ok e) :
    Returns (Level.withRoom maxHeight).conditional e := by
  unfold parse at h
  split at h
  next => cases h
  next ts _ =>
    split at h
    next => cases h
    next =>
      unfold ofLexemes at h
      split at h
      next => cases h
      next hconditional => exact Except.ok.inj h ▸ ⟨_, _, hconditional⟩
      next => cases h

/-! ## The highest tree -/

/-- The token of the number one. -/
def IsOne (t : Lexeme) : Prop := t.token = .number ∧ t.text = "1"

def one : Expr := .literal (.number (numberContent "1"))

/-- Adding one to a tree, again and again. -/
def sums : Nat → Expr → Expr
  | 0, e => e
  | n + 1, e => sums n (.binary .add e one)

/-- The highest tree with so much room: each slope begins with the next lower one. -/
def slope : Nat → Expr
  | 0 => one
  | 1 => .unary .negate one
  | room + 2 => .conditional (sums (room + 1) (slope (room + 1))) one one

theorem one_le_height (e : Expr) : 1 ≤ e.height := by
  cases e <;> simp only [height] <;> omega

theorem height_sums (n : Nat) (e : Expr) : (sums n e).height = e.height + n := by
  induction n generalizing e with
  | zero => rfl
  | succ n ih =>
    have := one_le_height e
    have leaf : one.height = 1 := rfl
    rw [sums, ih, height, leaf]
    omega

theorem height_slope (room : Nat) : (slope room).height = ceiling room := by
  induction room using slope.induct with
  | case1 | case2 => rfl
  | case3 room ih =>
    have := one_le_height (slope (room + 1))
    have leaf : one.height = 1 := rfl
    have step : ceiling (room + 2) = ceiling (room + 1) + (room + 2) := rfl
    rw [slope, height, height_sums, ih, leaf, step]
    omega

section Tokens

open Level

variable {t u : Lexeme} {us rest : List Lexeme} {e : Expr} {room : Nat}

theorem unary_one (h : IsOne t) (rest : List Lexeme) (room : Nat) :
    (withRoom room).unary (t :: rest) = .ok (one, rest) := by
  rw [withRoom_eq]
  change unaryOver (below room) (t :: rest) = _
  simp only [unaryOver, prefixOf, primaryOver, h.1, h.2, one]

theorem unary_negated (isMinus : t.token = .operator .subtract)
    (h : (withRoom room).unary us = .ok (e, rest)) :
    (withRoom (room + 1)).unary (t :: us) = .ok (.unary .negate e, rest) := by
  change unaryOver (some (withRoom room)) (t :: us) = _
  simp only [unaryOver, isMinus, prefixOf, h]
  rfl

/-- A chain begins with an operand of the same room. -/
theorem binary_of_unary {tier : Nat} (h : (withRoom room).unary us = .ok (e, rest)) :
    (withRoom room).binary tier us = (withRoom room).chain tier e rest := by
  rw [withRoom_eq] at h ⊢
  change binaryOver (below room) tier us = _
  rw [binaryOver, show unaryOver (below room) us = _ from h]
  rfl

theorem binary_one (h : IsOne t) {tier : Nat} (stops : Stops tier rest) (room : Nat) :
    (withRoom room).binary tier (t :: rest) = .ok (one, rest) := by
  rw [binary_of_unary (unary_one h rest room), chain_stops stops]

theorem conditional_one (h : IsOne t) (ended : Ended rest) (room : Nat) :
    (withRoom (room + 1)).conditional (t :: rest) = .ok (one, rest) := by
  change conditionalOver (some (withRoom room)) (t :: rest) = _
  rw [conditionalOver, binary_one h (ended.stops 1)]
  cases rest with
  | nil => rfl
  | cons u rest =>
    have hmem := ended u rfl
    exact if_neg fun htoken => by simp [htoken] at hmem

/-- The tokens that add one so many times. -/
inductive Sums : Nat → List Lexeme → Prop where
  | nil : Sums 0 []
  | cons {n : Nat} {t u : Lexeme} {us : List Lexeme} (isAdd : t.token = .operator .add) (isOne : IsOne u)
      (rest : Sums n us) : Sums (n + 1) (t :: u :: us)

theorem chain_sums {n : Nat} (h : Sums n us) (stops : Stops 5 rest) (room : Nat) (e : Expr) :
    (withRoom (room + n)).chain 1 e (us ++ rest) = (withRoom room).chain 1 (sums n e) rest := by
  induction h generalizing e with
  | nil => rfl
  | @cons n t u us isAdd isOne hus ih =>
    have tight : Stops 5 (us ++ rest) := by
      cases hus with
      | nil => exact stops
      | cons isAdd' => exact (stops_operator isAdd' _)
    change chainOver (some (withRoom (room + n))) 1 e (t :: u :: (us ++ rest)) = _
    simp only [chainOver, isAdd, BinaryOperator.tier, binary_one isOne tight]
    exact ih _

/-- Tokens that parse to the slope, as an operand with so much room. -/
def Climbs (room : Nat) (us : List Lexeme) : Prop :=
  ∀ rest, (withRoom room).unary (us ++ rest) = .ok (slope room, rest)

/-- Tokens that parse to the slope, as a whole expression. -/
def Crests (room : Nat) (us : List Lexeme) : Prop :=
  ∀ rest, Ended rest → (withRoom room).conditional (us ++ rest) = .ok (slope room, rest)

theorem binary_climbs (room : Nat) {n : Nat} {fs : List Lexeme} {foot : Expr}
    (climbs : ∀ rest, (withRoom (room + n)).unary (fs ++ rest) = .ok (foot, rest)) (h : Sums n us)
    (stops : Stops 1 rest) :
    (withRoom (room + n)).binary 1 (fs ++ (us ++ rest)) = .ok (sums n foot, rest) := by
  rw [binary_of_unary (climbs (us ++ rest)), chain_sums h (stops.mono (by decide)),
    chain_stops stops]

theorem Climbs.crests {fs : List Lexeme} (climbs : Climbs (room + 1) fs) (h : Sums (room + 1) us)
    {question first colon second : Lexeme} (asks : question.token = .question) (isFirst : IsOne first)
    (separates : colon.token = .colon) (isSecond : IsOne second) :
    Crests (room + 2) (fs ++ (us ++ [question, first, colon, second])) := by
  intro rest ended
  have stops : Stops 1 (question :: first :: colon :: second :: rest) := by
    rintro _ ⟨⟩ op hop
    simp [asks] at hop
  have condition := binary_climbs 0 (fun rest => (Nat.zero_add (room + 1)).symm ▸ climbs rest) h stops
  have hassoc : fs ++ (us ++ [question, first, colon, second]) ++ rest =
      fs ++ (us ++ question :: first :: colon :: second :: rest) := by simp
  have hcolon : Ended (colon :: second :: rest) := ended_cons _ (by simp [separates])
  rw [Nat.zero_add] at condition
  change conditionalOver (some (withRoom (room + 1))) _ = _
  rw [hassoc, conditionalOver, condition]
  simp only [asks, if_true, conditional_one isFirst hcolon, expect_of_eq .colon separates,
    conditional_one isSecond ended]
  rfl

theorem Crests.climbs (h : Crests (room + 2) us) (opens : t.token = .openParenthesis)
    (closes : u.token = .closeParenthesis) : Climbs (room + 2) (t :: (us ++ [u])) := by
  intro rest
  have hassoc : t :: (us ++ [u]) ++ rest = t :: (us ++ u :: rest) := by simp
  have inner : conditionalOver (below (room + 2)) (us ++ u :: rest) = .ok (slope (room + 2), u :: rest) :=
    h (u :: rest) (ended_cons _ (by simp [closes]))
  rw [withRoom_eq, hassoc]
  change unaryOver (below (room + 2)) (t :: (us ++ u :: rest)) = _
  simp only [unaryOver, opens, prefixOf, primaryOver, inner, expect_of_eq .closingParenthesis closes]
  rfl

end Tokens

/-! ### Its text -/

open Token (Cuts Closes Is)

def sumsText : Nat → List Char
  | 0 => []
  | n + 1 => " + 1".toList ++ sumsText n

/-- The text of a slope without its parentheses, from the text of the next lower one. -/
def crestText (foot : List Char) (n : Nat) : List Char :=
  foot ++ (sumsText n ++ " ? 1 : 1".toList)

def slopeText : Nat → List Char
  | 0 => ['1']
  | 1 => ['-', '1']
  | room + 2 => "(".toList ++ (crestText (slopeText (room + 1)) (room + 1) ++ ")".toList)

theorem spells_one : Token.Spells "1".toList fun us => ∃ t, us = [t] ∧ IsOne t := by
  intro rest P closes h
  refine (h.number (show Is .number "1" by decide) closes).imp ?_
  rintro _ ⟨t, us, rfl, htoken, htext, hP⟩
  exact ⟨[t], us, rfl, ⟨t, rfl, htoken, htext⟩, hP⟩

theorem closes_sumsText (n : Nat) {rest : List Char} (closes : Closes rest) :
    Closes (sumsText n ++ rest) := by
  cases n with
  | zero => exact closes
  | succ => exact Token.closes_cons (by decide) _

theorem spells_sums (n : Nat) : Token.Spells (sumsText n) (Sums n) := by
  induction n with
  | zero => exact fun rest P _ h => h.imp fun ts hts => ⟨[], ts, rfl, .nil, hts⟩
  | succ n ih =>
    intro rest P closes h
    have hone := (spells_one (closes_sumsText n closes) (ih closes h)).gap (c := ' ') rfl
    refine ((hone.alone "+" (.operator .add) (by decide)).gap (c := ' ') rfl).imp ?_
    rintro _ ⟨t, _, rfl, isAdd, -, _, _, rfl, ⟨u, rfl, isOne⟩, us, vs, rfl, hus, hP⟩
    exact ⟨t :: u :: us, vs, rfl, .cons isAdd isOne hus, hP⟩

theorem spells_crest {room : Nat} (foot : Token.Spells (slopeText (room + 1)) (Climbs (room + 1))) :
    Token.Spells (crestText (slopeText (room + 1)) (room + 1)) (Crests (room + 2)) := by
  intro rest P closes h
  have hsecond := (spells_one closes h).gap (c := ' ') rfl
  have hcolon := (hsecond.alone ":" .colon (by decide)).gap (c := ' ') rfl
  have hfirst := (spells_one (Token.closes_cons (by decide) _) hcolon).gap (c := ' ') rfl
  have hquestion := (hfirst.alone "?" .question (by decide)).gap (c := ' ') rfl
  have hclosed := Token.closes_cons (c := ' ') (by decide) (" ? 1 : 1".toList.tail ++ rest)
  have hsums := spells_sums (room + 1) hclosed hquestion
  have hfoot := foot (closes_sumsText (room + 1) hclosed) hsums
  rw [crestText, List.append_assoc, List.append_assoc]
  refine hfoot.imp ?_
  rintro _ ⟨fs, _, rfl, hfs, us, _, rfl, hus, t, _, rfl, ht, -, _, _, rfl, ⟨u, rfl, hu⟩,
    v, _, rfl, hv, -, _, vs, rfl, ⟨w, rfl, hw⟩, hP⟩
  exact ⟨fs ++ (us ++ [t, u, v, w]), vs, by simp, hfs.crests hus ht hu hv hw, hP⟩

theorem spells_slope (room : Nat) : Token.Spells (slopeText room) (Climbs room) := by
  induction room using slopeText.induct with
  | case1 =>
    refine fun rest P closes h => (spells_one closes h).imp ?_
    rintro _ ⟨_, vs, rfl, ⟨t, rfl, isOne⟩, hP⟩
    exact ⟨[t], vs, rfl, fun rest => unary_one isOne rest 0, hP⟩
  | case2 =>
    refine fun rest P closes h =>
      ((spells_one closes h).alone "-" (.operator .subtract) (by decide)).imp ?_
    rintro _ ⟨t, _, rfl, isMinus, -, _, vs, rfl, ⟨u, rfl, isOne⟩, hP⟩
    exact ⟨[t, u], vs, rfl, fun rest => unary_negated isMinus (unary_one isOne rest 0), hP⟩
  | case3 room ih =>
    intro rest P _ h
    have hclose := h.alone ")" .closeParenthesis (by decide)
    have hcrest := spells_crest ih (Token.closes_cons (by decide) _) hclose
    rw [slopeText, List.append_assoc, List.append_assoc]
    refine (hcrest.alone "(" .openParenthesis (by decide)).imp ?_
    rintro _ ⟨t, _, rfl, opens, -, us, _, rfl, hus, u, vs, rfl, closes, -, hP⟩
    exact ⟨t :: (us ++ [u]), vs, by simp, hus.climbs opens closes, hP⟩

/-- The source of the highest tree. -/
def crestSource : String := String.ofList (crestText (slopeText 255) 255)

theorem parse_of_conditional {source : String} {ts : List Lexeme} {e : Expr}
    (tokenized : Token.tokenize source = .ok ts)
    (h : (Level.withRoom maxHeight).conditional ts = .ok (e, [])) : parse source = .ok e := by
  have accepted : ofLexemes ts = .ok e := by rw [ofLexemes, h]
  obtain ⟨t, rest, rfl, -⟩ := (derives_of_ofLexemes accepted).begins
    ⟨by rintro ⟨⟩, by rintro ⟨⟩⟩
  rw [parse, tokenized]
  simp only [List.isEmpty_cons, Bool.false_eq_true, if_false, accepted, Except.mapError]

theorem parse_crestSource : parse crestSource = .ok (slope maxHeight) := by
  have spells : Token.Spells crestSource.toList (Crests maxHeight) := by
    rw [crestSource, String.toList_ofList]
    exact spells_crest (spells_slope 255)
  obtain ⟨ts, tokenized, hts⟩ := spells.tokenize
  have hconditional := hts [] ended_nil
  rw [List.append_nil] at hconditional
  exact parse_of_conditional tokenized hconditional

/-- The number of levels bounds the rank of every tree that is parsed, so its height too if no first part
is higher than the parts behind it. In general the height is bounded by a sum, and the sum is met. -/
theorem height_of_parsed {source : String} {e : Expr} (h : parse source = .ok e) :
    e.rank ≤ maxHeight ∧ (e.Rising → e.height ≤ maxHeight) ∧
    e.height ≤ 1 + maxHeight * (maxHeight + 1) / 2 ∧
    ∃ source' e', parse source' = .ok e' ∧ e'.height = 1 + maxHeight * (maxHeight + 1) / 2 := by
  have fits := (Level.bounded_withRoom maxHeight).conditional (returns_of_parse h)
  refine ⟨fits.rank_le, fun rising => ?_, ceiling_eq maxHeight ▸ fits.height_le, _, _,
    parse_crestSource, (height_slope maxHeight).trans (ceiling_eq maxHeight)⟩
  rw [← rising.rank_eq]
  exact fits.rank_le

theorem height_mixed : parse mixedSource = .ok mixed ∧ mixed.rank ≤ maxHeight ∧
    mixed.height ≤ 1 + maxHeight * (maxHeight + 1) / 2 :=
  have bounds := height_of_parsed parse_mixedSource
  ⟨parse_mixedSource, bounds.1, bounds.2.2.1⟩

/-! ### Where the height exceeds the number of levels -/

def negations : Nat → Expr → Expr
  | 0, e => e
  | n + 1, e => .unary .negate (negations n e)

theorem height_negations (n : Nat) (e : Expr) : (negations n e).height = n + e.height := by
  induction n with
  | zero => simp [negations]
  | succ n ih =>
    rw [negations, height, ih]
    omega

/-- Signs in front of a number, with so much room. -/
theorem spells_negations (n : Nat) : Token.Spells (List.replicate n '-' ++ "1".toList) fun us =>
    ∀ rest, (Level.withRoom n).unary (us ++ rest) = .ok (negations n one, rest) := by
  induction n with
  | zero =>
    refine fun rest P closes h => (spells_one closes h).imp ?_
    rintro _ ⟨_, vs, rfl, ⟨t, rfl, isOne⟩, hP⟩
    exact ⟨[t], vs, rfl, fun rest => unary_one isOne rest 0, hP⟩
  | succ n ih =>
    refine fun rest P closes h => ((ih closes h).alone "-" (.operator .subtract) (by decide)).imp ?_
    rintro _ ⟨t, _, rfl, isMinus, -, us, vs, rfl, hus, hP⟩
    exact ⟨t :: us, vs, rfl, fun rest => unary_negated isMinus (hus rest), hP⟩

/-- A sum has its first operand where it is itself, with room for as many signs as alone. -/
theorem spells_negatedSum (n : Nat) :
    Token.Spells (List.replicate (n + 1) '-' ++ "1".toList ++ sumsText 1) fun us =>
      (Level.withRoom (n + 2)).conditional us = .ok (sums 1 (negations (n + 1) one), []) := by
  intro rest P closes h
  have hsums := spells_sums 1 closes h
  rw [List.append_assoc]
  refine (spells_negations (n + 1) (closes_sumsText 1 closes) hsums).imp ?_
  rintro _ ⟨fs, _, rfl, hfs, us, vs, rfl, hus, hP⟩
  refine ⟨fs ++ us, vs, by simp, ?_, hP⟩
  have ends : Stops 1 [] := nofun
  have hbinary := binary_climbs n hfs hus ends
  rw [List.append_nil] at hbinary
  change Level.conditionalOver (some (Level.withRoom (n + 1))) _ = _
  rw [Level.conditionalOver, hbinary]

/-- As many signs as there are levels for, in front of a sum. -/
def negatedSum : String :=
  String.ofList (List.replicate 255 '-' ++ "1 + 1".toList)

theorem parse_negatedSum : ∃ e, parse negatedSum = .ok e ∧ ¬ e.height ≤ maxHeight := by
  have sum : "1".toList ++ sumsText 1 = "1 + 1".toList := rfl
  have spells := spells_negatedSum 254
  rw [List.append_assoc, sum, ← String.toList_ofList (l := List.replicate _ _ ++ _)] at spells
  obtain ⟨ts, tokenized, hconditional⟩ := spells.tokenize
  refine ⟨_, parse_of_conditional tokenized hconditional, ?_⟩
  rw [height_sums, height_negations]
  decide

end LiveTemplate.Expr
