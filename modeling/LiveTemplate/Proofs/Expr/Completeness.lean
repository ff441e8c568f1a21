import LiveTemplate.Proofs.Expr.Soundness

/-!
# What derives is accepted

Given enough room, the parser reads every phrase and returns its tree; with less room it may refuse
the phrase as nested too deeply, and that only (`Derives.read`). Reading a chain of operators ends one
level further down for each operator, with the chain as the left operand of what follows.

So the parser decides the grammar up to the depth of nesting, and since it returns one tree, a list of
tokens has one tree at most (`parse_decides_grammar`).
-/
namespace LiveTemplate.Expr

/-- The result, or a refusal of the nesting, which enough room prevents. -/
def Reaches {α : Type} (enough room : Nat) (result : Except Failure α) (a : α) : Prop :=
  result = .ok a ∨ room < enough ∧ ∃ place, result = .error (.tooDeep place)

theorem Reaches.mono {α : Type} {enough enough' room : Nat} {result : Except Failure α} {a : α}
    (h : Reaches enough room result a) (le : enough ≤ enough') : Reaches enough' room result a :=
  h.imp_right fun h => ⟨by omega, h.2⟩

/-- One level further up there is more room by one. -/
theorem Reaches.deeper {α : Type} {enough room : Nat} {result : Except Failure α} {a : α}
    (h : Reaches enough room result a) : Reaches (enough + 1) (room + 1) result a :=
  h.imp_right fun h => ⟨Nat.succ_lt_succ h.1, h.2⟩

theorem Reaches.map {α β : Type} {enough room : Nat} {result : Except Failure α} {a : α}
    (h : Reaches enough room result a) (f : α → β) : Reaches enough room (result.map f) (f a) := by
  rcases h with h | ⟨hroom, place, h⟩
  · exact .inl (by rw [h]; rfl)
  · exact .inr ⟨hroom, place, by rw [h]; rfl⟩

/-! ## What follows a phrase -/

/-- The tokens do not go on with a suffix of a path. -/
def Bare (ts : List Lexeme) : Prop :=
  ∀ t ∈ ts.head?, t.token ≠ .dot ∧ t.token ≠ .openBracket

/-- The tokens go on with nothing that belongs to an expression. -/
def Ended (ts : List Lexeme) : Prop :=
  ∀ t ∈ ts.head?, t.token ∈ [Token.colon, .comma, .closeParenthesis, .closeBracket, .closeBrace]

theorem ended_nil : Ended [] := nofun

theorem ended_cons {t : Lexeme} (ts : List Lexeme)
    (h : t.token ∈ [Token.colon, .comma, .closeParenthesis, .closeBracket, .closeBrace]) :
    Ended (t :: ts) := by
  rintro _ ⟨⟩
  exact h

theorem Ended.bare {ts : List Lexeme} (h : Ended ts) : Bare ts := fun t ht => by
  have hmem := h t ht
  constructor <;> intro htoken <;> simp [htoken] at hmem

theorem Ended.stops {ts : List Lexeme} (h : Ended ts) (tier : Nat) : Stops tier ts :=
  fun t ht op hop => by simpa [hop] using h t ht

theorem Stops.mono {tier tier' : Nat} {ts : List Lexeme} (h : Stops tier ts) (le : tier ≤ tier') :
    Stops tier' ts :=
  fun t ht op hop => Nat.lt_of_lt_of_le (h t ht op hop) le

theorem bare_cons {t : Lexeme} (ts : List Lexeme) (h : t.token ≠ .dot ∧ t.token ≠ .openBracket) :
    Bare (t :: ts) := by
  rintro _ ⟨⟩
  exact h

theorem stops_operator {t : Lexeme} {op : BinaryOperator} (h : t.token = .operator op)
    (ts : List Lexeme) : Stops (op.tier + 1) (t :: ts) := by
  rintro _ ⟨⟩ op' hop'
  obtain rfl := Token.operator.inj (h.symm.trans hop')
  exact Nat.lt_succ_self _

theorem Begins.not_closes {t : Lexeme} (h : Begins t) :
    t.token ≠ .closeBracket ∧ t.token ≠ .closeBrace := by
  constructor <;> intro htoken <;>
    simp [Begins, IsQuoted, htoken, Level.prefixOf] at h

/-! ## Pieces -/

theorem expect_of_ne {token : Token} {wanted : Expectation} {t : Lexeme} (h : t.token ≠ token)
    (ts : List Lexeme) : expect token wanted (t :: ts) = .error (.unexpected wanted t) :=
  if_neg h

theorem expect_of_eq {token : Token} (wanted : Expectation) {t : Lexeme} (h : t.token = token)
    (ts : List Lexeme) : expect token wanted (t :: ts) = .ok (t, ts) :=
  if_pos h

theorem segmentOf_number {t : Lexeme} {i : Nat} (h : t.token = .number)
    (whole : readIndex t.text.toList = some i) : segmentOf t = .ok (.index i) := by
  simp only [segmentOf, h, whole]

theorem segmentOf_quoted {t : Lexeme} (h : IsQuoted t) :
    segmentOf t = .ok (.key (quotedContent t.text)) := by
  rcases h with h | h <;> simp only [segmentOf, h]

theorem keyOf_of_fieldKey {t : Lexeme} {key : String} (h : FieldKey t key) : keyOf t = .ok key := by
  cases h with
  | plain isPlain => rcases isPlain with h | h <;> simp only [keyOf, h]
  | quoted isQuoted => rcases isQuoted with h | h <;> simp only [keyOf, h]

theorem members_of_suffixes {us rest : List Lexeme} {p : Path} (h : Suffixes us p) (bare : Bare rest)
    (path : Path) : members path (us ++ rest) = .ok (path ++ p, rest) := by
  induction h generalizing path with
  | nil =>
    rw [List.nil_append, List.append_nil]
    cases rest with
    | nil => rw [members]
    | cons t ts =>
      obtain ⟨hdot, hbracket⟩ := bare t rfl
      unfold members
      split
      next h => exact absurd h hdot
      next h => exact absurd h hbracket
      next => rfl
  | member isDot isName _ ih => simp [members, isDot, isName, ih]
  | index opens isNumber whole closes _ ih =>
    simp [members, opens, segmentOf_number isNumber whole, closes, ih]
  | key opens isQuoted closes _ ih =>
    simp [members, opens, segmentOf_quoted isQuoted, closes, ih]

namespace Level

/-- The level below the one with so much room. -/
def below : Nat → Option Level
  | 0 => none
  | room + 1 => some (withRoom room)

theorem withRoom_eq (room : Nat) : withRoom room = above (below room) := by
  cases room <;> rfl

theorem chain_stops {tier : Nat} {ts : List Lexeme} (stops : Stops tier ts) (room : Nat) (e : Expr) :
    (withRoom room).chain tier e ts = .ok (e, ts) := by
  rw [withRoom_eq]
  change chainOver (below room) tier e ts = _
  unfold chainOver
  split
  next => rfl
  next t ts =>
    split
    next op hop => exact if_pos (stops t rfl op hop)
    next => rfl

end Level

open Level

/-! ## Reading phrases -/

/-- What reading a phrase does, in front of tokens that do not belong to it. -/
def Read : Phrase → List Lexeme → Expr → Prop
  | .conditional, us, e => ∃ enough, ∀ room rest, Ended rest →
      Reaches enough room ((withRoom room).conditional (us ++ rest)) (e, rest)
  | .binary m, us, e => ∃ enough used, ∀ room tier rest, tier ≤ m → Bare rest → Stops (m + 1) rest →
      (used ≤ room ∧
        (withRoom room).binary tier (us ++ rest) = (withRoom (room - used)).chain tier e rest) ∨
      room < enough ∧ ∃ place, (withRoom room).binary tier (us ++ rest) = .error (.tooDeep place)
  | .unary, us, e => ∃ enough, ∀ room rest, Bare rest →
      Reaches enough room ((withRoom room).unary (us ++ rest)) (e, rest)
  | .primary, us, e => ∃ enough, ∀ room rest, Bare rest →
      Reaches enough room (primaryOver (below room) (us ++ rest)) (e, rest)
  | .items, us, e => ∃ es, e = .array es ∧ ∃ enough, ∀ room bound closing rest,
      closing.token = .closeBracket → us.length < bound →
        Reaches enough room (items (withRoom room).conditional bound (us ++ closing :: rest)) (es, rest)
  | .fields, us, e => ∃ es, e = .object es ∧ ∃ enough, ∀ room bound closing rest,
      closing.token = .closeBrace → us.length < bound →
        Reaches enough room (fields (withRoom room).conditional bound (us ++ closing :: rest)) (es, rest)

variable {us vs ws : List Lexeme} {e f g : Expr} {t u : Lexeme}

/-- A chain in front of what cannot continue it. -/
theorem Read.binary_stops {m : Nat} (h : Read (.binary m) us e) : ∃ enough, ∀ room tier rest,
    tier ≤ m → Bare rest → Stops tier rest →
      Reaches enough room ((withRoom room).binary tier (us ++ rest)) (e, rest) := by
  obtain ⟨enough, used, hread⟩ := h
  refine ⟨enough, fun room tier rest htier bare stops => ?_⟩
  refine (hread room tier rest htier bare (stops.mono (by omega))).imp_left fun ⟨_, h⟩ => ?_
  rw [h, chain_stops stops]

theorem read_operation (h : Read (.binary 1) us e) : Read .conditional us e := by
  obtain ⟨enough, hread⟩ := h.binary_stops
  refine ⟨enough + 1, fun room rest ended => ?_⟩
  cases room with
  | zero => exact .inr ⟨Nat.succ_pos _, _, rfl⟩
  | succ room =>
    change Reaches _ _ (conditionalOver (some (withRoom room)) _) _
    rcases hread room 1 rest (Nat.le_refl _) ended.bare (ended.stops 1) with h | ⟨hroom, place, h⟩
    · refine .inl ?_
      rw [conditionalOver, h]
      cases rest with
      | nil => rfl
      | cons t rest =>
        have hmem := ended t rfl
        exact if_neg fun htoken => by simp [htoken] at hmem
    · exact .inr ⟨by omega, place, by rw [conditionalOver, h]⟩

theorem read_conditional (condition : Read (.binary 1) us e) (asks : t.token = .question)
    (whenTrue : Read .conditional vs f) (separates : u.token = .colon)
    (whenFalse : Read .conditional ws g) :
    Read .conditional (us ++ t :: (vs ++ u :: ws)) (.conditional e f g) := by
  obtain ⟨n₁, hcondition⟩ := condition.binary_stops
  obtain ⟨n₂, hthen⟩ := whenTrue
  obtain ⟨n₃, helse⟩ := whenFalse
  refine ⟨max n₁ (max n₂ n₃) + 1, fun room rest ended => ?_⟩
  cases room with
  | zero => exact .inr ⟨Nat.succ_pos _, _, rfl⟩
  | succ room =>
    change Reaches _ _ (conditionalOver (some (withRoom room)) _) _
    have hassoc : us ++ t :: (vs ++ u :: ws) ++ rest = us ++ t :: (vs ++ u :: (ws ++ rest)) := by simp
    have hstops : Stops 1 (t :: (vs ++ u :: (ws ++ rest))) := by
      rintro _ ⟨⟩ op hop
      simp [asks] at hop
    rw [hassoc, conditionalOver]
    rcases hcondition room 1 _ (Nat.le_refl _) (bare_cons _ (by simp [asks])) hstops with
      h | ⟨hroom, place, h⟩
    · rw [h]
      simp only [asks, if_true]
      rcases hthen room (u :: (ws ++ rest)) (ended_cons _ (by simp [separates])) with
        h | ⟨hroom, place, h⟩
      · rw [h]
        simp only [expect_of_eq .colon separates]
        exact ((helse room rest ended).mono (by omega)).deeper.map _
      · exact .inr ⟨by omega, place, by rw [h]⟩
    · exact .inr ⟨by omega, place, by rw [h]⟩

theorem read_binary {op : BinaryOperator} (left : Read (.binary op.tier) us e)
    (isOperator : t.token = .operator op) (right : Read (.binary (op.tier + 1)) vs f) :
    Read (.binary op.tier) (us ++ t :: vs) (.binary op e f) := by
  obtain ⟨n₁, used, hleft⟩ := left
  obtain ⟨n₂, hright⟩ := right.binary_stops
  refine ⟨max n₁ (used + 1 + n₂), used + 1, fun room tier rest htier bare stops => ?_⟩
  have hassoc : us ++ t :: vs ++ rest = us ++ t :: (vs ++ rest) := by simp
  rw [hassoc]
  rcases hleft room tier _ htier (bare_cons _ (by simp [isOperator]))
    (stops_operator isOperator _) with ⟨hused, h⟩ | ⟨hroom, h⟩
  · rw [h, withRoom_eq (room - used)]
    change (_ ∧ chainOver _ tier e (t :: (vs ++ rest)) = _) ∨
      _ ∧ ∃ place, chainOver _ tier e (t :: (vs ++ rest)) = _
    simp only [chainOver, isOperator, if_neg (Nat.not_lt.2 htier)]
    rcases hdeep : room - used with _ | deep
    · exact .inr ⟨by omega, _, rfl⟩
    · have hend : room - (used + 1) = deep := by omega
      simp only [below]
      rcases hright deep (op.tier + 1) rest (Nat.le_refl _) bare stops with h | ⟨hroom, place, h⟩
      · exact .inl ⟨by omega, by rw [h, hend]⟩
      · exact .inr ⟨by omega, place, by rw [h]⟩
  · exact .inr ⟨by omega, h⟩

theorem read_tighter {m : Nat} (h : Read (.binary (m + 1)) us e) : Read (.binary m) us e := by
  obtain ⟨enough, used, hread⟩ := h
  exact ⟨enough, used, fun room tier rest htier bare stops =>
    hread room tier rest (by omega) bare (stops.mono (by omega))⟩

theorem read_operand (h : Read .unary us e) : Read (.binary 7) us e := by
  obtain ⟨enough, hread⟩ := h
  refine ⟨enough, 0, fun room tier rest _ bare _ => ?_⟩
  have hunary := hread room rest bare
  rw [withRoom_eq] at hunary ⊢
  change Reaches _ _ (unaryOver (below room) (us ++ rest)) _ at hunary
  change (_ ∧ binaryOver (below room) tier (us ++ rest) = _) ∨
    _ ∧ ∃ place, binaryOver (below room) tier (us ++ rest) = _
  unfold binaryOver
  rcases hunary with h | ⟨hroom, place, h⟩
  · refine .inl ⟨Nat.zero_le _, ?_⟩
    rw [h, Nat.sub_zero, withRoom_eq]
    rfl
  · exact .inr ⟨hroom, place, by rw [h]⟩

theorem read_unary {op : UnaryOperator} (isOperator : prefixOf t.token = some op)
    (operand : Read .unary us e) : Read .unary (t :: us) (.unary op e) := by
  obtain ⟨enough, hread⟩ := operand
  refine ⟨enough + 1, fun room rest bare => ?_⟩
  rw [withRoom_eq]
  change Reaches _ _ (unaryOver (below room) (t :: (us ++ rest))) _
  simp only [unaryOver, isOperator]
  cases room with
  | zero => exact .inr ⟨Nat.succ_pos _, _, rfl⟩
  | succ room => exact (hread room rest bare).deeper.map _

/-- No primary begins with a prefix operator. -/
theorem Derives.not_prefix (h : Derives .primary us e) : ∃ t ts, us = t :: ts ∧
    prefixOf t.token = none := by
  cases h with
  | number h | keyword h | path h => exact ⟨_, _, rfl, by simp [prefixOf, h]⟩
  | text h => exact ⟨_, _, rfl, by rcases h with h | h <;> simp [prefixOf, h]⟩
  | group h | array h | object h => exact ⟨_, _, rfl, by simp [prefixOf, h]⟩

theorem read_primary (derives : Derives .primary us e) (h : Read .primary us e) :
    Read .unary us e := by
  obtain ⟨t, ts, rfl, hprefix⟩ := derives.not_prefix
  obtain ⟨enough, hread⟩ := h
  refine ⟨enough, fun room rest bare => ?_⟩
  rw [withRoom_eq]
  change Reaches _ _ (unaryOver (below room) (t :: (ts ++ rest))) _
  simp only [unaryOver, hprefix]
  exact hread room rest bare

theorem read_group (opens : t.token = .openParenthesis) (inner : Read .conditional us e)
    (closes : u.token = .closeParenthesis) : Read .primary (t :: (us ++ [u])) e := by
  obtain ⟨enough, hread⟩ := inner
  refine ⟨enough, fun room rest _ => ?_⟩
  have hassoc : t :: (us ++ [u]) ++ rest = t :: (us ++ u :: rest) := by simp
  have hinner := hread room (u :: rest) (ended_cons _ (by simp [closes]))
  rw [withRoom_eq] at hinner
  change Reaches _ _ (conditionalOver (below room) (us ++ u :: rest)) _ at hinner
  rw [hassoc]
  simp only [primaryOver, opens]
  rcases hinner with h | ⟨hroom, place, h⟩
  · refine .inl ?_
    rw [h]
    simp only [expect_of_eq .closingParenthesis closes]
    rfl
  · exact .inr ⟨hroom, place, by rw [h]⟩

/-- A list in its brackets goes one level down. -/
theorem read_enclosed {α : Type} (list : Level → Nat → Parser (List α)) (wrap : List α → Expr)
    (refused : ∀ rest, primaryOver none (t :: rest) = .error (.tooDeep rest.head?))
    (opens : ∀ level rest, primaryOver (some level) (t :: rest) =
      (list level (rest.length + 1) rest).map fun (as, rest) => (wrap as, rest))
    {closing : Token} {as : List α} {enough : Nat}
    (inner : ∀ room bound (u : Lexeme) rest, u.token = closing → us.length < bound →
      Reaches enough room (list (withRoom room) bound (us ++ u :: rest)) (as, rest))
    (closes : u.token = closing) : Read .primary (t :: (us ++ [u])) (wrap as) := by
  refine ⟨enough + 1, fun room rest _ => ?_⟩
  have hassoc : t :: (us ++ [u]) ++ rest = t :: (us ++ u :: rest) := by simp
  rw [hassoc]
  cases room with
  | zero => exact .inr ⟨Nat.succ_pos _, _, refused _⟩
  | succ room =>
    have bound : us.length < (us ++ u :: rest).length + 1 := by rw [List.length_append]; omega
    change Reaches _ _ (primaryOver (some (withRoom room)) _) _
    rw [opens]
    exact (inner room _ u rest closes bound).deeper.map _

theorem read_array {es : List Expr} (opens : t.token = .openBracket) (inner : Read .items us (.array es))
    (closes : u.token = .closeBracket) : Read .primary (t :: (us ++ [u])) (.array es) := by
  obtain ⟨_, hes, enough, hread⟩ := inner
  obtain rfl := Expr.array.inj hes
  exact read_enclosed (fun level => items level.conditional) .array
    (fun rest => by simp only [primaryOver, opens]) (fun level rest => by simp only [primaryOver, opens])
    hread closes

theorem read_object {es : List (String × Expr)} (opens : t.token = .openBrace)
    (inner : Read .fields us (.object es)) (closes : u.token = .closeBrace) :
    Read .primary (t :: (us ++ [u])) (.object es) := by
  obtain ⟨_, hes, enough, hread⟩ := inner
  obtain rfl := Expr.object.inj hes
  exact read_enclosed (fun level => fields level.conditional) .object
    (fun rest => by simp only [primaryOver, opens]) (fun level rest => by simp only [primaryOver, opens])
    hread closes

theorem read_item (derives : Derives .conditional us e) (h : Read .conditional us e) :
    Read .items us (.array [e]) := by
  obtain ⟨t, ts, rfl, begins⟩ := derives.begins ⟨nofun, nofun⟩
  obtain ⟨enough, hread⟩ := h
  refine ⟨_, rfl, enough, fun room bound closing rest closes hbound => ?_⟩
  obtain ⟨bound, rfl⟩ : ∃ b, bound = b + 1 := ⟨bound - 1, by simp at hbound; omega⟩
  have hitem := hread room (closing :: rest) (ended_cons _ (by simp [closes]))
  rw [List.cons_append] at hitem ⊢
  rw [items, expect_of_ne begins.not_closes.1]
  simp only
  rcases hitem with h | ⟨hroom, place, h⟩
  · refine .inl ?_
    rw [h]
    simp only [expect_of_ne (show closing.token ≠ .comma by simp [closes]),
      expect_of_eq .itemEnd closes]
    rfl
  · exact .inr ⟨hroom, place, by rw [h]⟩

theorem read_nextItem {es : List Expr} (derives : Derives .conditional us e)
    (item : Read .conditional us e) (separates : u.token = .comma)
    (inner : Read .items vs (.array es)) : Read .items (us ++ u :: vs) (.array (e :: es)) := by
  obtain ⟨t, ts, rfl, begins⟩ := derives.begins ⟨nofun, nofun⟩
  obtain ⟨n₁, hitem⟩ := item
  obtain ⟨_, hes, n₂, hread⟩ := inner
  obtain rfl := Expr.array.inj hes
  refine ⟨_, rfl, max n₁ n₂, fun room bound closing rest closes hbound => ?_⟩
  obtain ⟨bound, rfl⟩ : ∃ b, bound = b + 1 := ⟨bound - 1, by simp at hbound; omega⟩
  have hassoc : t :: ts ++ u :: vs ++ closing :: rest = t :: (ts ++ u :: (vs ++ closing :: rest)) := by
    simp
  rw [hassoc, items, expect_of_ne begins.not_closes.1]
  simp only
  rcases hitem room (u :: (vs ++ closing :: rest)) (ended_cons _ (by simp [separates])) with
    h | ⟨hroom, place, h⟩
  · rw [List.cons_append] at h
    rw [h]
    simp only [expect_of_eq .itemEnd separates]
    have hrest := hread room bound closing rest closes (by simp at hbound; omega)
    exact (hrest.mono (Nat.le_max_right _ _)).map _
  · rw [List.cons_append] at h
    exact .inr ⟨by omega, place, by rw [h]⟩

theorem FieldKey.not_closes {key : String} (h : FieldKey t key) : t.token ≠ .closeBrace := by
  intro htoken
  cases h with
  | plain h => simp [htoken] at h
  | quoted h => simp [IsQuoted, htoken] at h

theorem field_reaches {key : String} (isKey : FieldKey t key) (assigns : u.token = .colon)
    {enough : Nat} {room : Nat} {rest : List Lexeme}
    (h : Reaches enough room ((withRoom room).conditional (us ++ rest)) (e, rest)) :
    Reaches enough room (field (withRoom room).conditional (t :: u :: (us ++ rest)))
      ((key, e), rest) := by
  rw [field, keyOf_of_fieldKey isKey]
  simp only [expect_of_eq .colon assigns]
  exact h.map _

theorem read_field {key : String} (isKey : FieldKey t key) (assigns : u.token = .colon)
    (value : Read .conditional us e) : Read .fields (t :: u :: us) (.object [(key, e)]) := by
  obtain ⟨enough, hread⟩ := value
  refine ⟨_, rfl, enough, fun room bound closing rest closes hbound => ?_⟩
  obtain ⟨bound, rfl⟩ : ∃ b, bound = b + 1 := ⟨bound - 1, by simp at hbound; omega⟩
  have hfield := field_reaches isKey assigns
    (hread room (closing :: rest) (ended_cons _ (by simp [closes])))
  rw [List.cons_append, List.cons_append, fields, expect_of_ne isKey.not_closes]
  simp only
  rcases hfield with h | ⟨hroom, place, h⟩
  · refine .inl ?_
    rw [h]
    simp only [expect_of_ne (show closing.token ≠ .comma by simp [closes]),
      expect_of_eq .fieldEnd closes]
    rfl
  · exact .inr ⟨hroom, place, by rw [h]⟩

theorem read_nextField {comma : Lexeme} {key : String} {es : List (String × Expr)}
    (isKey : FieldKey t key) (assigns : u.token = .colon) (value : Read .conditional us e)
    (separates : comma.token = .comma) (inner : Read .fields vs (.object es)) :
    Read .fields (t :: u :: (us ++ comma :: vs)) (.object ((key, e) :: es)) := by
  obtain ⟨n₁, hvalue⟩ := value
  obtain ⟨_, hes, n₂, hread⟩ := inner
  obtain rfl := Expr.object.inj hes
  refine ⟨_, rfl, max n₁ n₂, fun room bound closing rest closes hbound => ?_⟩
  obtain ⟨bound, rfl⟩ : ∃ b, bound = b + 1 := ⟨bound - 1, by simp at hbound; omega⟩
  have hfield := field_reaches isKey assigns
    (hvalue room (comma :: (vs ++ closing :: rest)) (ended_cons _ (by simp [separates])))
  have hassoc : t :: u :: (us ++ comma :: vs) ++ closing :: rest =
      t :: u :: (us ++ comma :: (vs ++ closing :: rest)) := by simp
  rw [hassoc, fields, expect_of_ne isKey.not_closes]
  simp only
  rcases hfield with h | ⟨hroom, place, h⟩
  · rw [h]
    simp only [expect_of_eq .fieldEnd separates]
    have hrest := hread room bound closing rest closes (by simp at hbound; omega)
    exact (hrest.mono (Nat.le_max_right _ _)).map _
  · exact .inr ⟨by omega, place, by rw [h]⟩

/-- Every phrase is read. -/
theorem Derives.read {phrase : Phrase} (h : Derives phrase us e) : Read phrase us e := by
  induction h with
  | operation _ ih => exact read_operation ih
  | conditional _ asks _ separates _ ihCondition ihThen ihElse =>
    exact read_conditional ihCondition asks ihThen separates ihElse
  | binary _ isOperator _ ihLeft ihRight => exact read_binary ihLeft isOperator ihRight
  | tighter _ ih => exact read_tighter ih
  | operand _ ih => exact read_operand ih
  | unary isOperator _ ih => exact read_unary isOperator ih
  | primary derives ih => exact read_primary derives ih
  | number isNumber => exact ⟨0, fun _ _ _ => .inl (by simp [primaryOver, isNumber])⟩
  | text isQuoted =>
    exact ⟨0, fun _ _ _ => .inl (by rcases isQuoted with h | h <;> simp [primaryOver, h])⟩
  | keyword isName listed =>
    exact ⟨0, fun _ _ _ => .inl (by simp [primaryOver, isName, word_eq, listed])⟩
  | path isName free suffixes =>
    exact ⟨0, fun _ _ bare => .inl (by
      simp [primaryOver, isName, word_eq, free, members_of_suffixes suffixes bare, Except.map])⟩
  | group opens _ closes ih => exact read_group opens ih closes
  | array opens _ closes ih => exact read_array opens ih closes
  | object opens _ closes ih => exact read_object opens ih closes
  | noItem =>
    refine ⟨_, rfl, 0, fun room bound closing rest closes hbound => .inl ?_⟩
    obtain ⟨bound, rfl⟩ : ∃ b, bound = b + 1 := ⟨bound - 1, by simp at hbound; omega⟩
    simp only [List.nil_append, items, expect_of_eq .itemEnd closes]
  | item derives ih => exact read_item derives ih
  | nextItem derives separates _ ihItem ih => exact read_nextItem derives ihItem separates ih
  | noField =>
    refine ⟨_, rfl, 0, fun room bound closing rest closes hbound => .inl ?_⟩
    obtain ⟨bound, rfl⟩ : ∃ b, bound = b + 1 := ⟨bound - 1, by simp at hbound; omega⟩
    simp only [List.nil_append, fields, expect_of_eq .fieldEnd closes]
  | field isKey assigns _ ih => exact read_field isKey assigns ih
  | nextField isKey assigns _ separates _ ihValue ih =>
    exact read_nextField isKey assigns ihValue separates ih

/-- A list of tokens has one tree at most. -/
theorem Derives.unique (h : Derives .conditional us e) (h' : Derives .conditional us f) : e = f := by
  obtain ⟨enough, hread⟩ := h.read
  obtain ⟨enough', hread'⟩ := h'.read
  have hok := (hread (max enough enough') [] ended_nil).resolve_right fun h => by omega
  have hok' := (hread' (max enough enough') [] ended_nil).resolve_right fun h => by omega
  exact (Prod.mk.inj (Except.ok.inj (hok.symm.trans hok'))).1

theorem ofLexemes_of_derives (h : Derives .conditional us e) :
    ofLexemes us = .ok e ∨ ∃ place, ofLexemes us = .error (.tooDeep place) := by
  obtain ⟨enough, hread⟩ := h.read
  have hreaches := hread maxHeight [] ended_nil
  rw [List.append_nil] at hreaches
  rcases hreaches with h | ⟨-, place, h⟩
  · exact .inl (by rw [ofLexemes, h])
  · exact .inr ⟨place, by rw [ofLexemes, h]⟩

/-- What tokenizes is parsed to a tree exactly if it derives, unless it is nested too deeply; and the
tree is the only one. -/
theorem parse_decides_grammar :
    (∀ {source : String} {ts : List Lexeme}, Token.tokenize source = .ok ts → ∀ e,
      (parse source = .ok e → Derives .conditional ts e) ∧
      (Derives .conditional ts e → parse source = .ok e ∨
        ∃ error, parse source = .error error ∧
          error.reason.message = "expression nested too deeply")) ∧
    ∀ {ts : List Lexeme} {e f : Expr}, Derives .conditional ts e → Derives .conditional ts f → e = f := by
  refine ⟨fun {source ts} tokenized e => ?_, Derives.unique⟩
  constructor
  · intro h
    obtain ⟨ts', tokenized', derives⟩ := derives_of_parse h
    rwa [Except.ok.inj (tokenized.symm.trans tokenized')]
  · intro h
    obtain ⟨t, rest, rfl, -⟩ := h.begins ⟨nofun, nofun⟩
    simp only [parse, tokenized, List.isEmpty_cons, Bool.false_eq_true, if_false]
    rcases ofLexemes_of_derives h with h | ⟨place, h⟩
    · exact .inl (by rw [h]; rfl)
    · refine .inr ⟨_, by rw [h]; rfl, ?_⟩
      unfold Failure.error
      simp only
      split <;> rfl

/-- The tokens of a power with a sign. -/
def signedPower : List Lexeme :=
  [⟨.operator .subtract, "-", 0⟩, ⟨.name, "a", 1⟩, ⟨.operator .power, "**", 3⟩, ⟨.name, "b", 6⟩]

theorem tokenize_signedPower : Token.tokenize "-a ** b" = .ok signedPower := by cbv

/-- The sign belongs to the base, and no other tree derives. -/
theorem derives_signedPower :
    Derives .conditional signedPower
      (.binary .power (.unary .negate (.path [.key "a"])) (.path [.key "b"])) ∧
    ∀ e, Derives .conditional signedPower e →
      .binary .power (.unary .negate (.path [.key "a"])) (.path [.key "b"]) = e := by
  have parsed : parse "-a ** b" =
      .ok (.binary .power (.unary .negate (.path [.key "a"])) (.path [.key "b"])) := by
    rw [parse, tokenize_signedPower]
    rfl
  have derives := (parse_decides_grammar.1 tokenize_signedPower _).1 parsed
  exact ⟨derives, fun _ => parse_decides_grammar.2 derives⟩

end LiveTemplate.Expr
