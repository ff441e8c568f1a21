import LiveTemplate.Proofs.Reactive.Reckoning
import LiveTemplate.Proofs.Value.Likeness

/-!
# Expressions that do not tell equal values apart

Two sets of holdings are on a par if they agree signal by signal. What an expression comes to from one
and from the other agrees as well, as long as no operator that it evaluates tells its operands apart
from others that agree with them (`Expr.Discreet.twins`). Only a division, a power or a comparison for
equality can do so (`BinaryOperator.Discerns.isKeen`).

With the same identities given out, both evaluations take the same branches and stay in step: the
values are twins, that agree and are new together or known both.
-/
namespace LiveTemplate

open Reactive

namespace Value

variable {k : Nat} {v w v' w' : Value}

/-- Values that agree, of one identity or known ones both, if with any. -/
structure Twin (k : Nat) (v w : Value) : Prop where
  content : v.agrees w = true
  left : v.Proper
  right : w.Proper
  identity : v.identity? = w.identity? ∨
    (∀ i, v.identity? = some i → i < k) ∧ ∀ i, w.identity? = some i → i < k

theorem Twin.of_made {offers : Cell → Prop} (left : v.Made k offers) (right : w.Made k offers)
    (content : v.agrees w = true) : v.Twin k w :=
  ⟨content, left.proper, right.proper, .inr ⟨fun _ => left.identity_lt, fun _ => right.identity_lt⟩⟩

theorem Twin.of_plain (plain : v.Plain k) : v.Twin k v :=
  .of_made plain plain (agrees_refl plain.proper)

theorem Twin.unary (op : UnaryOperator) (h : v.Twin k w) : (unary op v).Twin k (unary op w) :=
  .of_made (plain_unary op v) (plain_unary op w) (unary_agrees op h.content)

/-- Fields with the same keys in the same order, and twins under each. -/
structure TwinFields (k : Nat) (xs ys : Fields) : Prop where
  keys : (xs.map (·.1)).Nodup
  each : List.Forall₂ (fun p q => p.1 = q.1 ∧ p.2.Twin k q.2) xs ys

variable {xs ys : Fields}

theorem TwinFields.nil : TwinFields k [] [] :=
  ⟨List.nodup_nil, .nil⟩

theorem TwinFields.set (h : TwinFields k xs ys) (key : String) (hv : v.Twin k w) :
    TwinFields k (xs.set key v) (ys.set key w) := by
  obtain ⟨keys, each⟩ := h
  refine ⟨?_, ?_⟩
  · show (Table.keys _).Nodup
    rw [Table.keys_set]
    split
    next => exact keys
    next hnew =>
      refine List.nodup_append.2 ⟨keys, by simp, fun x hx y hy => ?_⟩
      rintro rfl
      exact hnew (List.mem_singleton.1 hy ▸ hx)
  · clear keys
    induction each with
    | nil => exact .cons ⟨rfl, hv⟩ .nil
    | @cons p q _ _ first rest ih =>
      obtain ⟨a, x⟩ := p
      obtain ⟨b, y⟩ := q
      obtain ⟨rfl, hxy⟩ : a = b ∧ x.Twin k y := first
      simp only [Table.set]
      split
      · exact .cons ⟨rfl, hv⟩ rest
      · exact .cons ⟨rfl, hxy⟩ ih

theorem twin_array (i : Nat) {xs ys : List Value} (each : List.Forall₂ (Twin k) xs ys) :
    (array i xs).Twin k (array i ys) := by
  have hproper : (∀ x ∈ xs, x.Proper) ∧ ∀ y ∈ ys, y.Proper := by
    induction each with
    | nil => exact ⟨nofun, nofun⟩
    | cons first _ ih =>
      exact ⟨List.forall_mem_cons.2 ⟨first.left, ih.1⟩, List.forall_mem_cons.2 ⟨first.right, ih.2⟩⟩
  refine ⟨?_, .array i hproper.1, .array i hproper.2, .inl rfl⟩
  rw [agrees, itemsAgree_iff]
  exact each.imp fun _ _ h => h.content

theorem TwinFields.twin_object (h : TwinFields k xs ys) (i : Nat) :
    (object i xs).Twin k (object i ys) := by
  obtain ⟨keys, each⟩ := h
  have hends : xs.map (·.1) = ys.map (·.1) ∧ (∀ p ∈ xs, p.2.Proper) ∧ (∀ q ∈ ys, q.2.Proper) ∧
      ∀ p ∈ xs, ∃ q ∈ ys, p.1 = q.1 ∧ p.2.agrees q.2 = true := by
    clear keys
    induction each with
    | nil => exact ⟨rfl, nofun, nofun, nofun⟩
    | cons first _ ih =>
      obtain ⟨hkeys, hleft, hright, hmem⟩ := ih
      refine ⟨by rw [List.map_cons, List.map_cons, first.1, hkeys],
        List.forall_mem_cons.2 ⟨first.2.left, hleft⟩, List.forall_mem_cons.2 ⟨first.2.right, hright⟩,
        List.forall_mem_cons.2 ⟨⟨_, List.mem_cons_self, first.1, first.2.content⟩, fun p hp => ?_⟩⟩
      obtain ⟨q, hq, hpq⟩ := hmem p hp
      exact ⟨q, List.mem_cons_of_mem _ hq, hpq⟩
  obtain ⟨hkeys, hleft, hright, hmem⟩ := hends
  have hnodup := hkeys ▸ keys
  refine ⟨?_, .object i keys hleft, .object i hnodup hright, .inl rfl⟩
  rw [agrees, Bool.and_eq_true, beq_iff_eq, fieldsAgree_iff]
  refine ⟨each.length_eq, fun p hp => ?_⟩
  obtain ⟨⟨key, y⟩, hq, hkey, content⟩ := hmem p hp
  exact ⟨y, hkey ▸ lookup_of_mem hnodup hq, content⟩

end Value

open Value in
/-- The operator gives another result on operands that stand in for these as equal ones. -/
def BinaryOperator.Discerns (op : BinaryOperator) (k : Nat) (v w : Value) : Prop :=
  ∃ v' w', v.Twin k v' ∧ w.Twin k w' ∧ (binary op v w).agrees (binary op v' w') = false

/-- Whether the second operand is evaluated after this first one. -/
def BinaryOperator.asksRight (op : BinaryOperator) (left : Value) : Bool :=
  match op with
  | .and => left.isTruthy
  | .or => !left.isTruthy
  | _ => true

theorem BinaryOperator.Discerns.isKeen {op : BinaryOperator} {k : Nat} {v w : Value}
    (h : op.Discerns k v w) : op.isKeen = true := by
  obtain ⟨v', w', hv, hw, differ⟩ := h
  by_contra keen
  exact absurd differ (by simp [Value.binary_agrees (by simpa using keen) hv.content hw.content])

/-- Only a division by a zero tells the zeros apart. -/
theorem BinaryOperator.Discerns.divisor {k : Nat} {v w : Value} (h : divide.Discerns k v w) :
    (w.toNumber == 0) = true := by
  obtain ⟨v', w', hv, hw, differ⟩ := h
  by_contra nonzero
  have hdivisor : w.toNumber = w'.toNumber :=
    eq_of_agree (Value.toNumber_of_agrees hw.content) (by simpa using nonzero)
  have hquotient := agree_div (Value.toNumber_of_agrees hv.content) w.toNumber
  refine absurd differ ?_
  simp only [Value.binary, Value.agrees, ← hdivisor, hquotient]
  exact Bool.false_ne_true.symm

namespace Value

variable {k : Nat} {v w v' w' : Value}

/-- An array or object that was there before. -/
def Known (k : Nat) (v : Value) : Prop :=
  ∃ i, v.identity? = some i ∧ i < k

/-- Sameness shows in twins, but for two known arrays or objects. -/
theorem Twin.same (hv : v.Twin k v') (hw : w.Twin k w') (apart : ¬(v.Known k ∧ w.Known k)) :
    v.same w = v'.same w' := by
  have identities {i i' j j' : Nat} (hi : v.identity? = some i) (hi' : v'.identity? = some i')
      (hj : w.identity? = some j) (hj' : w'.identity? = some j') : (i == j) = (i' == j') := by
    have hv := hv.identity
    have hw := hw.identity
    simp only [Known, hi, hi', hj, hj', Option.some.injEq, forall_eq', exists_eq_left'] at hv hw apart
    rw [Bool.eq_iff_iff, beq_iff_eq, beq_iff_eq]
    omega
  have hcontent := hv.content
  have hcontent' := hw.content
  cases v <;> cases v' <;> simp only [agrees, Bool.false_eq_true, beq_iff_eq] at hcontent <;>
    cases w <;> cases w' <;> simp only [agrees, Bool.false_eq_true, beq_iff_eq] at hcontent'
  case number.number.number.number => exact beq_agree hcontent hcontent'
  all_goals first
    | rfl
    | exact identities rfl rfl rfl rfl
    | (subst hcontent; subst hcontent'; rfl)

theorem Twin.looselyEquals (hv : v.Twin k v') (hw : w.Twin k w') (apart : ¬(v.Known k ∧ w.Known k)) :
    v.looselyEquals w = v'.looselyEquals w' := by
  have hsame := hv.same hw apart
  have hnumbers := beq_agree (toNumber_of_agrees hv.content) (toNumber_of_agrees hw.content)
  have hcontent := hv.content
  have hcontent' := hw.content
  unfold Value.looselyEquals
  rw [isNullish_of_agrees hcontent, isNullish_of_agrees hcontent']
  split
  · rfl
  cases v <;> cases v' <;> simp only [agrees, Bool.false_eq_true] at hcontent <;>
    cases w <;> cases w' <;> simp only [agrees, Bool.false_eq_true] at hcontent'
  all_goals first | exact hsame | exact hnumbers

end Value

/-- A comparison for equality discerns nothing but two known arrays or objects. -/
theorem BinaryOperator.Discerns.known {op : BinaryOperator} {k : Nat} {v w : Value}
    (h : op.Discerns k v w) (compares : op ≠ .divide ∧ op ≠ .power) : v.Known k ∧ w.Known k := by
  have keen := h.isKeen
  obtain ⟨v', w', hv, hw, differ⟩ := h
  by_contra apart
  have hsame := hv.same hw apart
  have hloosely := hv.looselyEquals hw apart
  cases op <;> simp_all [BinaryOperator.isKeen, Value.binary, Value.agrees]

theorem Value.Twin.binary {op : BinaryOperator} {k : Nat} {v w v' w' : Value}
    (eager : op ≠ .and ∧ op ≠ .or) (hv : v.Twin k v') (hw : w.Twin k w')
    (blind : op.isKeen = true → ¬op.Discerns k v w) :
    (Value.binary op v w).Twin k (Value.binary op v' w') := by
  refine .of_made (plain_binary eager v w) (plain_binary eager v' w') ?_
  by_contra differ
  have hdiscerns : op.Discerns k v w := ⟨v', w', hv, hw, by simpa using differ⟩
  exact blind hdiscerns.isKeen hdiscerns

/-- Holdings that agree on plain data, signal by signal. -/
def Reactive.Holdings.Par (k : Nat) (held held' : Holdings) : Prop :=
  ∀ id, Option.Rel (fun v w => v.Plain k ∧ w.Plain k ∧ v.agrees w = true) (held id) (held' id)

/-- The cells of live signals. -/
def Reactive.Holdings.Live (held : Holdings) (c : Cell) : Prop :=
  c.kind = .signal ∧ (held c.node).isSome

section Twins

open Program

variable {σ : Type} {k i : Nat} {held held' : Holdings} {p q : Program σ} {context v w : Value}

namespace Reactive.Program

/-- Both programs, given the same identities, come to twins. -/
def Twins (k : Nat) (held held' : Holdings) (i : Nat) (p q : Program σ) : Prop :=
  ∃ v w cs j, p.Reckons held i cs (.ok v) j ∧ q.Reckons held' i cs (.ok w) j ∧ v.Twin k w

theorem Twins.pure (h : v.Twin k w) : Twins (σ := σ) k held held' i (pure v) (pure w) :=
  ⟨v, w, [], i, .done _ _, .done _ _, h⟩

theorem Twins.bind {f g : Value → Program σ} (h : Twins k held held' i p q)
    (next : ∀ {v w cs j}, i ≤ j → p.Reckons held i cs (.ok v) j → v.Twin k w →
      Twins k held held' j (f v) (g w)) : Twins k held held' i (p.bind f) (q.bind g) := by
  obtain ⟨v, w, cs, j, hp, hq, hvw⟩ := h
  obtain ⟨v', w', ds, j', hp', hq', hvw'⟩ := next hp.le hp hvw
  exact ⟨v', w', cs ++ ds, j', hp.bind hp', hq.bind hq', hvw'⟩

theorem Twins.fresh {next next' : Nat → Program σ}
    (rest : Twins k held held' (i + 1) (next i) (next' i)) :
    Twins k held held' i (fresh next) (fresh next') := by
  obtain ⟨v, w, cs, j, hp, hq, hvw⟩ := rest
  exact ⟨v, w, cs, j, .fresh hp, .fresh hq, hvw⟩

/-- Cells that agree are the same, and lead to what agrees. -/
theorem Twins.settle (par : held.Par k held') (hv : v.Made k held.Live) (hw : w.Made k held.Live)
    (content : v.agrees w = true) {f g : Value → Program σ}
    (next : ∀ {v' w'}, v'.Made k held.Live → w'.Made k held.Live → v'.agrees w' = true →
      Twins k held held' i (f v') (g w')) :
    Twins k held held' i ((settle v).bind f) ((settle w).bind g) := by
  by_cases hreactive : v.isReactive = true
  · cases hv with
    | @cell c offered =>
      cases w <;> simp only [Value.agrees, Bool.false_eq_true, beq_iff_eq] at content
      subst content
      obtain ⟨kind, id⟩ := c
      obtain ⟨rfl, hlive⟩ : kind = .signal ∧ (held id).isSome = true := offered
      obtain ⟨a, ha⟩ := Option.isSome_iff_exists.1 hlive
      have hpar := par id
      rw [ha] at hpar
      cases hb : held' id with
      | none => simp [hb] at hpar
      | some b =>
        rw [hb, Option.rel_some_some] at hpar
        obtain ⟨plain, plain', hab⟩ := hpar
        obtain ⟨v', w', cs, j, hp, hq, hvw⟩ := next (plain.mono le_rfl fun _ => False.elim)
          (plain'.mono le_rfl fun _ => False.elim) hab
        exact ⟨v', w', _, j, .follow ha hp, .follow hb hq, hvw⟩
    | _ => cases hreactive
  · have hfree : v.isReactive = false := by simpa using hreactive
    obtain ⟨v', w', cs, j, hp, hq, hvw⟩ := next hv hw content
    exact ⟨v', w', cs, j, .reached hfree hp,
      .reached ((Value.isReactive_of_agrees content).symm.trans hfree) hq, hvw⟩

end Reactive.Program

theorem Path.twins_walk (par : held.Par k held') (path : Path) (hv : v.Made k held.Live)
    (hw : w.Made k held.Live) (content : v.agrees w = true) :
    Twins (σ := σ) k held held' i (walk v path) (walk w path) := by
  induction path generalizing v w with
  | nil => exact .pure (.of_made hv hw content)
  | cons segment rest ih =>
    rw [walk, walk, Value.isNullish_of_agrees content]
    split
    · exact .pure (.of_plain .undefined)
    · exact .settle par (hv.member segment) (hw.member segment)
        (Value.agrees_member hv.proper content segment) fun hv' hw' content' => ih hv' hw' content'

theorem Path.twins_resolve (par : held.Par k held') (path : Path) (made : context.Made k held.Live) :
    Twins (σ := σ) k held held' i (resolve path context) (resolve path context) :=
  .settle par made made (Value.agrees_refl made.proper) fun hv hw content =>
    twins_walk par path hv hw content

/-! ## Expressions -/

namespace Expr

/-- A value that the expression has, with identities from the bound on. -/
def Gives (σ : Type) (k : Nat) (held : Holdings) (context : Value) (e : Expr) (v : Value) : Prop :=
  ∃ i cs j, k ≤ i ∧ (e.evaluate (σ := σ) context).Reckons held i cs (.ok v) j

/-- No division, power or comparison for equality that is evaluated discerns its operands. -/
inductive Discreet (σ : Type) (k : Nat) (held : Holdings) (context : Value) : Expr → Prop where
  | literal (v : Value) : Discreet σ k held context (.literal v)
  | path (p : Path) : Discreet σ k held context (.path p)
  | array {items : List Expr} (each : ∀ e ∈ items, Discreet σ k held context e) :
      Discreet σ k held context (.array items)
  | object {fields : List (String × Expr)} (each : ∀ p ∈ fields, Discreet σ k held context p.2) :
      Discreet σ k held context (.object fields)
  | unary {op : UnaryOperator} {e : Expr} (operand : Discreet σ k held context e) :
      Discreet σ k held context (.unary op e)
  | binary {op : BinaryOperator} {l r : Expr} (left : Discreet σ k held context l)
      (right : ∀ v, l.Gives σ k held context v → op.asksRight v = true →
        Discreet σ k held context r)
      (blind : op.isKeen = true → ∀ v w, l.Gives σ k held context v → r.Gives σ k held context w →
        ¬op.Discerns k v w) : Discreet σ k held context (.binary op l r)
  | conditional {c t f : Expr} (condition : Discreet σ k held context c)
      (whenTrue : ∀ v, c.Gives σ k held context v → v.isTruthy = true → Discreet σ k held context t)
      (whenFalse : ∀ v, c.Gives σ k held context v → v.isTruthy = false →
        Discreet σ k held context f) : Discreet σ k held context (.conditional c t f)

theorem twins_evaluateItems {items : List Expr}
    (each : ∀ e ∈ items, ∀ i, k ≤ i →
      Twins (σ := σ) k held held' i (e.evaluate context) (e.evaluate context))
    {known known' : List Value} (twins : List.Forall₂ (Value.Twin k) known known')
    {next next' : List Value → Program σ} (le : k ≤ i)
    (rest : ∀ {j xs ys}, List.Forall₂ (Value.Twin k) xs ys →
      Twins k held held' j (next xs) (next' ys)) :
    Twins k held held' i (evaluateItems context items known next)
      (evaluateItems context items known' next') := by
  induction items generalizing i known known' with
  | nil =>
    rw [evaluateItems, evaluateItems]
    exact rest twins
  | cons e items ih =>
    rw [evaluateItems, evaluateItems]
    obtain ⟨hfirst, hrest⟩ := List.forall_mem_cons.1 each
    exact (hfirst i le).bind fun hj _ hv =>
      ih hrest (List.rel_append twins (.cons hv .nil)) (le.trans hj)

theorem twins_evaluateFields {fields : List (String × Expr)}
    (each : ∀ p ∈ fields, ∀ i, k ≤ i →
      Twins (σ := σ) k held held' i (p.2.evaluate context) (p.2.evaluate context))
    {known known' : Fields} (twins : Value.TwinFields k known known')
    {next next' : Fields → Program σ} (le : k ≤ i)
    (rest : ∀ {j xs ys}, Value.TwinFields k xs ys → Twins k held held' j (next xs) (next' ys)) :
    Twins k held held' i (evaluateFields context fields known next)
      (evaluateFields context fields known' next') := by
  induction fields generalizing i known known' with
  | nil =>
    rw [evaluateFields, evaluateFields]
    exact rest twins
  | cons p fields ih =>
    obtain ⟨key, e⟩ := p
    rw [evaluateFields, evaluateFields]
    obtain ⟨hfirst, hrest⟩ := List.forall_mem_cons.1 each
    exact (hfirst i le).bind fun hj _ hv => ih hrest (twins.set key hv) (le.trans hj)

/-- What an expression comes to from holdings on a par: its values agree. -/
theorem Discreet.twins {e : Expr} (discreet : e.Discreet σ k held context) (written : e.Written)
    (par : held.Par k held') (made : context.Made k held.Live) (i : Nat) (le : k ≤ i) :
    Twins (σ := σ) k held held' i (e.evaluate context) (e.evaluate context) := by
  induction discreet generalizing i with
  | literal v =>
    cases written with
    | literal plain => exact .pure (.of_plain (plain k))
  | path p => exact p.twins_resolve par made
  | array _ ih =>
    cases written with
    | array each =>
      rw [evaluate]
      exact twins_evaluateItems (fun e he => ih e he (each e he)) .nil le fun h =>
        .fresh (.pure (Value.twin_array _ h))
  | object _ ih =>
    cases written with
    | object each =>
      rw [evaluate]
      exact twins_evaluateFields (fun p hp => ih p hp (each p hp)) .nil le fun h =>
        .fresh (.pure (h.twin_object _))
  | unary _ ih =>
    cases written with
    | unary operand =>
      rw [evaluate]
      exact (ih operand i le).bind fun _ _ hv => .pure (hv.unary _)
  | @binary op l r _ _ blind ihl ihr =>
    cases written with
    | binary left right =>
      by_cases heager : op ≠ .and ∧ op ≠ .or
      · rw [evaluate_eager heager]
        refine (ihl left i le).bind fun hj hl hv => ?_
        have hright := ihr _ ⟨_, _, _, le, hl⟩ (by cases op <;> first | rfl | simp at heager)
          right _ (le.trans hj)
        refine hright.bind fun _ hr hw => .pure (hv.binary heager hw fun keen => ?_)
        exact blind keen _ _ ⟨_, _, _, le, hl⟩ ⟨_, _, _, le.trans hj, hr⟩
      · obtain rfl | rfl : op = .and ∨ op = .or := by simpa [or_iff_not_imp_left] using heager
        all_goals
          rw [evaluate]
          refine (ihl left i le).bind fun hj hl hv => ?_
          rw [← Value.isTruthy_of_agrees hv.content]
          split
        next htruthy => exact ihr _ ⟨_, _, _, le, hl⟩ htruthy right _ (le.trans hj)
        next => exact .pure hv
        next => exact .pure hv
        next htruthy =>
          exact ihr _ ⟨_, _, _, le, hl⟩ (by simpa [BinaryOperator.asksRight] using htruthy) right _
            (le.trans hj)
  | conditional _ _ _ ihc iht ihf =>
    cases written with
    | conditional condition whenTrue whenFalse =>
      rw [evaluate]
      refine (ihc condition i le).bind fun hj hc hv => ?_
      rw [← Value.isTruthy_of_agrees hv.content]
      split
      next htruthy => exact iht _ ⟨_, _, _, le, hc⟩ htruthy whenTrue _ (le.trans hj)
      next htruthy =>
        exact ihf _ ⟨_, _, _, le, hc⟩ (by simpa using htruthy) whenFalse _ (le.trans hj)

end Expr

/-! ## Templates -/

namespace Template

/-- The expressions of the template are discreet. -/
def Discreet (σ : Type) (k : Nat) (held : Holdings) (context : Value) (t : Template) : Prop :=
  ∀ e ∈ t.expressions, e.Discreet σ k held context

variable {t : Template}

theorem twins_renderParts {parts : List Part}
    (each : ∀ src e, Part.expression src e ∈ parts → ∀ i, k ≤ i →
      Twins (σ := σ) k held held' i (e.evaluate context) (e.evaluate context))
    (text : String) (le : k ≤ i) :
    Twins (σ := σ) k held held' i (renderParts context text parts)
      (renderParts context text parts) := by
  induction parts generalizing text i with
  | nil => exact .pure (.of_plain (.text text))
  | cons part rest ih =>
    have hrest := fun src e h => each src e (List.mem_cons_of_mem _ h)
    cases part with
    | text s => exact ih hrest (text ++ s) le
    | expression src e =>
      rw [renderParts]
      refine (each src e (by simp) i le).bind fun hj _ hv => ?_
      rw [Value.toText_of_agrees hv.content]
      exact ih hrest _ (le.trans hj)

theorem Discreet.twins_render (discreet : t.Discreet σ k held context) (written : t.Written)
    (par : held.Par k held') (made : context.Made k held.Live) (le : k ≤ i) :
    Twins (σ := σ) k held held' i (t.render context) (t.render context) := by
  unfold render
  split
  · exact .pure (.of_plain (.text _))
  · refine twins_renderParts (fun src e h => ?_) "" le
    have hmem : e ∈ t.expressions := List.mem_filterMap.2 ⟨_, h, rfl⟩
    exact (discreet e hmem).twins (written e hmem) par made

theorem Discreet.twins_evaluate (discreet : t.Discreet σ k held context) (written : t.Written)
    (par : held.Par k held') (made : context.Made k held.Live) (le : k ≤ i) :
    Twins (σ := σ) k held held' i (t.evaluate context) (t.evaluate context) := by
  unfold evaluate
  split
  next e pure =>
    have hmem : e ∈ t.expressions := by
      unfold pure? at pure
      split at pure
      next hparts => simp_all [expressions]
      next => cases pure
    exact (discreet e hmem).twins (written e hmem) par made i le
  next => exact discreet.twins_render written par made le

end Template

/-- What a binding comes to from holdings on a par. -/
theorem Binding.twins_body {t : Template} (kind : BindingKind) (discreet : t.Discreet σ k held context)
    (written : t.Written) (par : held.Par k held') (made : context.Made k held.Live) (le : k ≤ i) :
    Twins (σ := σ) k held held' i (body kind t context) (body kind t context) := by
  by_cases coerced : kind = .property
  · subst coerced
    unfold body
    split
    · exact .pure (.of_plain (.text _))
    · exact discreet.twins_evaluate written par made le
  · rw [body_eq_render coerced]
    exact discreet.twins_render written par made le

end Twins

end LiveTemplate
