import Mathlib
import LiveTemplate.Evaluation
import LiveTemplate.Proofs.Value.Matching

/-!
# Evaluation does not look into identities

Evaluating an expression follows cells and asks for new identities, and that is all. Programs that do so
match along a relation of identities if they follow matching values, and match again, along a larger
relation, whatever matching answers they get (`Program.Matched`). An expression is evaluated by matching
programs against matching contexts (`Expr.Over.matched`): no operator can tell them apart.
-/
namespace LiveTemplate

open Reactive

/-- Outcomes match if they are matching values or the same fault. -/
def Reactive.Outcome.Matches (R : Nat → Nat → Prop) : Outcome → Outcome → Prop
  | .ok v, .ok w => v.Matches R w
  | .error f, .error g => f = g
  | _, _ => False

namespace Reactive.Program

variable {σ : Type} {R S : Nat → Nat → Prop} {p q : Program σ}

inductive Matched : (Nat → Nat → Prop) → Program σ → Program σ → Prop where
  | done {R : Nat → Nat → Prop} {o o' : Outcome} (ends : o.Matches R o') : Matched R (done o) (done o')
  | unwrap {R : Nat → Nat → Prop} {v w : Value} {next next' : Outcome → Program σ}
      (values : v.Matches R w)
      (rest : ∀ S, R ≤ S → OneToOne S → ∀ o o', o.Matches S o' → Matched S (next o) (next' o')) :
      Matched R (unwrap v next) (unwrap w next')
  | fresh {R : Nat → Nat → Prop} {next next' : Nat → Program σ}
      (rest : ∀ S, R ≤ S → OneToOne S → ∀ i j, S i j → Matched S (next i) (next' j)) :
      Matched R (fresh next) (fresh next')

theorem Matched.bind {f g : Value → Program σ} (h : Matched R p q) (one : OneToOne R)
    (next : ∀ S, R ≤ S → OneToOne S → ∀ v w, v.Matches S w → Matched S (f v) (g w)) :
    Matched R (p.bind f) (q.bind g) := by
  induction h with
  | @done R o o' ends =>
    cases o <;> cases o' <;> try contradiction
    · obtain rfl : _ = _ := ends
      exact .done rfl
    · exact next R le_rfl one _ _ ends
  | unwrap values _ ih =>
    exact .unwrap values fun S hS one o o' ho =>
      ih S hS one o o' ho one fun T hT => next T (hS.trans hT)
  | fresh _ ih =>
    exact .fresh fun S hS one i j hij => ih S hS one i j hij one fun T hT => next T (hS.trans hT)

end Reactive.Program

section Evaluation

open Program

variable {σ : Type} {R R₀ : Nat → Nat → Prop} {v w context : Value}

theorem matched_settle (h : v.Matches R w) : Matched (σ := σ) R (settle v) (settle w) :=
  .unwrap h fun _ _ _ _ _ ho => .done ho

theorem Path.matched_walk (path : Path) (one : OneToOne R) (h : v.Matches R w) :
    Matched (σ := σ) R (walk v path) (walk w path) := by
  induction path generalizing v w R with
  | nil => exact .done h
  | cons segment rest ih =>
    rw [walk, walk, h.isNullish]
    split
    · exact .done (.scalar rfl)
    · exact (matched_settle (h.member segment)).bind one fun S _ one _ _ hv => ih one hv

theorem Path.matched_resolve (path : Path) (one : OneToOne R) (h : v.Matches R w) :
    Matched (σ := σ) R (resolve path v) (resolve path w) :=
  (matched_settle h).bind one fun _ _ one _ _ hv => path.matched_walk one hv

namespace Expr

/-- Every literal in the expression has the property. -/
inductive Over (P : Value → Prop) : Expr → Prop where
  | literal {v : Value} (plain : P v) : Over P (.literal v)
  | path (p : Path) : Over P (.path p)
  | array {items : List Expr} (each : ∀ e ∈ items, Over P e) : Over P (.array items)
  | object {fields : List (String × Expr)} (each : ∀ p ∈ fields, Over P p.2) : Over P (.object fields)
  | unary {op : UnaryOperator} {e : Expr} (operand : Over P e) : Over P (.unary op e)
  | binary {op : BinaryOperator} {l r : Expr} (left : Over P l) (right : Over P r) :
      Over P (.binary op l r)
  | conditional {c t f : Expr} (condition : Over P c) (whenTrue : Over P t) (whenFalse : Over P f) :
      Over P (.conditional c t f)

/-- How an expression is evaluated, along every relation that is large enough. -/
def Parametric (σ : Type) (R₀ : Nat → Nat → Prop) (context : Value) (e : Expr) : Prop :=
  ∀ R, R₀ ≤ R → OneToOne R → Matched (σ := σ) R (e.evaluate context) (e.evaluate context)

theorem matched_evaluateItems {items : List Expr} (each : ∀ e ∈ items, e.Parametric σ R₀ context)
    {known known' : List Value} (le : R₀ ≤ R) (one : OneToOne R)
    (matching : List.Forall₂ (Value.Matches R) known known') {next next' : List Value → Program σ}
    (rest : ∀ S, R ≤ S → OneToOne S → ∀ xs ys, List.Forall₂ (Value.Matches S) xs ys →
      Matched S (next xs) (next' ys)) :
    Matched R (evaluateItems context items known next) (evaluateItems context items known' next') := by
  induction items generalizing R known known' with
  | nil =>
    rw [evaluateItems, evaluateItems]
    exact rest R le_rfl one _ _ matching
  | cons e items ih =>
    rw [evaluateItems, evaluateItems]
    obtain ⟨hfirst, hrest⟩ := List.forall_mem_cons.1 each
    refine (hfirst R le one).bind one fun S hS oneS v w hv => ?_
    have hknown := matching.imp fun _ _ h => h.mono hS
    exact ih hrest (le.trans hS) oneS (List.rel_append hknown (.cons hv .nil)) fun T hT =>
      rest T (hS.trans hT)

theorem matched_evaluateFields {fields : List (String × Expr)}
    (each : ∀ p ∈ fields, p.2.Parametric σ R₀ context) {known known' : Fields} (le : R₀ ≤ R)
    (one : OneToOne R) (matching : Value.FieldsMatch R known known') {next next' : Fields → Program σ}
    (rest : ∀ S, R ≤ S → OneToOne S → ∀ xs ys, Value.FieldsMatch S xs ys →
      Matched S (next xs) (next' ys)) :
    Matched R (evaluateFields context fields known next)
      (evaluateFields context fields known' next') := by
  induction fields generalizing R known known' with
  | nil =>
    rw [evaluateFields, evaluateFields]
    exact rest R le_rfl one _ _ matching
  | cons p fields ih =>
    obtain ⟨key, e⟩ := p
    rw [evaluateFields, evaluateFields]
    obtain ⟨hfirst, hrest⟩ := List.forall_mem_cons.1 each
    refine (hfirst R le one).bind one fun S hS oneS v w hv => ?_
    exact ih hrest (le.trans hS) oneS ((matching.mono hS).set key hv) fun T hT =>
      rest T (hS.trans hT)

/-- Evaluation cannot tell which identities it is given. -/
theorem Over.matched {e : Expr} (literals : e.Over fun v => v.Matches R₀ v)
    (known : context.Matches R₀ context) : e.Parametric σ R₀ context := by
  induction literals with
  | literal h => exact fun R le _ => .done (h.mono le)
  | path p => exact fun R le one => p.matched_resolve one (known.mono le)
  | array _ ih =>
    intro R le one
    rw [evaluate]
    exact matched_evaluateItems ih le one .nil fun S _ _ xs ys hitems =>
      .fresh fun T hT _ i j hij =>
        .done (Value.matches_array.2 ⟨hij, hitems.imp fun _ _ h => h.mono hT⟩)
  | object _ ih =>
    intro R le one
    rw [evaluate]
    exact matched_evaluateFields ih le one .nil fun S _ _ xs ys hfields =>
      .fresh fun T hT _ i j hij => .done (Value.matches_object.2 ⟨hij, hfields.mono hT⟩)
  | @unary op _ _ ih =>
    intro R le one
    rw [evaluate]
    exact (ih R le one).bind one fun S _ _ v w hv => .done (hv.unary op)
  | @binary op l r _ _ ihl ihr =>
    intro R le one
    by_cases eager : op ≠ .and ∧ op ≠ .or
    · rw [evaluate_eager eager]
      refine (ihl R le one).bind one fun S hS oneS v w hv => ?_
      refine (ihr S (le.trans hS) oneS).bind oneS fun T hT oneT v' w' hv' => ?_
      exact .done ((hv.mono hT).binary eager oneT hv')
    · obtain rfl | rfl : op = .and ∨ op = .or := by simpa [or_iff_not_imp_left] using eager
      all_goals
        rw [evaluate]
        refine (ihl R le one).bind one fun S hS oneS v w hv => ?_
        rw [hv.isTruthy]
        split
      · exact ihr S (le.trans hS) oneS
      · exact .done hv
      · exact .done hv
      · exact ihr S (le.trans hS) oneS
  | conditional _ _ _ ihc iht ihf =>
    intro R le one
    rw [evaluate]
    refine (ihc R le one).bind one fun S hS oneS v w hv => ?_
    rw [hv.isTruthy]
    split
    · exact iht S (le.trans hS) oneS
    · exact ihf S (le.trans hS) oneS

end Expr

end Evaluation

end LiveTemplate
