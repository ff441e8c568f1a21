import Mathlib
import LiveTemplate.Proofs.Expr.Relevance
import LiveTemplate.Proofs.Reactive.Alongside

/-!
# Short-circuit and eager evaluation

The eager evaluation of an expression evaluates all operands of every node, the second operand of a
logical operator and both branches of a conditional included, and only then chooses. Where reads have no
side effects on the values of cells it fails, or it finds the same value as the evaluation proper
(`Expr.Over.covered`); so where the evaluation proper fails, it fails too.

The two run in states that go different ways: what one of them skips can bring computeds up to date, and
give out identities, in the other one only. So the relation between their programs (`Program.Covers`) is
over all pairs of states that show one table, and lets the eager side run aside (`Program.Covers.aside`).
-/
namespace LiveTemplate

open Reactive Reactive.Engine

variable {σ : Type}

/-- All identities in the value have been given out. -/
def Value.Given (identities : Nat) (v : Value) : Prop :=
  v.Matches (fun i j => i = j ∧ i < identities) v

namespace Expr

mutual

/-- Evaluates all operands of every node, and chooses afterwards. -/
def evaluateEagerly (context : Value) : Expr → Program σ
  | literal value => .pure value
  | path p => p.resolve context
  | array items => evaluateItemsEagerly context items [] Program.newArray
  | object fields => evaluateFieldsEagerly context fields [] Program.newObject
  | unary op operand => (evaluateEagerly context operand).bind fun v => .pure (Value.unary op v)
  | binary op left right =>
    (evaluateEagerly context left).bind fun l =>
      (evaluateEagerly context right).bind fun r => .pure (Value.binary op l r)
  | conditional condition whenTrue whenFalse =>
    (evaluateEagerly context condition).bind fun c =>
      (evaluateEagerly context whenTrue).bind fun t =>
        (evaluateEagerly context whenFalse).bind fun f => .pure (if c.isTruthy then t else f)

def evaluateItemsEagerly (context : Value) (items : List Expr) (known : List Value)
    (next : List Value → Program σ) : Program σ :=
  match items with
  | [] => next known
  | e :: rest =>
    (evaluateEagerly context e).bind fun v => evaluateItemsEagerly context rest (known ++ [v]) next

def evaluateFieldsEagerly (context : Value) (fields : List (String × Expr)) (known : Fields)
    (next : Fields → Program σ) : Program σ :=
  match fields with
  | [] => next known
  | (key, e) :: rest =>
    (evaluateEagerly context e).bind fun v =>
      evaluateFieldsEagerly context rest (known.set key v) next

end

end Expr

/-! ## Programs that cover others -/

namespace Reactive.Program

variable {table : Cell → Outcome} {R : Nat → Nat → Prop} {p q : Program σ} {f g : Value → Program σ}

theorem handle_done (p : Program σ) : p.handle done = p := by
  induction p <;> simp_all [handle]

theorem bind_pure (p : Program σ) : p.bind pure = p := by
  refine Eq.trans (congrArg p.handle (funext fun o => ?_)) p.handle_done
  cases o <;> rfl

/-- From every two states that show the table, with matching identities among those they have in common,
the first program fails, or both come to matching values. -/
def Covers (table : Cell → Outcome) (R : Nat → Nat → Prop) (p q : Program σ) : Prop :=
  ∀ d : Duo σ, d.Shows table → R ≤ d.linked →
    (∃ f e', d.left.Completes p (.error f) e') ∨
      ∃ v w d', d.left.Completes p (.ok v) d'.left ∧ d.right.Completes q (.ok w) d'.right ∧
        d.Onward table d' ∧ v.Matches d'.linked w

theorem Covers.mono {S : Nat → Nat → Prop} (h : Covers table R p q) (le : R ≤ S) :
    Covers table S p q :=
  fun d shows linked => h d shows (le.trans linked)

theorem covers_of_matched (matched : ∀ S, R ≤ S → OneToOne S → p.Matched S q) :
    Covers table R p q := by
  intro d shows linked
  obtain ⟨o, o', d', left, right, onward, ends⟩ :=
    shows.exec (matched _ linked shows.oneToOne) rfl
  cases o with
  | error f => exact .inl ⟨f, _, left⟩
  | ok v =>
    cases o' with
    | error => exact ends.elim
    | ok w => exact .inr ⟨v, w, d', left, right, onward, ends⟩

theorem covers_pure {v w : Value} (h : v.Matches R w) : Covers (σ := σ) table R (pure v) (pure w) :=
  covers_of_matched fun _ le _ => .done (h.mono le)

theorem Covers.bind (h : Covers table R p q)
    (next : ∀ S, R ≤ S → OneToOne S → ∀ v w, v.Matches S w → Covers table S (f v) (g w)) :
    Covers table R (p.bind f) (q.bind g) := by
  intro d shows linked
  rcases h d shows linked with ⟨fault, e', failed⟩ | ⟨v, w, d₁, left, right, onward, values⟩
  · exact .inl ⟨fault, e', failed.bind_error⟩
  have linked₁ := linked.trans (onward.linked shows)
  rcases next _ linked₁ onward.shows.oneToOne v w values d₁ onward.shows le_rfl with
    ⟨fault, e', failed⟩ | ⟨v', w', d', left', right', onward', values'⟩
  · exact .inl ⟨fault, e', left.bind failed⟩
  · exact .inr ⟨v', w', d', left.bind left', right.bind right', onward.trans onward', values'⟩

/-- What the second program skips is run on one side only. -/
theorem Covers.aside {q' : Program σ} (h : Covers table R p q')
    (next : ∀ S, R ≤ S → OneToOne S → ∀ v, Covers table S (f v) q) :
    Covers table R (p.bind f) q := by
  intro d shows linked
  rcases h d shows linked with ⟨fault, e', failed⟩ | ⟨v, w, d₁, left, -, onward, -⟩
  · exact .inl ⟨fault, e', failed.bind_error⟩
  have onward := onward.of_left shows
  have linked₁ := linked.trans (onward.linked shows)
  rcases next _ linked₁ onward.shows.oneToOne v _ onward.shows le_rfl with
    ⟨fault, e', failed⟩ | ⟨v', w', d', left', right, onward', values⟩
  · exact .inl ⟨fault, e', left.bind failed⟩
  · exact .inr ⟨v', w', d', left.bind left', right, onward.trans onward', values⟩

/-- The operand that is skipped does not decide the value. -/
theorem Covers.skipped {v w : Value} (h : Covers table R p q) (values : v.Matches R w)
    (decided : ∀ b, f b = pure v) : Covers table R (p.bind f) (pure w) := by
  refine h.aside fun S le _ b => ?_
  rw [decided]
  exact covers_pure (values.mono le)

/-- The last operand is the value. -/
theorem Covers.taken (h : Covers table R p q) (decides : ∀ b, f b = pure b) :
    Covers table R (p.bind f) q := by
  rw [funext decides, p.bind_pure]
  exact h

end Reactive.Program

/-! ## Expressions -/

namespace Expr

section Covered

open Program

variable {table : Cell → Outcome} {R R₀ : Nat → Nat → Prop} {context : Value}

/-- The eager evaluation covers the evaluation proper. -/
def Covered (σ : Type) (table : Cell → Outcome) (R₀ : Nat → Nat → Prop) (context : Value) (e : Expr) :
    Prop :=
  Covers (σ := σ) table R₀ (e.evaluateEagerly context) (e.evaluate context)

theorem covers_evaluateItems {items : List Expr} (each : ∀ e ∈ items, e.Covered σ table R₀ context)
    {known known' : List Value} (le : R₀ ≤ R) (matching : List.Forall₂ (Value.Matches R) known known')
    {next next' : List Value → Program σ}
    (rest : ∀ S, R ≤ S → ∀ xs ys, List.Forall₂ (Value.Matches S) xs ys →
      Covers table S (next xs) (next' ys)) :
    Covers table R (evaluateItemsEagerly context items known next)
      (evaluateItems context items known' next') := by
  induction items generalizing R known known' with
  | nil =>
    rw [evaluateItemsEagerly, evaluateItems]
    exact rest R le_rfl _ _ matching
  | cons e items ih =>
    rw [evaluateItemsEagerly, evaluateItems]
    obtain ⟨hfirst, hrest⟩ := List.forall_mem_cons.1 each
    refine (hfirst.mono le).bind fun S hS _ v w hv => ?_
    have hknown := matching.imp fun _ _ h => h.mono hS
    exact ih hrest (le.trans hS) (List.rel_append hknown (.cons hv .nil)) fun T hT =>
      rest T (hS.trans hT)

theorem covers_evaluateFields {fields : List (String × Expr)}
    (each : ∀ p ∈ fields, p.2.Covered σ table R₀ context) {known known' : Fields} (le : R₀ ≤ R)
    (matching : Value.FieldsMatch R known known') {next next' : Fields → Program σ}
    (rest : ∀ S, R ≤ S → ∀ xs ys, Value.FieldsMatch S xs ys → Covers table S (next xs) (next' ys)) :
    Covers table R (evaluateFieldsEagerly context fields known next)
      (evaluateFields context fields known' next') := by
  induction fields generalizing R known known' with
  | nil =>
    rw [evaluateFieldsEagerly, evaluateFields]
    exact rest R le_rfl _ _ matching
  | cons p fields ih =>
    obtain ⟨key, e⟩ := p
    rw [evaluateFieldsEagerly, evaluateFields]
    obtain ⟨hfirst, hrest⟩ := List.forall_mem_cons.1 each
    refine (hfirst.mono le).bind fun S hS _ v w hv => ?_
    exact ih hrest (le.trans hS) ((matching.mono hS).set key hv) fun T hT => rest T (hS.trans hT)

theorem Covered.array {items : List Expr} (each : ∀ e ∈ items, e.Covered σ table R₀ context) :
    (array items).Covered σ table R₀ context := by
  rw [Covered, evaluateEagerly, evaluate]
  refine covers_evaluateItems each le_rfl .nil fun S _ xs ys hitems => ?_
  exact covers_of_matched fun S' le _ => .fresh fun T hT _ i j hij =>
    .done (Value.matches_array.2 ⟨hij, hitems.imp fun _ _ h => h.mono (le.trans hT)⟩)

theorem Covered.object {fields : List (String × Expr)}
    (each : ∀ p ∈ fields, p.2.Covered σ table R₀ context) :
    (object fields).Covered σ table R₀ context := by
  rw [Covered, evaluateEagerly, evaluate]
  refine covers_evaluateFields each le_rfl .nil fun S _ xs ys hfields => ?_
  exact covers_of_matched fun S' le _ => .fresh fun T hT _ i j hij =>
    .done (Value.matches_object.2 ⟨hij, hfields.mono (le.trans hT)⟩)

variable {op : BinaryOperator} {l r c t f : Expr}

/-- An operator that is no logical one is applied on both sides, to matching operands. -/
theorem Covered.binary (eager : op ≠ .and ∧ op ≠ .or) (left : l.Covered σ table R₀ context)
    (right : r.Covered σ table R₀ context) : (binary op l r).Covered σ table R₀ context := by
  rw [Covered, evaluateEagerly, evaluate_eager eager]
  refine left.bind fun S hS _ v w hv => ?_
  refine (right.mono hS).bind fun T hT one v' w' hv' => ?_
  exact covers_pure ((hv.mono hT).binary eager one hv')

/-- A logical operator chooses between its operands as the evaluation proper does. -/
theorem Covered.logical (logical : op = .and ∨ op = .or) (left : l.Covered σ table R₀ context)
    (right : r.Covered σ table R₀ context) : (Expr.binary op l r).Covered σ table R₀ context := by
  rcases logical with rfl | rfl
  all_goals
    rw [Covered, evaluateEagerly, evaluate]
    refine left.bind fun S hS _ v w hv => ?_
    rw [← hv.isTruthy]
    have right := right.mono hS
    cases truthy : v.isTruthy
  · exact right.skipped hv fun b => by simp [Value.binary, truthy]
  · exact right.taken fun b => by simp [Value.binary, truthy]
  · exact right.taken fun b => by simp [Value.binary, truthy]
  · exact right.skipped hv fun b => by simp [Value.binary, truthy]

theorem Covered.conditional (condition : c.Covered σ table R₀ context)
    (whenTrue : t.Covered σ table R₀ context) (whenFalse : f.Covered σ table R₀ context) :
    (conditional c t f).Covered σ table R₀ context := by
  rw [Covered, evaluateEagerly, evaluate]
  refine condition.bind fun S hS _ v w hv => ?_
  rw [← hv.isTruthy]
  have whenTrue := whenTrue.mono hS
  have whenFalse := whenFalse.mono hS
  cases v.isTruthy with
  | false => exact whenTrue.aside fun T hT _ a => (whenFalse.mono hT).taken fun b => rfl
  | true =>
    -- the second branch runs after the first one, so the value is there before it
    rw [if_pos rfl, ← bind_pure (t.evaluate context)]
    exact whenTrue.bind fun T hT _ a a' ha => (whenFalse.mono hT).skipped ha fun b => rfl

/-- Every node is covered, as its operands are. -/
theorem Over.covered {e : Expr} (literals : e.Over fun v => v.Matches R₀ v)
    (known : context.Matches R₀ context) : e.Covered σ table R₀ context := by
  induction literals with
  | literal h =>
    rw [Covered, evaluateEagerly, evaluate]
    exact covers_pure h
  | path p =>
    rw [Covered, evaluateEagerly, evaluate]
    exact covers_of_matched fun S le one => p.matched_resolve one (known.mono le)
  | array _ ih => exact .array ih
  | object _ ih => exact .object ih
  | @unary op _ _ ih =>
    rw [Covered, evaluateEagerly, evaluate]
    exact ih.bind fun S _ _ v w hv => covers_pure (hv.unary op)
  | @binary op l r _ _ ihl ihr =>
    by_cases eager : op ≠ .and ∧ op ≠ .or
    · exact .binary eager ihl ihr
    · exact .logical (by grind) ihl ihr
  | conditional _ _ _ ihc iht ihf => exact .conditional ihc iht ihf

variable {A : Engine σ} {N : Naming} {e : Expr}

/-- Where reads have no side effects on the values of cells, both evaluations end. If the eager one finds
a value, so does the evaluation proper, and it is the same one up to the identities of what each of them
has built on the way; if the evaluation proper fails, so does the eager one. -/
theorem evaluate_agrees_evaluateEagerly (shows : A.Shows N table) (known : context.Given A.identities)
    (literals : e.Over (Value.Given A.identities)) : ∃ o A₁ o' A₂,
      A.Completes (e.evaluateEagerly context) o A₁ ∧ A.Completes (e.evaluate context) o' A₂ ∧
      (∀ v, o = .ok v → ∃ w R, o' = .ok w ∧ v.Matches R w ∧ OneToOne R ∧
        ∀ i j, R i j → i = j ∧ i < A.identities ∨ A.identities ≤ i ∧ A.identities ≤ j) ∧
      ∀ f, o' = .error f → ∃ g, o = .error g := by
  obtain ⟨o', A₂, lazily⟩ := evaluate_ends shows literals context
  have linked : (fun i j => i = j ∧ i < A.identities) ≤ (Duo.twice A N).linked := by
    rintro i j ⟨rfl, given⟩
    exact Duo.linked_twice given
  rcases literals.covered known _ (Duo.shows_twice shows) linked with
    ⟨g, A₁, eagerly⟩ | ⟨v, w, d, eagerly, lazily', onward, values⟩
  · exact ⟨.error g, A₁, o', A₂, eagerly, lazily, nofun, fun _ _ => ⟨g, rfl⟩⟩
  · refine ⟨.ok v, d.left, .ok w, d.right, eagerly, lazily', ?_, nofun⟩
    rintro _ ⟨⟩
    exact ⟨w, d.linked, rfl, values, onward.shows.oneToOne, fun i j => onward.apart shows⟩

end Covered

namespace Choice

theorem given (text : String) : context.Given (state text).identities :=
  Value.matches_object.2 ⟨⟨rfl, Nat.one_pos⟩, .cons ⟨rfl, .scalar rfl⟩
    (.cons ⟨rfl, .scalar rfl⟩ (.cons ⟨rfl, .scalar rfl⟩ .nil))⟩

/-- The second signal in an array, or the third one. -/
def boxed : Expr := .conditional (.unary .not condition) (.array [whenTrue]) (.array [whenFalse])

theorem over_boxed (P : Value → Prop) : boxed.Over P := by
  refine .conditional (.unary (.path _)) (.array ?_) (.array ?_) <;>
    exact List.forall_mem_singleton.2 (.path _)

end Choice

open Choice in
/-- The eager evaluation builds both arrays, so the one that is chosen has another identity. -/
theorem evaluate_agrees_boxed : ∃ A₁ A₂ R,
    (state "b").Completes (boxed.evaluateEagerly context) (.ok (.array 2 [.text "b"])) A₁ ∧
    (state "b").Completes (boxed.evaluate context) (.ok (.array 1 [.text "b"])) A₂ ∧
    R 2 1 ∧ OneToOne R := by
  obtain ⟨o, A₁, o', A₂, eagerly, lazily, agree, -⟩ :=
    evaluate_agrees_evaluateEagerly (shows "b") (given "b") (over_boxed _)
  have hran (depth : Nat) : run (depth + 3) (boxed.evaluateEagerly context) (state "b") =
      some (.ok (.array 2 [.text "b"]), { state "b" with identities := 3 }) := rfl
  have hran' (depth : Nat) : run (depth + 3) (boxed.evaluate context) (state "b") =
      some (.ok (.array 1 [.text "b"]), { state "b" with identities := 2 }) := rfl
  obtain ⟨rfl, -⟩ := eagerly.unique (.of_run 3 hran)
  obtain ⟨rfl, -⟩ := lazily.unique (.of_run 3 hran')
  obtain ⟨w, R, ⟨⟩, values, one, -⟩ := agree _ rfl
  exact ⟨A₁, A₂, R, eagerly, lazily, (Value.matches_array.1 values).1, one⟩

end Expr

end LiveTemplate
