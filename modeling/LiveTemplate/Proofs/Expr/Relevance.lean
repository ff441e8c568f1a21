import Mathlib
import LiveTemplate.Proofs.Expr.Parametric
import LiveTemplate.Proofs.Reactive.Showing

/-!
# The cells an evaluation depends on

An evaluation depends on the cells it reads, and on no others: in a second state where these cells
answer alike it reads the same cells in the same order and ends the same way, but for the identities of
what has been built since. The operands and path steps it leaves out can be replaced by any others
(`Expr.Spares`): the run is the same, and so are the cells it has read.
-/
namespace LiveTemplate

open Reactive Reactive.Engine

variable {σ : Type}

/-- A value that two states have in common: its identities have one name in both. -/
def Value.Common (M N : Naming) (v : Value) : Prop :=
  ∃ w : Value, v.Matches M.Names w ∧ v.Matches N.Names w

theorem Value.Common.linked {M N : Naming} {v : Value} (h : v.Common M N) :
    v.Matches (fun i j => ∃ n, M i = some n ∧ N j = some n) v :=
  have ⟨_, left, right⟩ := h
  left.trans_symm right

namespace Path

variable {context v : Value}

theorem walk_nullish (nullish : v.isNullish = true) {path : Path} (more : path ≠ []) :
    walk (σ := σ) v path = .pure .undefined := by
  cases path with
  | nil => exact absurd rfl more
  | cons => rw [walk, if_pos nullish]

theorem settle_bind_bind (v : Value) (f g : Value → Program σ) :
    (Program.settle v).bind (fun w => (f w).bind g) = ((Program.settle v).bind f).bind g := by
  refine congrArg (Program.unwrap v) (funext fun r => ?_)
  cases r <;> rfl

theorem walk_append (v : Value) (p q : Path) :
    walk (σ := σ) v (p ++ q) = (walk v p).bind fun w => walk w q := by
  induction p generalizing v with
  | nil => rfl
  | cons segment p ih =>
    rw [List.cons_append, walk, walk]
    split
    next nullish =>
      cases q with
      | nil => rfl
      | cons => exact (walk_nullish (by rfl) (by simp)).symm
    next =>
      simp only [ih]
      exact settle_bind_bind _ _ _

theorem resolve_append (p q : Path) (context : Value) :
    resolve (σ := σ) (p ++ q) context = (p.resolve context).bind fun w => walk w q := by
  simp only [resolve, walk_append]
  exact settle_bind_bind _ _ _

end Path

namespace Expr

section Spared

variable {context : Value}

/-- Expressions evaluated one after the other, from one state to another. -/
inductive Passes (context : Value) : List Expr → Engine σ → Engine σ → Prop where
  | nil (A : Engine σ) : Passes context [] A A
  | cons {e : Expr} {rest : List Expr} {A A₁ A₂ : Engine σ} {depth : Nat} {v : Value}
      (first : run depth (e.evaluate context) A = some (.ok v, A₁)) (others : Passes context rest A₁ A₂) :
      Passes context (e :: rest) A A₂

/-- The second expression differs from the first one only in parts that the evaluation from this state
leaves out: the branch of a conditional that is not taken, the second operand of a logical operator that
the first one decides, steps below a nullish value, and all that comes after a failure. -/
inductive Spares (context : Value) : Engine σ → Expr → Expr → Prop where
  | refl (A : Engine σ) (e : Expr) : Spares context A e e
  | trans {A : Engine σ} {e e₁ e₂ : Expr} : Spares context A e e₁ → Spares context A e₁ e₂ →
      Spares context A e e₂
  | steps {A : Engine σ} {p q q' : Path} (more : q ≠ []) (more' : q' ≠ [])
      (nullish : ∀ {depth v A₁}, run depth (p.resolve context) A = some (.ok v, A₁) →
        v.isNullish = true) : Spares context A (.path (p ++ q)) (.path (p ++ q'))
  | item {A : Engine σ} {before after : List Expr} {e e' : Expr}
      (part : ∀ {A₁}, Passes context before A A₁ → Spares context A₁ e e') :
      Spares context A (.array (before ++ e :: after)) (.array (before ++ e' :: after))
  | field {A : Engine σ} {before after : List (String × Expr)} {key : String} {e e' : Expr}
      (part : ∀ {A₁}, Passes context (before.map (·.2)) A A₁ → Spares context A₁ e e') :
      Spares context A (.object (before ++ (key, e) :: after)) (.object (before ++ (key, e') :: after))
  | operand {A : Engine σ} {op : UnaryOperator} {e e' : Expr} (part : Spares context A e e') :
      Spares context A (.unary op e) (.unary op e')
  | left {A : Engine σ} {op : BinaryOperator} {l l' r : Expr} (part : Spares context A l l') :
      Spares context A (.binary op l r) (.binary op l' r)
  | right {A : Engine σ} {op : BinaryOperator} {l r r' : Expr}
      (part : ∀ {depth v A₁}, run depth (l.evaluate context) A = some (.ok v, A₁) →
        (op = .and → v.isTruthy = true) → (op = .or → v.isTruthy = false) → Spares context A₁ r r') :
      Spares context A (.binary op l r) (.binary op l r')
  | condition {A : Engine σ} {c c' t f : Expr} (part : Spares context A c c') :
      Spares context A (.conditional c t f) (.conditional c' t f)
  | whenTrue {A : Engine σ} {c t t' f : Expr}
      (part : ∀ {depth v A₁}, run depth (c.evaluate context) A = some (.ok v, A₁) →
        v.isTruthy = true → Spares context A₁ t t') :
      Spares context A (.conditional c t f) (.conditional c t' f)
  | whenFalse {A : Engine σ} {c t f f' : Expr}
      (part : ∀ {depth v A₁}, run depth (c.evaluate context) A = some (.ok v, A₁) →
        v.isTruthy = false → Spares context A₁ f f') :
      Spares context A (.conditional c t f) (.conditional c t f')

theorem run_bind_left {depth : Nat} {p q : Program σ} {A : Engine σ} {next : Value → Program σ}
    (same : run depth p A = run depth q A) : run depth (p.bind next) A = run depth (q.bind next) A := by
  rw [run, run, Program.exec_bind, Program.exec_bind]
  exact congrArg (Option.bind · _) same

theorem evaluateItems_append (before after : List Expr) (known : List Value)
    (next : List Value → Program σ) : evaluateItems context (before ++ after) known next =
      evaluateItems context before known fun items => evaluateItems context after items next := by
  induction before generalizing known with
  | nil => rw [List.nil_append, evaluateItems]
  | cons e before ih => simp only [List.cons_append, evaluateItems, ih]

theorem evaluateFields_append (before after : List (String × Expr)) (known : Fields)
    (next : Fields → Program σ) : evaluateFields context (before ++ after) known next =
      evaluateFields context before known fun fields => evaluateFields context after fields next := by
  induction before generalizing known with
  | nil => rw [List.nil_append, evaluateFields]
  | cons p before ih => simp only [List.cons_append, evaluateFields, ih]

theorem run_evaluateItems_congr {depth : Nat} {items : List Expr} {known : List Value} {A : Engine σ}
    {next next' : List Value → Program σ} (same : ∀ {A₁}, Passes context items A A₁ → ∀ known,
      run depth (next known) A₁ = run depth (next' known) A₁) :
    run depth (evaluateItems context items known next) A =
      run depth (evaluateItems context items known next') A := by
  induction items generalizing known A with
  | nil =>
    rw [evaluateItems, evaluateItems]
    exact same (.nil A) known
  | cons e items ih =>
    rw [evaluateItems, evaluateItems]
    exact Program.exec_bind_congr fun first => ih fun others => same (.cons first others)

theorem run_evaluateFields_congr {depth : Nat} {fields : List (String × Expr)} {known : Fields}
    {A : Engine σ} {next next' : Fields → Program σ}
    (same : ∀ {A₁}, Passes context (fields.map (·.2)) A A₁ → ∀ known,
      run depth (next known) A₁ = run depth (next' known) A₁) :
    run depth (evaluateFields context fields known next) A =
      run depth (evaluateFields context fields known next') A := by
  induction fields generalizing known A with
  | nil =>
    rw [evaluateFields, evaluateFields]
    exact same (.nil A) known
  | cons p fields ih =>
    rw [evaluateFields, evaluateFields]
    exact Program.exec_bind_congr fun first => ih fun others => same (.cons first others)

/-- What is left out makes no difference to the run. -/
theorem Spares.run_eq {A : Engine σ} {e e' : Expr} (spares : e.Spares context A e') (depth : Nat) :
    run depth (e.evaluate context) A = run depth (e'.evaluate context) A := by
  induction spares with
  | refl => rfl
  | trans _ _ ih ih' => exact ih.trans ih'
  | steps more more' nullish =>
    rw [evaluate, evaluate, Path.resolve_append, Path.resolve_append]
    refine Program.exec_bind_congr fun ran => ?_
    rw [Path.walk_nullish (nullish ran) more, Path.walk_nullish (nullish ran) more']
  | item part ih =>
    rw [evaluate, evaluate, evaluateItems_append, evaluateItems_append]
    refine run_evaluateItems_congr fun passes known => ?_
    rw [evaluateItems, evaluateItems]
    exact run_bind_left (ih passes)
  | field part ih =>
    rw [evaluate, evaluate, evaluateFields_append, evaluateFields_append]
    refine run_evaluateFields_congr fun passes known => ?_
    rw [evaluateFields, evaluateFields]
    exact run_bind_left (ih passes)
  | operand _ ih =>
    rw [evaluate, evaluate]
    exact run_bind_left ih
  | @left A op l l' r _ ih =>
    by_cases eager : op ≠ .and ∧ op ≠ .or
    · rw [evaluate_eager eager, evaluate_eager eager]
      exact run_bind_left ih
    · obtain rfl | rfl : op = .and ∨ op = .or := by simpa [or_iff_not_imp_left] using eager
      all_goals
        rw [evaluate, evaluate]
        exact run_bind_left ih
  | @right A op l r r' part ih =>
    by_cases eager : op ≠ .and ∧ op ≠ .or
    · rw [evaluate_eager eager, evaluate_eager eager]
      refine Program.exec_bind_congr fun ran => run_bind_left ?_
      exact ih ran (absurd · eager.1) (absurd · eager.2)
    · obtain rfl | rfl : op = .and ∨ op = .or := by simpa [or_iff_not_imp_left] using eager
      all_goals
        rw [evaluate, evaluate]
        refine Program.exec_bind_congr fun {v A₁} ran => ?_
        cases truthy : v.isTruthy
      · rfl
      · exact ih ran (fun _ => truthy) (fun h => by cases h)
      · exact ih ran (fun h => by cases h) (fun _ => truthy)
      · rfl
  | condition _ ih =>
    rw [evaluate, evaluate]
    exact run_bind_left ih
  | whenTrue part ih =>
    rw [evaluate, evaluate]
    refine Program.exec_bind_congr fun {v A₁} ran => ?_
    cases truthy : v.isTruthy
    · rfl
    · exact ih ran truthy
  | whenFalse part ih =>
    rw [evaluate, evaluate]
    refine Program.exec_bind_congr fun {v A₁} ran => ?_
    cases truthy : v.isTruthy
    · exact ih ran truthy
    · rfl

end Spared

section Relevance

variable {M N : Naming} {a b : Cell → Outcome} {A B : Engine σ} {e : Expr} {context : Value}

theorem Over.mono {P Q : Value → Prop} (h : e.Over P) (weaker : ∀ v, P v → Q v) : e.Over Q := by
  induction h with
  | literal plain => exact .literal (weaker _ plain)
  | path p => exact .path p
  | array _ ih => exact .array ih
  | object _ ih => exact .object ih
  | unary _ ih => exact .unary ih
  | binary _ _ ihl ihr => exact .binary ihl ihr
  | conditional _ _ _ ihc iht ihf => exact .conditional ihc iht ihf

/-- What a state shows is enough for an evaluation to come to an end. -/
theorem evaluate_ends {P : Value → Prop} (left : A.Shows M a) (literals : e.Over P)
    (context : Value) : ∃ o A', A.Completes (e.evaluate context) o A' := by
  have literals : e.Over fun v => v.Matches Eq v := literals.mono fun v _ => v.matches_self
  have one : OneToOne (@Eq Nat) := fun _ _ _ _ h h' => by rw [h, h']
  exact left.exec (literals.matched context.matches_self Eq le_rfl one) rfl

/-- Evaluation ends, in two states that show what they hold, with the same cells in the same standing.
If the cells that it has read in the first one, outside of every other body, have one entry in the
tables of both, then it reads the same cells in the second one, in the same order, and ends with the
same fault or with a value that is the same up to the identities of what has been built on the way. A
part of the expression that was left out in the first state can be any other expression. -/
theorem evaluate_relevant (left : A.Shows M a) (right : B.Shows N b)
    (standing : ∀ c, A.standing c = B.standing c) (known : context.Common M N)
    (literals : e.Over (Value.Common M N)) : ∃ o A' enough,
      (∀ depth, enough ≤ depth → run depth (e.evaluate context) (A.pushFrame (some [])) = some (o, A')) ∧
      ((∀ c : Cell, c.node ∈ A'.collected → a c = b c) → ∃ R o' B' enough',
        (∀ depth, enough' ≤ depth →
          run depth (e.evaluate context) (B.pushFrame (some [])) = some (o', B')) ∧
        B'.collected = A'.collected ∧ o.Matches R o' ∧ OneToOne R ∧
        ∀ i j, R i j → (∃ n, M i = some n ∧ N j = some n) ∨ A.identities ≤ i ∨ B.identities ≤ j) ∧
      ∀ e', e.Spares context (A.pushFrame (some [])) e' → ∀ depth, enough ≤ depth →
        run depth (e'.evaluate context) (A.pushFrame (some [])) = some (o, A') := by
  have abreast : Abreast a b M N (fun _ _ => False) (A.pushFrame (some [])) (B.pushFrame (some [])) :=
    ⟨left.frames _, right.frames _, standing, ⟨[], rfl, rfl⟩, fun _ _ h => h.elim, fun _ _ _ _ h => h.elim⟩
  obtain ⟨o, A', enough, ran⟩ := evaluate_ends abreast.left literals context
  refine ⟨o, A', enough, ran, fun same => ?_, fun e' spares depth hdepth => ?_⟩
  · have matched : (e.evaluate (σ := σ) context).Matched (Linked M N fun _ _ => False)
        (e.evaluate context) :=
      (literals.mono fun _ h => h.linked).matched known.linked _ (fun _ _ => .inl) abreast.oneToOne
    obtain ⟨M', N', pairs, o', B', advance, ends, enough', ran'⟩ :=
      abreast.exec matched rfl (ran enough le_rfl) same
    refine ⟨_, o', B', enough', ran', ?_, ends, advance.abreast.oneToOne, ?_⟩
    · obtain ⟨xs, hleft, hright⟩ := advance.abreast.collecting
      rw [collected_of_head? hleft, collected_of_head? hright]
    · rintro i j (⟨n, hi, hj⟩ | hpair)
      · by_cases old : i < A.identities ∧ j < B.identities
        · exact .inl ⟨n, (advance.left.names i old.1).symm.trans hi,
            (advance.right.names j old.2).symm.trans hj⟩
        · exact .inr (by omega)
      · exact .inr (.inl ((advance.new hpair).resolve_left id).1)
  · rw [← spares.run_eq]
    exact ran depth hdepth

end Relevance

namespace Choice

def flag : NodeId := ⟨0, 0⟩
def taken : NodeId := ⟨1, 0⟩
def other : NodeId := ⟨2, 0⟩

def withSignal (value : Value) (g : Graph (Program Unit)) : Graph (Program Unit) :=
  (g.insertNode (.signal value) .clean none).2

/-- Three signals; the text is what the last one holds. -/
def state (text : String) : Engine Unit :=
  { start .default () with
    graph := withSignal (.text text) (withSignal (.text "a") (withSignal (.bool true) .empty))
    identities := 1 }

def context : Value :=
  .object 0 [("flag", .cell ⟨.signal, flag⟩), ("x", .cell ⟨.signal, taken⟩), ("y", .cell ⟨.signal, other⟩)]

def condition : Expr := .path [.key "flag"]
def whenTrue : Expr := .path [.key "x"]
def whenFalse : Expr := .path [.key "y"]

def naming : Naming := fun i => if i = 0 then some 0 else none

theorem shows (text : String) : (state text).Shows naming (state text).answer := by
  have plain : PlainSignals (state text).graph :=
    ((plainSignals_empty.insert rfl).insert rfl).insert rfl
  refine plain.shows ⟨?_, ?_⟩
  · intro i j n hi hj
    simp_all [naming]
  · intro i n hi
    simp_all [naming, state]

theorem node?_state (text : String) (id : NodeId) : (state text).graph.node? id =
    if id = other then some ⟨.signal (.text text), .clean, [], [], none⟩
    else if id = taken then some ⟨.signal (.text "a"), .clean, [], [], none⟩
    else if id = flag then some ⟨.signal (.bool true), .clean, [], [], none⟩
    else none := by
  simp only [state, Choice.withSignal, Graph.node?_insertNode]
  rfl

theorem standing_state (text text' : String) (c : Cell) :
    (state text).standing c = (state text').standing c := by
  rw [standing, standing, node?_state, node?_state]
  split_ifs <;> cases c.kind <;> rfl

theorem common : context.Common naming naming :=
  have hmatches : context.Matches naming.Names context :=
    Value.matches_object.2 ⟨rfl, .cons ⟨rfl, .scalar rfl⟩ (.cons ⟨rfl, .scalar rfl⟩
      (.cons ⟨rfl, .scalar rfl⟩ .nil))⟩
  ⟨_, hmatches, hmatches⟩

end Choice

open Choice in
/-- The third signal is not read, and can hold anything; so can the third operand be anything. -/
theorem evaluate_relevant_choice :
    (∃ B' enough, B'.collected = [flag, taken] ∧ ∀ depth, enough ≤ depth →
      run depth ((conditional condition whenTrue whenFalse).evaluate context)
        ((state "c").pushFrame (some [])) = some (.ok (.text "a"), B')) ∧
    ∀ e, ∃ A' enough, A'.collected = [flag, taken] ∧ ∀ depth, enough ≤ depth →
      run depth ((conditional condition whenTrue e).evaluate context)
        ((state "b").pushFrame (some [])) = some (.ok (.text "a"), A') := by
  have hran (depth : Nat) : run (depth + 3) ((conditional condition whenTrue whenFalse).evaluate context)
      ((state "b").pushFrame (some [])) =
        some (.ok (.text "a"), { state "b" with tracking := [some [flag, taken]] }) := rfl
  obtain ⟨o, A', enough, ran, same, spared⟩ := evaluate_relevant
    (e := conditional condition whenTrue whenFalse) (shows "b") (shows "c") (standing_state "b" "c") common
    (.conditional (.path _) (.path _) (.path _))
  obtain ⟨rfl, rfl⟩ := Prod.mk.inj (Option.some.inj
    ((hran enough).symm.trans (ran (enough + 3) (Nat.le_add_right _ _))))
  constructor
  · obtain ⟨R, o', B', enough', ran', collected, ends, -⟩ := same fun c hc => by
      obtain ⟨kind, node⟩ := c
      obtain rfl | rfl : node = flag ∨ node = taken := by simpa [collected] using hc
      all_goals cases kind <;> rfl
    obtain rfl : o' = .ok (.text "a") := by
      cases o' with
      | error => cases ends
      | ok v =>
        cases ends
        rfl
    exact ⟨B', enough', collected, ran'⟩
  · intro e
    refine ⟨_, enough, rfl, spared _ (.whenFalse fun {depth v A₁} ran falsy => ?_)⟩
    -- one step of depth to follow the signal, and one for the value it holds
    rcases depth with _ | _ | depth <;> cases ran <;> cases falsy

end Expr

end LiveTemplate
