import Mathlib.Order.Interval.Set.Defs
import LiveTemplate.Binding
import LiveTemplate.Proofs.Expr.Parametric
import LiveTemplate.Proofs.Expr.Soundness
import LiveTemplate.Proofs.Value.Identity

/-!
# What bindings make of identities

An array or object that an expression writes is new each time. How a template is evaluated does not
depend on which identities the new ones get: with other identities it follows the same cells and ends
with the same content (`Program.Akin`). For an expression compares identities with `===` only, it cannot
come by one of its own aggregates twice, and a new aggregate is never the same as a known one
(`Value.Akin.same`).

So what the computed of a binding does is steady (`Binding.steady_body`).
-/
namespace LiveTemplate

open Reactive

/-! ## Values -/

namespace Value

/-- Two values of the same content, both with the same known identity if with any, or both with a new
one from the range on its side. -/
structure Akin (k : Nat) (mine theirs : Set Nat) (v w : Value) : Prop where
  content : v.erase = w.erase
  left : v.Proper
  right : w.Proper
  identity : (v.identity? = w.identity? ∧ ∀ i, v.identity? = some i → i < k) ∨
    ∃ i ∈ mine, ∃ j ∈ theirs, v.identity? = some i ∧ w.identity? = some j

variable {k a a₁ a₂ b b₁ b₂ : Nat} {mine theirs : Set Nat} {v w v' w' : Value}

theorem Akin.of_made {offers : Cell → Prop} (h : v.Made k offers) : v.Akin k mine theirs v :=
  ⟨rfl, h.proper, h.proper, .inl ⟨rfl, fun _ => h.identity_lt⟩⟩

theorem Akin.mono {mine' theirs' : Set Nat} (h : v.Akin k mine theirs w) (left : mine ⊆ mine')
    (right : theirs ⊆ theirs') : v.Akin k mine' theirs' w := by
  refine ⟨h.content, h.left, h.right, h.identity.imp_right ?_⟩
  rintro ⟨i, hi, j, hj, identities⟩
  exact ⟨i, left hi, j, right hj, identities⟩

theorem Akin.toText (h : v.Akin k mine theirs w) : v.toText = w.toText := by
  rw [← toText_erase v, h.content, toText_erase]

theorem Akin.isTruthy (h : v.Akin k mine theirs w) : v.isTruthy = w.isTruthy := by
  rw [← isTruthy_erase v, h.content, isTruthy_erase]

/-- Values that came up one after the other have the same identity on one side if on the other. -/
theorem Akin.same (hv : v.Akin k (Set.Ico a a₁) (Set.Ico b b₁) w)
    (hw : v'.Akin k (Set.Ico a₁ a₂) (Set.Ico b₁ b₂) w') (left : k ≤ a ∧ a ≤ a₁)
    (right : k ≤ b ∧ b ≤ b₁) : v.same v' = w.same w' := by
  rw [same_eq, same_eq w, hv.content, hw.content]
  congr 1
  rcases hv.identity with ⟨heq, hlt⟩ | ⟨i, hi, j, hj, hvi, hwj⟩ <;>
    rcases hw.identity with ⟨heq', hlt'⟩ | ⟨i', hi', j', hj', hvi', hwj'⟩
  · rw [heq, heq']
  · -- a known one and a new one
    rw [hvi', hwj', ← heq, Bool.eq_iff_iff, beq_iff_eq, beq_iff_eq]
    refine ⟨fun h => ?_, fun h => ?_⟩ <;> have := hlt _ h <;> simp only [Set.mem_Ico] at hi' hj' <;>
      omega
  · rw [hvi, hwj, ← heq', Bool.eq_iff_iff, beq_iff_eq, beq_iff_eq]
    refine ⟨fun h => ?_, fun h => ?_⟩ <;> have := hlt' _ h.symm <;>
      simp only [Set.mem_Ico] at hi hj <;> omega
  · -- two new ones are different
    simp only [Set.mem_Ico] at hi hj hi' hj'
    rw [hvi, hwj, hvi', hwj', Bool.eq_iff_iff, beq_iff_eq, beq_iff_eq]
    refine ⟨fun h => ?_, fun h => ?_⟩ <;> have := Option.some.inj h <;> omega

/-! ## Lists and fields -/

/-- Lists of proper values, item by item of the same content. -/
structure AkinItems (xs ys : List Value) : Prop where
  content : eraseItems xs = eraseItems ys
  left : ∀ x ∈ xs, x.Proper
  right : ∀ y ∈ ys, y.Proper

theorem AkinItems.nil : AkinItems [] [] :=
  ⟨rfl, by simp, by simp⟩

theorem AkinItems.concat {xs ys : List Value} (h : AkinItems xs ys) (hv : v.Akin k mine theirs w) :
    AkinItems (xs ++ [v]) (ys ++ [w]) := by
  have hcontent := h.content
  simp only [eraseItems_eq] at hcontent
  refine ⟨by simp [eraseItems_eq, hcontent, hv.content], fun x hx => ?_, fun y hy => ?_⟩
  · rcases List.mem_append.1 hx with hx | hx
    · exact h.left x hx
    · exact List.mem_singleton.1 hx ▸ hv.left
  · rcases List.mem_append.1 hy with hy | hy
    · exact h.right y hy
    · exact List.mem_singleton.1 hy ▸ hv.right

/-- Tables of proper values with the same keys, field by field of the same content. -/
structure AkinFields (xs ys : Fields) : Prop where
  content : eraseFields xs = eraseFields ys
  keys : (Table.keys xs).Nodup
  left : ∀ p ∈ xs, p.2.Proper
  right : ∀ p ∈ ys, p.2.Proper

theorem AkinFields.nil : AkinFields [] [] :=
  ⟨rfl, by simp [Table.keys], by simp, by simp⟩

theorem eraseFields_set (key : String) (v : Value) (fields : Fields) :
    eraseFields (fields.set key v) = Table.set key v.erase (eraseFields fields) := by
  induction fields with
  | nil => rfl
  | cons p rest ih =>
    obtain ⟨k, x⟩ := p
    by_cases h : k = key <;> simp [Table.set, eraseFields, h, ih]

theorem forall_mem_set {P : Value → Prop} {key : String} {fields : Fields}
    (each : ∀ p ∈ fields, P p.2) (hv : P v) : ∀ p ∈ fields.set key v, P p.2 := by
  induction fields with
  | nil => simpa [Table.set] using hv
  | cons q rest ih =>
    obtain ⟨hfirst, hrest⟩ := List.forall_mem_cons.1 each
    rw [Table.set]
    split
    · exact List.forall_mem_cons.2 ⟨hv, hrest⟩
    · exact List.forall_mem_cons.2 ⟨hfirst, ih hrest⟩

theorem AkinFields.set {xs ys : Fields} (h : AkinFields xs ys) (key : String)
    (hv : v.Akin k mine theirs w) : AkinFields (xs.set key v) (ys.set key w) := by
  refine ⟨by rw [eraseFields_set, eraseFields_set, h.content, hv.content], ?_,
    forall_mem_set h.left hv.left, forall_mem_set h.right hv.right⟩
  rw [Table.keys_set]
  split
  next => exact h.keys
  next hnew =>
    refine List.nodup_append.2 ⟨h.keys, by simp, fun x hx y hy => ?_⟩
    rintro rfl
    exact hnew (List.mem_singleton.1 hy ▸ hx)

theorem AkinFields.keys_right {xs ys : Fields} (h : AkinFields xs ys) : (ys.map (·.1)).Nodup := by
  rw [← keys_eraseFields, ← h.content, keys_eraseFields]
  exact h.keys

end Value

/-! ## Programs -/

namespace Reactive.Program

variable {σ : Type} {k : Nat} {offers : Cell → Prop} {V W : Nat → Nat → Value → Value → Prop}
  {a b : Nat} {p q : Program σ}

/-- Two programs that are given identities from `a` and from `b` on: they follow the same cells, all of
them on offer, and end with related values or with the same fault, as long as what they follow leads to
the same plain data or to the same fault. -/
inductive Akin (k : Nat) (offers : Cell → Prop) (V : Nat → Nat → Value → Value → Prop) :
    Nat → Nat → Program σ → Program σ → Prop where
  | done {a b : Nat} {v w : Value} (related : V a b v w) : Akin k offers V a b (done (.ok v)) (done (.ok w))
  | failed {a b : Nat} (fault : Fault) : Akin k offers V a b (fail fault) (fail fault)
  | reached {a b : Nat} {v : Value} {next next' : Outcome → Program σ} (free : v.isReactive = false)
      (rest : Akin k offers V a b (next (.ok v)) (next' (.ok v))) :
      Akin k offers V a b (unwrap v next) (unwrap v next')
  | follow {a b : Nat} {c : Cell} {next next' : Outcome → Program σ} (offered : offers c)
      (rest : ∀ r : Outcome, (∀ v, r = .ok v → v.Plain k) → Akin k offers V a b (next r) (next' r)) :
      Akin k offers V a b (unwrap (.cell c) next) (unwrap (.cell c) next')
  | fresh {a b : Nat} {next next' : Nat → Program σ}
      (rest : ∀ i j, a ≤ i → b ≤ j → Akin k offers V (i + 1) (j + 1) (next i) (next' j)) :
      Akin k offers V a b (fresh next) (fresh next')

theorem Akin.mono {offers' : Cell → Prop} (h : Akin k offers V a b p q)
    (more : ∀ c, offers c → offers' c)
    (weaker : ∀ {a' b' v w}, a ≤ a' → b ≤ b' → V a' b' v w → W a' b' v w) :
    Akin k offers' W a b p q := by
  induction h with
  | done related => exact .done (weaker (Nat.le_refl _) (Nat.le_refl _) related)
  | failed fault => exact .failed fault
  | reached free _ ih => exact .reached free (ih weaker)
  | follow offered _ ih => exact .follow (more _ offered) fun r hr => ih r hr weaker
  | fresh _ ih =>
    exact .fresh fun i j hi hj => ih i j hi hj fun ha hb => weaker (by omega) (by omega)

theorem Akin.bind {f g : Value → Program σ} (h : Akin k offers V a b p q)
    (next : ∀ {a' b' v w}, a ≤ a' → b ≤ b' → V a' b' v w → Akin k offers W a' b' (f v) (g w)) :
    Akin k offers W a b (p.bind f) (q.bind g) := by
  induction h with
  | done related => exact next (Nat.le_refl _) (Nat.le_refl _) related
  | failed fault => exact .failed fault
  | reached free _ ih => exact .reached free (ih next)
  | follow offered _ ih => exact .follow offered fun r hr => ih r hr next
  | fresh _ ih =>
    exact .fresh fun i j hi hj => ih i j hi hj fun ha hb => next (by omega) (by omega)

/-- A program that, if it ends well, ends with a text. -/
def Tells (p : Program σ) : Prop :=
  ∀ ⦃depth : Nat⦄ ⦃refresh : NodeId → Engine σ → Option (Engine σ)⦄ ⦃e e' : Engine σ⦄ ⦃v : Value⦄,
    p.exec depth refresh e = some (.ok v, e') → ∃ s, v = .text s

theorem tells_text (s : String) : (Program.pure (σ := σ) (.text s)).Tells := by
  intro _ _ _ _ _ h
  exact ⟨s, (Except.ok.inj (Prod.mk.inj (Option.some.inj h)).1).symm⟩

theorem Tells.bind {f : Value → Program σ} (h : ∀ v, (f v).Tells) : (p.bind f).Tells := by
  intro _ _ _ _ _ ran
  rw [Program.bind, exec_handle] at ran
  obtain ⟨⟨o, e₁⟩, -, ran⟩ := Option.bind_eq_some_iff.1 ran
  cases o with
  | ok v => exact h v ran
  | error fault => simp [fail, exec] at ran

/-- Whatever identities a program is given, if they are new, it follows the same cells and ends with
the same content. -/
def Steady (k : Nat) (offers : Cell → Prop) (p : Program σ) : Prop :=
  ∀ known a b, k ≤ known → known ≤ a → known ≤ b →
    p.Akin known offers (fun _ _ v w => v.erase = w.erase ∧ v.Proper ∧ w.Proper) a b p

theorem Steady.mono {k' : Nat} {offers' : Cell → Prop} (h : p.Steady k offers) (le : k ≤ k')
    (more : ∀ c, offers c → offers' c) : p.Steady k' offers' :=
  fun known a b hk ha hb => (h known a b (by omega) ha hb).mono more fun _ _ hv => hv

end Reactive.Program

/-! ## Paths -/

theorem Value.Made.member {k : Nat} {offers : Cell → Prop} {v : Value} (h : v.Made k offers)
    (segment : Segment) : (v.member segment).Made k offers := by
  cases h with
  | array _ each =>
    cases segment with
    | index i => exact .of_getElem? each i
    | key name =>
      simp only [Value.member]
      split
      · exact .number _
      · split
        · exact .of_getElem? each _
        · exact .undefined
  | object _ _ each =>
    cases segment with
    | index i => exact .of_get? each _
    | key name => exact .of_get? each _
  | text s =>
    cases segment with
    | index i =>
      simp only [Value.member]
      split
      · exact .text _
      · exact .undefined
    | key name =>
      simp only [Value.member]
      split
      · exact .number _
      · exact .undefined
  | _ => exact .undefined

section Evaluation

open Program

variable {σ : Type} {k : Nat} {offers : Cell → Prop} {V W : Nat → Nat → Value → Value → Prop}
  {a b : Nat}

/-- The ends of an evaluation that began with these identities. -/
def Brought (k a b : Nat) : Nat → Nat → Value → Value → Prop :=
  fun a' b' v w => v.Akin k (Set.Ico a a') (Set.Ico b b') w

theorem akin_settle {v : Value} {f g : Value → Program σ} (made : v.Made k offers)
    (next : ∀ w : Value, w.Made k offers → Akin k offers W a b (f w) (g w)) :
    Akin k offers W a b ((Program.settle v).bind f) ((Program.settle v).bind g) := by
  cases made with
  | cell offered =>
    refine .follow offered fun r plain => ?_
    cases r with
    | error fault => exact .failed fault
    | ok w => exact next w ((plain w rfl).mono (Nat.le_refl _) fun _ => False.elim)
  | undefined => exact .reached rfl (next _ .undefined)
  | null => exact .reached rfl (next _ .null)
  | bool b => exact .reached rfl (next _ (.bool b))
  | number x => exact .reached rfl (next _ (.number x))
  | text s => exact .reached rfl (next _ (.text s))
  | array known each => exact .reached rfl (next _ (.array known each))
  | object known keys each => exact .reached rfl (next _ (.object known keys each))

theorem Path.akin_walk {path : Path} {v : Value} (made : v.Made k offers) :
    Akin (σ := σ) k offers (Brought k a b) a b (walk v path) (walk v path) := by
  induction path generalizing v with
  | nil => exact .done (.of_made made)
  | cons segment rest ih =>
    rw [walk]
    split
    · exact .done (.of_made (show Value.Made k offers .undefined from .undefined))
    · exact akin_settle (made.member segment) fun w hw => ih hw

theorem Path.akin_resolve (path : Path) {context : Value} (made : context.Made k offers) :
    Akin (σ := σ) k offers (Brought k a b) a b (resolve path context) (resolve path context) :=
  akin_settle made fun _ hw => akin_walk hw

/-! ## Expressions -/

/-- The literals in the expression are scalars. -/
abbrev Expr.Written : Expr → Prop :=
  Over fun v => ∀ k, v.Plain k

theorem Expr.Derives.written {phrase : Phrase} {ts : List Lexeme} {e : Expr}
    (h : Derives phrase ts e) : e.Written := by
  induction h with
  | operation _ ih | tighter _ ih | operand _ ih | primary _ ih | group _ _ _ ih | array _ _ _ ih
  | object _ _ _ ih => exact ih
  | conditional _ _ _ _ _ ihc iht ihf => exact .conditional ihc iht ihf
  | binary _ _ _ ihl ihr => exact .binary ihl ihr
  | unary _ _ ih => exact .unary ih
  | number => exact .literal fun _ => .number _
  | text => exact .literal fun _ => .text _
  | keyword _ listed =>
    refine .literal fun _ => ?_
    have hmem := Value.mem_of_lookup listed
    simp only [keywords, List.mem_cons, Prod.mk.injEq, List.not_mem_nil, or_false] at hmem
    obtain ⟨-, rfl⟩ | ⟨-, rfl⟩ | ⟨-, rfl⟩ | ⟨-, rfl⟩ | ⟨-, rfl⟩ | ⟨-, rfl⟩ := hmem <;> constructor
  | path => exact .path _
  | noItem => exact .array nofun
  | item _ ih => exact .array (by simpa using ih)
  | nextItem _ _ _ ih ihRest =>
    cases ihRest with
    | array each => exact .array (List.forall_mem_cons.2 ⟨ih, each⟩)
  | noField => exact .object nofun
  | field _ _ _ ih => exact .object (by simpa using ih)
  | nextField _ _ _ _ _ ih ihRest =>
    cases ihRest with
    | object each => exact .object (List.forall_mem_cons.2 ⟨ih, each⟩)

namespace Expr

variable {context : Value}

/-- How one expression is evaluated, whatever identities it is given. -/
def Steady (σ : Type) (k : Nat) (offers : Cell → Prop) (context : Value) (e : Expr) : Prop :=
  ∀ a b, k ≤ a → k ≤ b →
    Akin (σ := σ) k offers (Brought k a b) a b (e.evaluate context) (e.evaluate context)

theorem akin_evaluateItems {items : List Expr} (each : ∀ e ∈ items, e.Steady σ k offers context)
    {known known' : List Value} (akin : Value.AkinItems known known')
    {next next' : List Value → Program σ} (left : k ≤ a) (right : k ≤ b)
    (rest : ∀ {a' b' xs ys}, a ≤ a' → b ≤ b' → Value.AkinItems xs ys →
      Akin k offers W a' b' (next xs) (next' ys)) :
    Akin k offers W a b (evaluateItems context items known next)
      (evaluateItems context items known' next') := by
  induction items generalizing a b known known' with
  | nil =>
    rw [evaluateItems, evaluateItems]
    exact rest (Nat.le_refl _) (Nat.le_refl _) akin
  | cons e items ih =>
    rw [evaluateItems, evaluateItems]
    obtain ⟨hfirst, hrest⟩ := List.forall_mem_cons.1 each
    refine (hfirst a b left right).bind fun ha hb hv => ?_
    exact ih hrest (akin.concat hv) (by omega) (by omega) fun ha' hb' => rest (by omega) (by omega)

theorem akin_evaluateFields {fields : List (String × Expr)}
    (each : ∀ p ∈ fields, p.2.Steady σ k offers context) {known known' : Fields}
    (akin : Value.AkinFields known known') {next next' : Fields → Program σ} (left : k ≤ a)
    (right : k ≤ b) (rest : ∀ {a' b' xs ys}, a ≤ a' → b ≤ b' → Value.AkinFields xs ys →
      Akin k offers W a' b' (next xs) (next' ys)) :
    Akin k offers W a b (evaluateFields context fields known next)
      (evaluateFields context fields known' next') := by
  induction fields generalizing a b known known' with
  | nil =>
    rw [evaluateFields, evaluateFields]
    exact rest (Nat.le_refl _) (Nat.le_refl _) akin
  | cons p fields ih =>
    obtain ⟨key, e⟩ := p
    rw [evaluateFields, evaluateFields]
    obtain ⟨hfirst, hrest⟩ := List.forall_mem_cons.1 each
    refine (hfirst a b left right).bind fun ha hb hv => ?_
    exact ih hrest (akin.set key hv) (by omega) (by omega) fun ha' hb' => rest (by omega) (by omega)

/-- A new array of the same content on both sides. -/
theorem akin_newArray {a' b' : Nat} {xs ys : List Value} (akin : Value.AkinItems xs ys) (ha : a ≤ a')
    (hb : b ≤ b') : Akin (σ := σ) k offers (Brought k a b) a' b' (newArray xs) (newArray ys) := by
  refine .fresh fun i j hi hj => .done ⟨?_, .array _ akin.left, .array _ akin.right, .inr ?_⟩
  · rw [Value.erase, Value.erase, akin.content]
  · exact ⟨i, ⟨by omega, by omega⟩, j, ⟨by omega, by omega⟩, rfl, rfl⟩

theorem akin_newObject {a' b' : Nat} {xs ys : Fields} (akin : Value.AkinFields xs ys) (ha : a ≤ a')
    (hb : b ≤ b') : Akin (σ := σ) k offers (Brought k a b) a' b' (newObject xs) (newObject ys) := by
  refine .fresh fun i j hi hj => .done ⟨?_, .object _ akin.keys akin.left,
    .object _ akin.keys_right akin.right, .inr ?_⟩
  · rw [Value.erase, Value.erase, akin.content]
  · exact ⟨i, ⟨by omega, by omega⟩, j, ⟨by omega, by omega⟩, rfl, rfl⟩

/-- What was brought by a later part of an evaluation. -/
theorem Steady.later {e : Expr} (h : e.Steady σ k offers context) {a' b' : Nat} (left : k ≤ a)
    (right : k ≤ b) (ha : a ≤ a') (hb : b ≤ b') :
    Akin (σ := σ) k offers (Brought k a b) a' b' (e.evaluate context) (e.evaluate context) :=
  (h a' b' (by omega) (by omega)).mono (fun _ h => h) fun _ _ hv =>
    hv.mono (Set.Ico_subset_Ico_left ha) (Set.Ico_subset_Ico_left hb)

theorem Written.steady {e : Expr} (h : e.Written) (made : context.Made k offers) :
    e.Steady σ k offers context := by
  induction h with
  | literal plain => exact fun a b _ _ => .done (.of_made (plain k))
  | path p => exact fun a b _ _ => p.akin_resolve made
  | array each ih =>
    intro a b ha hb
    rw [evaluate]
    exact akin_evaluateItems ih .nil ha hb fun ha' hb' akin => akin_newArray akin ha' hb'
  | object each ih =>
    intro a b ha hb
    rw [evaluate]
    exact akin_evaluateFields ih .nil ha hb fun ha' hb' akin =>
      akin_newObject akin ha' hb'
  | @unary op _ _ ih =>
    intro a b ha hb
    rw [evaluate]
    refine (ih a b ha hb).bind fun _ _ hv => ?_
    rw [Value.unary_congr op hv.content]
    exact .done (.of_made (Value.plain_unary op _))
  | @binary op _ _ _ _ ihl ihr =>
    intro a b ha hb
    by_cases heager : op ≠ .and ∧ op ≠ .or
    · rw [evaluate_eager heager]
      refine (ihl a b ha hb).bind fun ha' hb' hv => ?_
      refine (ihr _ _ (by omega) (by omega)).bind fun _ _ hw => ?_
      rw [Value.binary_congr heager hv.content hw.content (hv.same hw ⟨ha, ha'⟩ ⟨hb, hb'⟩)]
      exact .done (.of_made (Value.plain_binary heager _ _))
    · obtain rfl | rfl : op = .and ∨ op = .or := by simpa [or_iff_not_imp_left] using heager
      all_goals
        rw [evaluate]
        refine (ihl a b ha hb).bind fun ha' hb' hv => ?_
        rw [hv.isTruthy]
        split
      · exact ihr.later ha hb ha' hb'
      · exact .done hv
      · exact .done hv
      · exact ihr.later ha hb ha' hb'
  | conditional _ _ _ ihc iht ihf =>
    intro a b ha hb
    rw [evaluate]
    refine (ihc a b ha hb).bind fun ha' hb' hv => ?_
    rw [hv.isTruthy]
    split
    · exact iht.later ha hb ha' hb'
    · exact ihf.later ha hb ha' hb'

end Expr

/-! ## Templates -/

namespace Template

/-- The literals in the regions are scalars. -/
def Written (t : Template) : Prop :=
  ∀ e ∈ t.expressions, e.Written

theorem written_of_partsOfChunks {chunks : List Chunk} {parts : List Part}
    (h : partsOfChunks chunks = .ok parts) {source : String} {e : Expr}
    (mem : Part.expression source e ∈ parts) : e.Written := by
  induction chunks generalizing parts with
  | nil =>
    obtain rfl := Except.ok.inj h
    cases mem
  | cons chunk rest ih =>
    cases chunk with
    | text s =>
      rw [partsOfChunks] at h
      cases hrest : partsOfChunks rest <;> simp only [hrest, Except.map, reduceCtorEq] at h
      obtain rfl := Except.ok.inj h
      exact ih hrest (by simpa using mem)
    | region inside offset =>
      rw [partsOfChunks] at h
      cases hparse : Expr.parse inside <;> simp only [hparse, reduceCtorEq] at h
      cases hrest : partsOfChunks rest <;> simp only [hrest, Except.map, reduceCtorEq] at h
      obtain rfl := Except.ok.inj h
      simp only [List.mem_cons, Part.expression.injEq] at mem
      rcases mem with ⟨rfl, rfl⟩ | mem
      · obtain ⟨_, -, derives⟩ := Expr.derives_of_parse hparse
        exact derives.written
      · exact ih hrest mem

theorem written_of_parse {source : String} {t : Template} (parsed : parse source = .ok t) :
    t.Written := by
  have hwritten (h : ∀ source e, Part.expression source e ∈ t.parts → e.Written) : t.Written := by
    intro e he
    obtain ⟨part, hpart, hsome⟩ := List.mem_filterMap.1 he
    cases part with
    | text s => cases hsome
    | expression source e' =>
      obtain rfl := Option.some.inj hsome
      exact h source e' hpart
  obtain ⟨-, ⟨-, hparts⟩ | ⟨-, chunks, -, hparts⟩⟩ := parse_eq_ok parsed
  · exact hwritten fun source e h => by simp [hparts] at h
  · exact hwritten fun source e => written_of_partsOfChunks hparts

variable {context : Value}

theorem akin_renderParts {parts : List Part}
    (written : ∀ src e, Part.expression src e ∈ parts → e.Written) (made : context.Made k offers)
    (text : String) (left : k ≤ a) (right : k ≤ b) :
    Akin (σ := σ) k offers (fun _ _ v w => ∃ s, v = .text s ∧ w = .text s) a b
      (renderParts context text parts) (renderParts context text parts) := by
  induction parts generalizing text a b with
  | nil => exact .done ⟨text, rfl, rfl⟩
  | cons part rest ih =>
    have hrest := fun src e h => written src e (List.mem_cons_of_mem _ h)
    cases part with
    | text s => exact ih hrest (text ++ s) left right
    | expression src e =>
      rw [renderParts]
      refine ((written src e (by simp)).steady made a b left right).bind fun ha hb hv => ?_
      rw [hv.toText]
      exact ih hrest _ (by omega) (by omega)

theorem tells_render (t : Template) (context : Value) : (t.render (σ := σ) context).Tells := by
  have hparts (text : String) (parts : List Part) :
      (renderParts (σ := σ) context text parts).Tells := by
    induction parts generalizing text with
    | nil => exact tells_text text
    | cons part rest ih =>
      cases part with
      | text s => exact ih (text ++ s)
      | expression src e => exact .bind fun v => ih _
  unfold render
  split
  · exact tells_text _
  · exact hparts "" t.parts

theorem steady_render {t : Template} (written : t.Written) (made : context.Made k offers) :
    (t.render (σ := σ) context).Steady k offers := by
  intro known a b hk ha hb
  unfold render
  split
  · exact .done ⟨rfl, .text _, .text _⟩
  · refine (akin_renderParts (fun src e h => written e ?_) (made.mono hk fun _ h => h) "" ha hb).mono
      (fun _ h => h) ?_
    · exact List.mem_filterMap.2 ⟨_, h, rfl⟩
    · rintro _ _ _ _ - - ⟨s, rfl, rfl⟩
      exact ⟨rfl, .text s, .text s⟩

theorem steady_evaluate {t : Template} (written : t.Written) (made : context.Made k offers) :
    (t.evaluate (σ := σ) context).Steady k offers := by
  unfold evaluate
  split
  next e pure =>
    intro known a b hk ha hb
    have hmem : e ∈ t.expressions := by
      unfold pure? at pure
      split at pure
      next hparts => simp_all [expressions]
      next => cases pure
    exact ((written e hmem).steady (made.mono hk fun _ h => h) a b ha hb).mono (fun _ h => h)
      fun _ _ hv => ⟨hv.content, hv.left, hv.right⟩
  next => exact steady_render written made

end Template

namespace Binding

variable {context : Value}

theorem body_eq_render {kind : BindingKind} (coerced : kind ≠ .property) (t : Template)
    (context : Value) : body (σ := σ) kind t context = t.render context := by
  cases kind with
  | property => exact absurd rfl coerced
  | _ => simp only [body, Template.render]; cases t.constant? <;> rfl

theorem steady_body (kind : BindingKind) {t : Template} (written : t.Written)
    (made : context.Made k offers) : (body (σ := σ) kind t context).Steady k offers := by
  by_cases coerced : kind = .property
  · subst coerced
    unfold body
    split
    · exact fun _ _ _ _ _ _ => .done ⟨rfl, .text _, .text _⟩
    · exact Template.steady_evaluate written made
  · rw [body_eq_render coerced]
    exact Template.steady_render written made

end Binding

end Evaluation

end LiveTemplate
