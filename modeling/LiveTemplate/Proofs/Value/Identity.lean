import LiveTemplate.Proofs.Value.Agreement
import LiveTemplate.Value.Operation

/-!
# Values and the identities in them

Only the comparison of identity looks at identities. All else that is computed from a value is a matter
of its content: the value with its identities erased.

A value is made of known things (`Value.Made`) if its identities lie below a bound, its cells are among
those on offer, and its objects list each key once. It is plain if no cells are on offer.
-/
namespace LiveTemplate.Value

@[elab_as_elim]
theorem induct {motive : Value → Prop} (undefined : motive .undefined) (null : motive .null)
    (bool : ∀ b, motive (.bool b)) (number : ∀ x, motive (.number x)) (text : ∀ s, motive (.text s))
    (array : ∀ i items, (∀ x ∈ items, motive x) → motive (.array i items))
    (object : ∀ i fields, (∀ p ∈ fields, motive p.2) → motive (.object i fields))
    (cell : ∀ c, motive (.cell c)) (v : Value) : motive v :=
  @Value.rec motive (fun items => ∀ x ∈ items, motive x) (fun fields => ∀ p ∈ fields, motive p.2)
    (fun p => motive p.2) undefined null bool number text array object cell nofun
    (fun _ _ first rest => List.forall_mem_cons.2 ⟨first, rest⟩) nofun
    (fun _ _ first rest => List.forall_mem_cons.2 ⟨first, rest⟩) (fun _ _ h => h) v

/-! ## Content -/

mutual

/-- The content of a value: every identity is zero. -/
def erase : Value → Value
  | array _ items => array 0 (eraseItems items)
  | object _ fields => object 0 (eraseFields fields)
  | v => v

def eraseItems : List Value → List Value
  | [] => []
  | v :: rest => erase v :: eraseItems rest

def eraseFields : List (String × Value) → List (String × Value)
  | [] => []
  | (key, v) :: rest => (key, erase v) :: eraseFields rest

end

-- their equations are derived once, here, and not wherever they are used first
attribute [local simp] erase eraseItems eraseFields

theorem eraseItems_eq (items : List Value) : eraseItems items = items.map erase := by
  induction items with
  | nil => rfl
  | cons v rest ih => rw [eraseItems, ih, List.map_cons]

theorem eraseFields_eq (fields : List (String × Value)) :
    eraseFields fields = fields.map fun p => (p.1, p.2.erase) := by
  induction fields with
  | nil => rfl
  | cons p rest ih => rw [eraseFields, ih, List.map_cons]

theorem keys_eraseFields (fields : List (String × Value)) :
    (eraseFields fields).map (·.1) = fields.map (·.1) := by
  simp [eraseFields_eq]

theorem lookup_eraseFields (key : String) (fields : List (String × Value)) :
    (eraseFields fields).lookup key = (fields.lookup key).map erase := by
  induction fields with
  | nil => rfl
  | cons p rest ih =>
    obtain ⟨k, v⟩ := p
    simp only [eraseFields, List.lookup_cons, ih]
    cases key == k <;> rfl

theorem joinedText_congr {xs ys : List Value} (h : xs.map toText = ys.map toText) :
    joinedText xs = joinedText ys := by
  induction xs generalizing ys with
  | nil =>
    obtain rfl : ys = [] := by simpa using h.symm
    rfl
  | cons x xs ih =>
    obtain _ | ⟨y, ys⟩ := ys
    · simp at h
    simp only [List.map_cons, List.cons.injEq] at h
    obtain ⟨hfirst, hrest⟩ := h
    cases xs with
    | nil =>
      obtain rfl : ys = [] := by simpa using hrest.symm
      simp only [joinedText, hfirst]
    | cons x' xs =>
      obtain _ | ⟨y', ys⟩ := ys
      · simp at hrest
      rw [joinedText, joinedText, hfirst, ih hrest]

@[simp] theorem toText_erase (v : Value) : v.erase.toText = v.toText := by
  induction v using induct with
  | array i items ih =>
    rw [erase, eraseItems_eq, toText, toText]
    exact joinedText_congr (by simpa using ih)
  | object => simp only [erase, toText]
  | _ => rfl

@[simp] theorem toNumber_erase (v : Value) : v.erase.toNumber = v.toNumber := by
  cases v with
  | array i items =>
    have h := toText_erase (.array i items)
    rw [erase] at h ⊢
    rw [toNumber, toNumber, h]
  | object => simp only [erase, toNumber]
  | _ => rfl

@[simp] theorem isTruthy_erase (v : Value) : v.erase.isTruthy = v.isTruthy := by
  cases v <;> simp only [erase, isTruthy]

@[simp] theorem isNullish_erase (v : Value) : v.erase.isNullish = v.isNullish := by
  cases v <;> simp only [erase, isNullish]

theorem equals_erase (v w : Value) : v.erase.equals w.erase = v.equals w := by
  induction v using induct generalizing w with
  | array i items ih =>
    cases w with
    | array j others =>
      simp only [erase, equals]
      induction items generalizing others with
      | nil => cases others <;> simp only [eraseItems, equalItems]
      | cons x xs ihItems =>
        obtain _ | ⟨y, ys⟩ := others
        · simp only [eraseItems, equalItems]
        simp only [eraseItems, equalItems]
        rw [ih x (by simp), ihItems (fun x hx => ih x (by simp [hx]))]
    | _ => simp only [erase, equals]
  | object i fields ih =>
    cases w with
    | object j others =>
      have hlength : (eraseFields fields).length = fields.length := by simp [eraseFields_eq]
      have hlength' : (eraseFields others).length = others.length := by simp [eraseFields_eq]
      simp only [erase, equals, hlength, hlength']
      congr 1
      clear hlength
      induction fields with
      | nil => simp only [eraseFields, fieldsWithin]
      | cons p rest ihFields =>
        obtain ⟨key, x⟩ := p
        simp only [eraseFields, fieldsWithin, lookup_eraseFields]
        rw [ihFields fun p hp => ih p (by simp [hp])]
        cases others.lookup key with
        | none => rfl
        | some y => simp only [Option.map_some, ih (key, x) (by simp) y]
    | _ => simp only [erase, equals]
  | _ => cases w <;> simp only [erase, equals]

theorem Proper.erase {v : Value} (h : v.Proper) : v.erase.Proper := by
  induction h with
  | array i _ ih =>
    rw [Value.erase, eraseItems_eq]
    exact .array 0 (by simpa using ih)
  | @object i fields keys _ ih =>
    rw [Value.erase]
    refine .object 0 (by rwa [keys_eraseFields]) fun p hp => ?_
    obtain ⟨q, hq, rfl⟩ := List.mem_map.1 (eraseFields_eq fields ▸ hp)
    exact ih q hq
  | _ => rw [Value.erase] <;> first | constructor | nofun

/-! ## Identity -/

/-- The identity of an aggregate. -/
def identity? : Value → Option Nat
  | array i _ | object i _ => some i
  | _ => none

/-- Values are the same if their contents are of one kind, and equal for scalars, and their identities
are the same. -/
theorem same_eq (v w : Value) :
    v.same w = (v.erase.same w.erase && v.identity? == w.identity?) := by
  cases v <;> cases w <;> simp only [erase, same, identity?] <;> simp

/-! ## Known things -/

/-- The identities in the value lie below the bound, the cells are on offer, and no object lists a key
twice. -/
inductive Made (bound : Nat) (offers : Cell → Prop) : Value → Prop where
  | undefined : Made bound offers .undefined
  | null : Made bound offers .null
  | bool (b : Bool) : Made bound offers (.bool b)
  | number (x : Float) : Made bound offers (.number x)
  | text (s : String) : Made bound offers (.text s)
  | array {i : Nat} {items : List Value} (known : i < bound)
      (each : ∀ x ∈ items, Made bound offers x) : Made bound offers (.array i items)
  | object {i : Nat} {fields : List (String × Value)} (known : i < bound)
      (keys : (fields.map (·.1)).Nodup) (each : ∀ p ∈ fields, Made bound offers p.2) :
      Made bound offers (.object i fields)
  | cell {c : Cell} (offered : offers c) : Made bound offers (.cell c)

/-- Plain data: a value without cells. -/
abbrev Plain (bound : Nat) : Value → Prop := Made bound fun _ => False

variable {bound bound' : Nat} {offers offers' : Cell → Prop} {v : Value}

theorem Made.mono (h : v.Made bound offers) (below : bound ≤ bound')
    (weaker : ∀ c, offers c → offers' c) : v.Made bound' offers' := by
  induction h with
  | undefined => exact .undefined
  | null => exact .null
  | bool b => exact .bool b
  | number x => exact .number x
  | text s => exact .text s
  | array known _ ih => exact .array (Nat.lt_of_lt_of_le known below) ih
  | object known keys _ ih => exact .object (Nat.lt_of_lt_of_le known below) keys ih
  | cell offered => exact .cell (weaker _ offered)

theorem Made.proper (h : v.Made bound offers) : v.Proper := by
  induction h with
  | undefined => exact .undefined
  | null => exact .null
  | bool b => exact .bool b
  | number x => exact .number x
  | text s => exact .text s
  | array _ _ ih => exact .array _ ih
  | object _ keys _ ih => exact .object _ keys ih
  | cell => exact .cell _

theorem Made.identity_lt (h : v.Made bound offers) {i : Nat} (identity : v.identity? = some i) :
    i < bound := by
  cases h <;> simp_all [identity?]

theorem Made.of_getElem? {items : List Value} (each : ∀ x ∈ items, Made bound offers x) (i : Nat) :
    (items[i]?.getD .undefined).Made bound offers := by
  cases h : items[i]? with
  | none => exact .undefined
  | some x => exact each x (List.mem_of_getElem? h)

theorem Made.of_get? {fields : Fields} (each : ∀ p ∈ fields, p.2.Made bound offers) (key : String) :
    ((Table.get? key fields).getD .undefined).Made bound offers := by
  cases h : Table.get? key fields with
  | none => exact .undefined
  | some x => exact each _ (mem_of_lookup h)

/-! ## Operations -/

section Operations

variable {k : Nat} {v w v' w' : Value}

theorem add_erase (v w : Value) : v.erase.add w.erase = v.add w := by
  have hv := toText_erase v
  have hw := toText_erase w
  cases v <;> cases w <;> simp only [erase] at hv hw ⊢ <;> simp only [add, hv, hw]

theorem less_erase (v w : Value) : v.erase.less w.erase = v.less w := by
  have hv := toNumber_erase v
  have hw := toNumber_erase w
  cases v <;> cases w <;> simp only [erase] at hv hw ⊢ <;> simp only [less, hv, hw]

theorem lessEqual_erase (v w : Value) : v.erase.lessEqual w.erase = v.lessEqual w := by
  have hv := toNumber_erase v
  have hw := toNumber_erase w
  cases v <;> cases w <;> simp only [erase] at hv hw ⊢ <;> simp only [lessEqual, hv, hw]

/-- Aggregates are compared by identity, and all else by content. -/
theorem looselyEquals_eq (v w : Value) : v.looselyEquals w =
    if v.erase.identity?.isSome || w.erase.identity?.isSome then v.same w
    else v.erase.looselyEquals w.erase := by
  cases v <;> cases w <;> simp [erase, identity?, looselyEquals, same, isNullish]

theorem looselyEquals_congr (hv : v.erase = w.erase) (hw : v'.erase = w'.erase)
    (same : v.same v' = w.same w') : v.looselyEquals v' = w.looselyEquals w' := by
  rw [looselyEquals_eq, looselyEquals_eq w, hv, hw, same]

/-- Operators that evaluate both operands look at content and at sameness only. -/
theorem binary_congr {op : BinaryOperator} (eager : op ≠ .and ∧ op ≠ .or) (hv : v.erase = w.erase)
    (hw : v'.erase = w'.erase) (same : v.same v' = w.same w') :
    Value.binary op v v' = Value.binary op w w' := by
  have number {x y : Value} (h : x.erase = y.erase) : x.toNumber = y.toNumber := by
    rw [← toNumber_erase x, h, toNumber_erase]
  have add : v.add v' = w.add w' := by rw [← add_erase, hv, hw, add_erase]
  have less {x y x' y' : Value} (h : x.erase = y.erase) (h' : x'.erase = y'.erase) :
      x.less x' = y.less y' := by rw [← less_erase, h, h', less_erase]
  have lessEqual {x y x' y' : Value} (h : x.erase = y.erase) (h' : x'.erase = y'.erase) :
      x.lessEqual x' = y.lessEqual y' := by rw [← lessEqual_erase, h, h', lessEqual_erase]
  have loosely := looselyEquals_congr hv hw same
  cases op <;> simp only [Value.binary, add, number hv, number hw, less hv hw, less hw hv,
    lessEqual hv hw, lessEqual hw hv, loosely, same]
  · exact absurd rfl eager.2
  · exact absurd rfl eager.1

theorem unary_congr (op : UnaryOperator) (hv : v.erase = w.erase) :
    Value.unary op v = Value.unary op w := by
  have number : v.toNumber = w.toNumber := by rw [← toNumber_erase v, hv, toNumber_erase]
  have truthy : v.isTruthy = w.isTruthy := by rw [← isTruthy_erase v, hv, isTruthy_erase]
  cases op <;> simp only [Value.unary, number, truthy]

theorem plain_binary {op : BinaryOperator} (eager : op ≠ .and ∧ op ≠ .or) (v w : Value) :
    (Value.binary op v w).Plain k := by
  cases op <;> simp only [Value.binary] <;> try constructor
  · exact absurd rfl eager.2
  · exact absurd rfl eager.1
  · unfold add
    split <;> constructor

theorem plain_unary (op : UnaryOperator) (v : Value) : (Value.unary op v).Plain k := by
  cases op <;> constructor

end Operations

/-! ## Tokens -/

def codeText (s : String) : Nat :=
  Encodable.encode (s.toList.map Char.toNat)

theorem codeText_inj {s t : String} : codeText s = codeText t ↔ s = t := by
  have htoNat : Function.Injective Char.toNat := fun _ _ h => Char.toNat_inj.1 h
  simp [codeText, htoNat.list_map.eq_iff, String.toList_inj]

def codeCell (c : Cell) : Nat :=
  Nat.pair (if c.kind = .signal then 0 else 1) (Nat.pair c.node.slot c.node.generation)

theorem codeCell_inj {c d : Cell} : codeCell c = codeCell d ↔ c = d := by
  obtain ⟨kind, slot, generation⟩ := c
  obtain ⟨kind', slot', generation'⟩ := d
  cases kind <;> cases kind' <;> simp [codeCell, Nat.pair_eq_pair]

mutual

/-- A number for every value; identities, and numbers that equal each other, count as different. -/
def code : Value → Nat
  | undefined => Nat.pair 0 0
  | null => Nat.pair 1 0
  | bool b => Nat.pair 2 b.toNat
  | number x => Nat.pair 3 x.toBits.toNat
  | text s => Nat.pair 4 (codeText s)
  | array i items => Nat.pair 5 (Nat.pair i (codeItems items))
  | object i fields => Nat.pair 6 (Nat.pair i (codeFields fields))
  | cell c => Nat.pair 7 (codeCell c)

def codeItems : List Value → Nat
  | [] => 0
  | v :: rest => Nat.pair (code v) (codeItems rest) + 1

def codeFields : List (String × Value) → Nat
  | [] => 0
  | (key, v) :: rest => Nat.pair (codeText key) (Nat.pair (code v) (codeFields rest)) + 1

end

theorem codeItems_inj {xs ys : List Value} (each : ∀ x ∈ xs, ∀ ⦃y⦄, code x = code y → x = y)
    (h : codeItems xs = codeItems ys) : xs = ys := by
  induction xs generalizing ys with
  | nil => cases ys <;> simp_all [codeItems]
  | cons x xs ih =>
    obtain _ | ⟨y, ys⟩ := ys
    · simp [codeItems] at h
    simp only [codeItems, Nat.add_right_cancel_iff, Nat.pair_eq_pair] at h
    rw [each x (by simp) h.1, ih (fun x hx => each x (by simp [hx])) h.2]

theorem codeFields_inj {xs ys : List (String × Value)}
    (each : ∀ p ∈ xs, ∀ ⦃y⦄, code p.2 = code y → p.2 = y) (h : codeFields xs = codeFields ys) :
    xs = ys := by
  induction xs generalizing ys with
  | nil => cases ys <;> simp_all [codeFields]
  | cons p xs ih =>
    obtain _ | ⟨q, ys⟩ := ys
    · simp [codeFields] at h
    obtain ⟨key, x⟩ := p
    obtain ⟨key', y⟩ := q
    simp only [codeFields, Nat.add_right_cancel_iff, Nat.pair_eq_pair, codeText_inj] at h
    obtain ⟨rfl, hvalue, hrest⟩ := h
    obtain rfl : x = y := each (key, x) (by simp) hvalue
    rw [ih (fun p hp => each p (by simp [hp])) hrest]

theorem code_injective : Function.Injective code := by
  intro v
  induction v using induct with
  | undefined | null => intro w h; cases w <;> simp_all [code, Nat.pair_eq_pair]
  | bool b =>
    intro w h
    cases w with
    | bool c => cases b <;> cases c <;> simp_all [code, Nat.pair_eq_pair]
    | _ => simp [code, Nat.pair_eq_pair] at h
  | number x =>
    intro w h
    cases w <;> simp only [code, Nat.pair_eq_pair, Nat.reduceEqDiff, false_and, true_and] at h
    rw [← Float.ofBits_toBits x, UInt64.toNat_inj.1 h, Float.ofBits_toBits]
  | text s =>
    intro w h
    cases w <;> simp_all [code, Nat.pair_eq_pair, codeText_inj]
  | array i items ih =>
    intro w h
    cases w <;> simp only [code, Nat.pair_eq_pair, Nat.reduceEqDiff, false_and, true_and] at h
    obtain ⟨rfl, h⟩ := h
    rw [codeItems_inj ih h]
  | object i fields ih =>
    intro w h
    cases w <;> simp only [code, Nat.pair_eq_pair, Nat.reduceEqDiff, false_and, true_and] at h
    obtain ⟨rfl, h⟩ := h
    rw [codeFields_inj ih h]
  | cell c =>
    intro w h
    cases w <;> simp_all [code, Nat.pair_eq_pair, codeCell_inj]

/-- A text that stands for a value. -/
def token (v : Value) : String :=
  String.ofList (List.replicate v.code 'x')

/-- The value that a text stands for. -/
noncomputable def redeem (s : String) : Value :=
  Function.invFun code s.length

@[simp] theorem redeem_token (v : Value) : redeem v.token = v := by
  rw [redeem, token, String.length_ofList, List.length_replicate]
  exact Function.leftInverse_invFun code_injective v

end LiveTemplate.Value
