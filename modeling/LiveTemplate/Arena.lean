/-!
# Arenas

Storage addressed by keys that are never mistaken for one another: a key names a slot and the
generation of its tenant. Erasing ends the generation, so an old key finds nothing although its slot
may be let again. Vacated slots are let again before new ones, the last vacated first.

The main statements say what each operation does to `get?`: a new key was not live before, and an
operation touches no other key. A key whose generation has ended is spent, and stays so.
-/
namespace LiveTemplate

/-- What a key stands for. -/
inductive Realm where
  | node
  | scope
  deriving DecidableEq, Repr

/-- A slot and a generation of it, both counted from zero. -/
structure Key (realm : Realm) where
  slot : Nat
  generation : Nat
  deriving DecidableEq, Repr

/-- Named, so that membership in a list of keys is decided by the same term in every module. -/
instance (realm : Realm) : LawfulBEq (Key realm) := inferInstance

/-- A slot holds the current generation's tenant, if it has one. -/
structure Slot (α : Type) where
  generation : Nat
  content : Option α

/-- Slots, together with the list of the vacant ones. -/
structure Arena (realm : Realm) (α : Type) where
  slots : Array (Slot α)
  vacant : List Nat
  nodup_vacant : vacant.Nodup
  mem_vacant : ∀ i, i ∈ vacant ↔ ∃ h : i < slots.size, slots[i].content = none

namespace Arena

variable {realm : Realm} {α : Type}

def empty : Arena realm α where
  slots := #[]
  vacant := []
  nodup_vacant := .nil
  mem_vacant := by simp

instance : Inhabited (Arena realm α) := ⟨empty⟩

def get? (a : Arena realm α) (key : Key realm) : Option α :=
  match a.slots[key.slot]? with
  | some slot => if slot.generation = key.generation then slot.content else none
  | none => none

def contains (a : Arena realm α) (key : Key realm) : Bool :=
  (a.get? key).isSome

/-- The number of tenants with a property. -/
def count (a : Arena realm α) (p : α → Bool) : Nat :=
  a.slots.countP fun slot => slot.content.any p

/-- The number of tenants. -/
def size (a : Arena realm α) : Nat :=
  a.count fun _ => true

theorem lt_size_of_get? {a : Arena realm α} {key : Key realm} {x : α} (h : a.get? key = some x) :
    key.slot < a.slots.size := by
  simp only [get?] at h
  split at h
  next slot hs => exact (Array.getElem?_eq_some_iff.1 hs).1
  next => cases h

theorem slot_of_get? {a : Arena realm α} {key : Key realm} {x : α} (h : a.get? key = some x) :
    ∃ hlt : key.slot < a.slots.size, a.slots[key.slot] = ⟨key.generation, some x⟩ := by
  have hlt := lt_size_of_get? h
  refine ⟨hlt, ?_⟩
  simp only [get?, Array.getElem?_eq_getElem hlt] at h
  split at h
  next hg =>
    generalize a.slots[key.slot] = s at h hg ⊢
    cases s
    simp_all
  next => cases h

/-- Only finitely many keys are live. -/
theorem exists_keys (a : Arena realm α) :
    ∃ keys : List (Key realm), ∀ key, (a.get? key).isSome → key ∈ keys := by
  refine ⟨(List.range a.slots.size).map fun i => ⟨i, (a.slots[i]?.map Slot.generation).getD 0⟩,
    fun key hlive => ?_⟩
  obtain ⟨x, hx⟩ := Option.isSome_iff_exists.1 hlive
  obtain ⟨hlt, hslot⟩ := slot_of_get? hx
  exact List.mem_map.2 ⟨key.slot, List.mem_range.2 hlt, by simp [hlt, hslot]⟩

/-- The head of the vacant list is a slot without tenant. -/
theorem lt_size_of_vacant {a : Arena realm α} {i : Nat} {rest : List Nat}
    (h : a.vacant = i :: rest) : i < a.slots.size :=
  ((a.mem_vacant i).1 (by simp [h])).1

/-- Lets a slot to a new tenant. -/
def insert (a : Arena realm α) (x : α) : Key realm × Arena realm α :=
  match h : a.vacant with
  | i :: rest =>
    have hi := lt_size_of_vacant h
    (⟨i, a.slots[i].generation⟩,
      { slots := a.slots.set i ⟨a.slots[i].generation, some x⟩
        vacant := rest
        nodup_vacant := (List.nodup_cons.1 (h ▸ a.nodup_vacant)).2
        mem_vacant := by
          intro j
          have hnot := (List.nodup_cons.1 (h ▸ a.nodup_vacant)).1
          have hmem := a.mem_vacant j
          rw [h, List.mem_cons] at hmem
          by_cases hj : j = i
          · subst hj
            simp [hnot]
          · simp only [hj, false_or] at hmem
            simp [hmem, Array.getElem_set, Ne.symm hj] })
  | [] =>
    (⟨a.slots.size, 0⟩,
      { slots := a.slots.push ⟨0, some x⟩
        vacant := []
        nodup_vacant := .nil
        mem_vacant := by
          intro j
          have hmem := a.mem_vacant j
          simp only [h, List.not_mem_nil, false_iff, not_exists] at hmem ⊢
          intro hj hc
          by_cases hlt : j < a.slots.size
          · exact hmem hlt (by simpa [Array.getElem_push, hlt] using hc)
          · simp [Array.getElem_push, hlt] at hc })

/-- Replaces the content of a slot by another tenant of the same generation. -/
private def replace (a : Arena realm α) (i : Nat) (hi : i < a.slots.size) (x : α)
    (hlive : a.slots[i].content ≠ none) : Arena realm α where
  slots := a.slots.set i ⟨a.slots[i].generation, some x⟩
  vacant := a.vacant
  nodup_vacant := a.nodup_vacant
  mem_vacant := by
    intro j
    rw [a.mem_vacant j]
    by_cases hj : i = j
    · subst hj
      simp [hi, hlive]
    · simp [Array.getElem_set, hj]

/-- Changes the tenant of a key; a key without tenant changes nothing. -/
def modify (a : Arena realm α) (key : Key realm) (f : α → α) : Arena realm α :=
  match h : a.get? key with
  | some x =>
    have hs := slot_of_get? h
    a.replace key.slot hs.1 (f x) (by simp [hs.2])
  | none => a

/-- Ends the tenancy of a key; a key without tenant changes nothing. -/
def erase (a : Arena realm α) (key : Key realm) : Arena realm α :=
  match h : a.get? key with
  | some _ =>
    have hs := slot_of_get? h
    have hi := hs.1
    { slots := a.slots.set key.slot ⟨key.generation + 1, none⟩
      vacant := key.slot :: a.vacant
      nodup_vacant := by
        refine List.nodup_cons.2 ⟨fun hmem => ?_, a.nodup_vacant⟩
        obtain ⟨_, hc⟩ := (a.mem_vacant _).1 hmem
        simp [hs.2] at hc
      mem_vacant := by
        intro j
        rw [List.mem_cons, a.mem_vacant j]
        by_cases hj : key.slot = j
        · subst hj
          simp [hi]
        · simp [Array.getElem_set, hj, Ne.symm hj] }
  | none => a

@[simp] theorem get?_empty (key : Key realm) : (empty : Arena realm α).get? key = none := rfl

/-- A new key was not live before. -/
theorem get?_insert_fresh (a : Arena realm α) (x : α) : a.get? (a.insert x).1 = none := by
  unfold insert
  split
  next i rest h =>
    obtain ⟨hi, hc⟩ := (a.mem_vacant i).1 (by simp [h])
    simp [get?, hi, hc]
  next h => simp [get?]

@[simp] theorem get?_insert_self (a : Arena realm α) (x : α) :
    (a.insert x).2.get? (a.insert x).1 = some x := by
  unfold insert
  split
  next i rest h => simp [get?, lt_size_of_vacant h]
  next h => simp [get?]

theorem get?_insert_of_ne (a : Arena realm α) (x : α) {key : Key realm}
    (hne : key ≠ (a.insert x).1) : (a.insert x).2.get? key = a.get? key := by
  unfold insert at hne ⊢
  split at hne
  next i rest h =>
    have hi := lt_size_of_vacant h
    obtain ⟨_, hc⟩ := (a.mem_vacant i).1 (by simp [h])
    simp only [get?, Array.getElem?_set]
    by_cases hs : i = key.slot
    · subst hs
      have hg : a.slots[key.slot].generation ≠ key.generation := by
        intro hg
        apply hne
        cases key
        simp_all
      simp [hi, hg]
    · simp [hs]
  next h =>
    simp only [get?, Array.getElem?_push]
    by_cases hs : key.slot = a.slots.size
    · have hg : ¬ 0 = key.generation := by
        intro hg
        apply hne
        cases key
        simp_all
      simp [hs, hg]
    · simp [hs]

theorem get?_insert (a : Arena realm α) (x : α) (key : Key realm) :
    (a.insert x).2.get? key = if key = (a.insert x).1 then some x else a.get? key := by
  by_cases h : key = (a.insert x).1
  · simp [h]
  · simp [h, get?_insert_of_ne a x h]

theorem get?_modify (a : Arena realm α) (key other : Key realm) (f : α → α) :
    (a.modify key f).get? other =
      if other = key then (a.get? other).map f else a.get? other := by
  unfold modify
  split
  next x h =>
    obtain ⟨hi, hs⟩ := slot_of_get? h
    simp only [get?, replace, Array.getElem?_set]
    by_cases hslot : key.slot = other.slot
    · by_cases hg : key.generation = other.generation
      · have : key = other := by cases key; cases other; simp_all
        subst this
        simp [hi, hs]
      · have : other ≠ key := by rintro rfl; exact hg rfl
        simp [← hslot, hi, hs, hg, this]
    · have : other ≠ key := by rintro rfl; exact hslot rfl
      simp [hslot, this]
  next h =>
    split
    next heq => subst heq; simp [h]
    next => rfl

@[simp] theorem get?_modify_self (a : Arena realm α) (key : Key realm) (f : α → α) :
    (a.modify key f).get? key = (a.get? key).map f := by
  simp [get?_modify]

theorem get?_erase (a : Arena realm α) (key other : Key realm) :
    (a.erase key).get? other = if other = key then none else a.get? other := by
  unfold erase
  split
  next x h =>
    obtain ⟨hi, hs⟩ := slot_of_get? h
    simp only [get?, Array.getElem?_set]
    by_cases hslot : key.slot = other.slot
    · by_cases hg : key.generation = other.generation
      · have : other = key := by cases key; cases other; simp_all
        subst this
        simp
      · have : other ≠ key := by rintro rfl; exact hg rfl
        simp [← hslot, hi, hs, hg, this]
    · have : other ≠ key := by rintro rfl; exact hslot rfl
      simp [hslot, this]
  next h =>
    split
    next heq => subst heq; exact h
    next => rfl

@[simp] theorem get?_erase_self (a : Arena realm α) (key : Key realm) :
    (a.erase key).get? key = none := by
  simp [get?_erase]

/-- Erasing a live key leaves one tenant less. -/
theorem size_erase_lt {a : Arena realm α} {key : Key realm} {x : α} (h : a.get? key = some x) :
    (a.erase key).size < a.size := by
  unfold erase
  split
  next y hy =>
    obtain ⟨hi, hs⟩ := slot_of_get? hy
    have hpos : 0 < a.slots.countP fun slot => slot.content.any fun _ => true :=
      Array.countP_pos_iff.2 ⟨a.slots[key.slot], Array.getElem_mem hi, by simp [hs]⟩
    have herase := Array.countP_set (p := fun slot : Slot α => slot.content.any fun _ => true)
      (a := ⟨key.generation + 1, none⟩) hi
    simp only [hs, Option.any_some, Option.any_none, ↓reduceIte, Bool.false_eq_true,
      Nat.add_zero] at herase
    simp only [size, count]
    omega
  next hn => simp [hn] at h

theorem count_modify {a : Arena realm α} {key : Key realm} {x : α} (f : α → α) (p : α → Bool)
    (h : a.get? key = some x) :
    (a.modify key f).count p =
      a.count p - (if p x then 1 else 0) + (if p (f x) then 1 else 0) := by
  unfold modify
  split
  next y hy =>
    obtain ⟨hi, hs⟩ := slot_of_get? hy
    rw [h] at hy
    cases hy
    simp [count, replace, Array.countP_set hi, hs]
  next hn => simp [hn] at h

@[simp] theorem size_modify (a : Arena realm α) (key : Key realm) (f : α → α) :
    (a.modify key f).size = a.size := by
  unfold modify
  split
  next x h =>
    obtain ⟨hi, hs⟩ := slot_of_get? h
    have hpos : 0 < a.slots.countP fun slot => slot.content.any fun _ => true :=
      Array.countP_pos_iff.2 ⟨a.slots[key.slot], Array.getElem_mem hi, by simp [hs]⟩
    have hset := Array.countP_set (p := fun slot : Slot α => slot.content.any fun _ => true)
      (a := ⟨a.slots[key.slot].generation, some (f x)⟩) hi
    simp only [hs, Option.any_some, ↓reduceIte] at hset
    simp only [size, count, replace, hs]
    omega
  next => rfl

theorem count_pos {a : Arena realm α} {key : Key realm} {x : α} (p : α → Bool)
    (h : a.get? key = some x) (hp : p x = true) : 0 < a.count p := by
  obtain ⟨hi, hs⟩ := slot_of_get? h
  exact Array.countP_pos_iff.2 ⟨a.slots[key.slot], Array.getElem_mem hi, by simp [hs, hp]⟩

/-- Taking a property away from a tenant leaves one tenant less with it. -/
theorem count_modify_lt {a : Arena realm α} {key : Key realm} {x : α} (f : α → α) (p : α → Bool)
    (h : a.get? key = some x) (hp : p x = true) (hf : p (f x) = false) :
    (a.modify key f).count p < a.count p := by
  have := count_pos p h hp
  rw [count_modify f p h]
  simp [hp, hf]
  omega

/-! ## Other tenants in the same slots -/

/-- Puts another tenant in the place of each one. -/
def map {β : Type} (f : α → β) (a : Arena realm α) : Arena realm β where
  slots := a.slots.map fun slot => ⟨slot.generation, slot.content.map f⟩
  vacant := a.vacant
  nodup_vacant := a.nodup_vacant
  mem_vacant := by simp [a.mem_vacant]

section Map

variable {β : Type} (f : α → β) (a : Arena realm α)

@[simp] theorem get?_map (key : Key realm) : (a.map f).get? key = (a.get? key).map f := by
  simp only [get?, map, Array.getElem?_map]
  cases a.slots[key.slot]? with
  | none => rfl
  | some slot =>
    simp only [Option.map_some]
    split <;> rfl

@[simp] theorem contains_map (key : Key realm) : (a.map f).contains key = a.contains key := by
  simp [contains]

/-- Arenas are their slots and the order in which vacant ones are let. -/
private theorem ext_slots {a b : Arena realm α} (slots : a.slots = b.slots)
    (vacant : a.vacant = b.vacant) : a = b := by
  cases a
  cases b
  simp_all

theorem insert_map (x : α) :
    (a.map f).insert (f x) = ((a.insert x).1, (a.insert x).2.map f) := by
  unfold insert
  split
  next i rest h =>
    split
    next j rest' h' =>
      obtain ⟨rfl, rfl⟩ := List.cons.inj (h.symm.trans h')
      refine Prod.ext (by simp [map]) (ext_slots ?_ rfl)
      simp [map]
    next h' => simp [map, h'] at h
  next h =>
    split
    next j rest' h' => simp [map, h'] at h
    next h' =>
      refine Prod.ext (by simp [map]) (ext_slots ?_ rfl)
      simp [map]

/-- Tenants that correspond are changed in corresponding ways. -/
theorem modify_map (key : Key realm) {g : α → α} {h : β → β} (commute : ∀ x, h (f x) = f (g x)) :
    (a.map f).modify key h = (a.modify key g).map f := by
  unfold modify
  split
  next y hy =>
    split
    next x hx =>
      obtain rfl : f x = y := by simpa [hx] using hy
      exact ext_slots (by simp [map, replace, commute]) rfl
    next hx => simp [hx] at hy
  next hy =>
    split
    next x hx => simp [hx] at hy
    next => rfl

end Map

/-! ## Keys that are over -/

/-- The generation of the key has ended. -/
def Spent (a : Arena realm α) (key : Key realm) : Prop :=
  ∃ slot, a.slots[key.slot]? = some slot ∧ key.generation < slot.generation

theorem get?_of_spent {a : Arena realm α} {key : Key realm} (h : a.Spent key) : a.get? key = none := by
  obtain ⟨slot, hslot, hlt⟩ := h
  simp only [get?, hslot]
  exact if_neg (Nat.ne_of_gt hlt)

/-- Whatever is put in its slot, a spent key stays spent, as long as the generation does not go back. -/
private theorem Spent.set {a b : Arena realm α} {key : Key realm} (h : a.Spent key) {i : Nat}
    (hi : i < a.slots.size) {slot : Slot α} (slots : b.slots = a.slots.set i slot)
    (later : a.slots[i].generation ≤ slot.generation) : b.Spent key := by
  obtain ⟨old, hold, hlt⟩ := h
  unfold Spent
  rw [slots, Array.getElem?_set]
  split
  next heq =>
    subst heq
    rw [Array.getElem?_eq_getElem hi] at hold
    obtain rfl := Option.some.inj hold
    exact ⟨slot, rfl, Nat.lt_of_lt_of_le hlt later⟩
  next => exact ⟨old, hold, hlt⟩

theorem Spent.insert {a : Arena realm α} {key : Key realm} (h : a.Spent key) (x : α) :
    (a.insert x).2.Spent key := by
  unfold Arena.insert
  split
  next i rest hvacant => exact h.set (lt_size_of_vacant hvacant) rfl (Nat.le_refl _)
  next =>
    obtain ⟨old, hold, hlt⟩ := h
    refine ⟨old, ?_, hlt⟩
    have hsize := (Array.getElem?_eq_some_iff.1 hold).1
    rw [Array.getElem?_push, if_neg (Nat.ne_of_lt hsize), hold]

theorem Spent.modify {a : Arena realm α} {key : Key realm} (h : a.Spent key) (other : Key realm)
    (f : α → α) : (a.modify other f).Spent key := by
  unfold Arena.modify
  split
  next x hx => exact h.set (slot_of_get? hx).1 rfl (Nat.le_refl _)
  next => exact h

theorem Spent.erase {a : Arena realm α} {key : Key realm} (h : a.Spent key) (other : Key realm) :
    (a.erase other).Spent key := by
  unfold Arena.erase
  split
  next x hx =>
    obtain ⟨hi, hslot⟩ := slot_of_get? hx
    exact h.set hi rfl (by rw [hslot]; exact Nat.le_succ _)
  next => exact h

theorem spent_erase {a : Arena realm α} {key : Key realm} {x : α} (h : a.get? key = some x) :
    (a.erase key).Spent key := by
  unfold Arena.erase
  split
  next hx =>
    refine ⟨⟨key.generation + 1, none⟩, ?_, Nat.lt_succ_self _⟩
    simp [(slot_of_get? hx).1]
  next hx => simp [h] at hx

end Arena

end LiveTemplate
