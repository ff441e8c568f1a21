/-!
# Insertion-ordered tables

A table lists entries by key in the order in which the keys came in. Setting a known key keeps its
place.
-/
namespace LiveTemplate

abbrev Table (α : Type) := List (String × α)

namespace Table

variable {α : Type}

/-- Sets an entry: a known key keeps its place, a new one goes to the end. -/
def set (key : String) (value : α) : Table α → Table α
  | [] => [(key, value)]
  | (k, v) :: rest => if k = key then (k, value) :: rest else (k, v) :: set key value rest

def get? (key : String) (t : Table α) : Option α :=
  t.lookup key

/-- The table that a list of settings leaves. -/
def ofList (entries : List (String × α)) : Table α :=
  entries.foldl (fun t entry => t.set entry.1 entry.2) []

def keys (t : Table α) : List String :=
  t.map (·.1)

theorem keys_set (key : String) (value : α) (t : Table α) :
    (t.set key value).keys = if key ∈ t.keys then t.keys else t.keys ++ [key] := by
  induction t with
  | nil => simp [set, keys]
  | cons entry rest ih =>
    obtain ⟨k, v⟩ := entry
    by_cases h : k = key
    · simp [set, keys, h]
    · simp only [set, h, ↓reduceIte, keys, List.map_cons, List.mem_cons, Ne.symm h,
        false_or] at ih ⊢
      by_cases hm : key ∈ rest.map (·.1) <;> simp [ih, hm]

theorem get?_cons (k other : String) (v : α) (t : Table α) :
    get? other ((k, v) :: t) = if other = k then some v else get? other t := by
  by_cases h : other = k
  · simp [get?, h]
  · have hb : (other == k) = false := by simpa using h
    simp [get?, List.lookup_cons, hb, h]

theorem get?_set (key other : String) (value : α) (t : Table α) :
    (t.set key value).get? other = if other = key then some value else t.get? other := by
  induction t with
  | nil => simp [set, get?_cons]
  | cons entry rest ih =>
    obtain ⟨k, v⟩ := entry
    by_cases h : k = key
    · subst h
      by_cases ho : other = k <;> simp [set, get?_cons, ho]
    · by_cases ho : other = k
      · subst ho
        simp [set, h, get?_cons]
      · simp [set, h, get?_cons, ho, ih]

end Table

end LiveTemplate
