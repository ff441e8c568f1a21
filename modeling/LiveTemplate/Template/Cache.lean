import LiveTemplate.Template

/-!
# A cache of parsed templates

A bounded first-in first-out cache by source. A hit does not move its entry, and a source that does
not parse is not kept.
-/
namespace LiveTemplate.Template

/-- A parsed template with the number of the miss that made it, which tells instances apart. -/
structure Instance where
  serial : Nat
  template : Template

structure Cache where
  /-- Sources and instances, the oldest first. -/
  entries : List (String × Instance)
  capacity : Nat
  capacity_pos : 0 < capacity
  hits : Nat
  misses : Nat

namespace Cache

def defaultCapacity : Nat := 256

theorem max_one_pos (capacity : Nat) : 0 < max capacity 1 := by omega

/-- An empty cache; it holds at least one template. -/
def ofCapacity (capacity : Nat) : Cache where
  entries := []
  capacity := max capacity 1
  capacity_pos := max_one_pos capacity
  hits := 0
  misses := 0

instance : Inhabited Cache := ⟨ofCapacity defaultCapacity⟩

def size (c : Cache) : Nat := c.entries.length

/-- Drops the oldest entry of a full cache. -/
def evict (c : Cache) : List (String × Instance) :=
  if c.capacity ≤ c.entries.length then c.entries.drop 1 else c.entries

/-- The cached template of a source, or a new one. -/
def get (c : Cache) (source : String) : Except TemplateError Instance × Cache :=
  match c.entries.lookup source with
  | some kept => (.ok kept, { c with hits := c.hits + 1 })
  | none =>
    match parse source with
    | .error e => (.error e, { c with misses := c.misses + 1 })
    | .ok template =>
      let made : Instance := ⟨c.misses, template⟩
      (.ok made,
        { c with entries := c.evict ++ [(source, made)], misses := c.misses + 1 })

/-- Forgets the templates, but not the counts. -/
def clear (c : Cache) : Cache :=
  { c with entries := [] }

end Cache

end LiveTemplate.Template
