import Mathlib.Data.List.DropRight
import Mathlib.Data.List.Nodup
import LiveTemplate.Template.Cache

/-!
# What a cache holds

A client of a cache gets templates and clears the cache, in any order (`Cache.serve`). What it is
answered, and whether an answer counted as a hit, makes up a history. The history alone tells what the
cache holds: the last successful misses since it was cleared, as many as there is room for, the oldest
first (`Cache.holds_serve`). So the cache is a queue of bounded length, and it answers a get from the
queue if it can (`Cache.serve_as_queue`).
-/
namespace LiveTemplate.Template

namespace Cache

/-! ## Histories -/

inductive Request where
  | get (source : String)
  | clear

def Request.isGet : Request → Bool
  | get _ => true
  | clear => false

/-- What can be seen of a request: the answer to a get, and whether the cache counted it as a hit. -/
inductive Event where
  | got (source : String) (hit : Bool) (answer : Except TemplateError Instance)
  | cleared

def Event.isCleared : Event → Bool
  | got _ _ _ => false
  | cleared => true

/-- What a get has made that was a miss. -/
def Event.made? : Event → Option (String × Instance)
  | got source false (.ok made) => some (source, made)
  | _ => none

/-- The successful misses of a history. -/
def made (events : List Event) : List (String × Instance) :=
  events.filterMap Event.made?

/-- The successful misses since the cache was cleared last. -/
def madeLately (events : List Event) : List (String × Instance) :=
  made (events.rtakeWhile fun event => !event.isCleared)

/-- The last of these, as many as a cache of this capacity has room for. -/
def queue (capacity : Nat) (events : List Event) : List (String × Instance) :=
  (madeLately events).rtake (max capacity 1)

def perform (c : Cache) : Request → Event × Cache
  | .get source => (.got source ((c.get source).2.hits != c.hits) (c.get source).1, (c.get source).2)
  | .clear => (.cleared, c.clear)

/-- The history of a new cache that serves requests in order, and the cache afterwards. -/
def serve (capacity : Nat) (requests : List Request) : List Event × Cache :=
  requests.foldl
    (fun (events, c) request => (events ++ [(c.perform request).1], (c.perform request).2))
    ([], ofCapacity capacity)

theorem serve_concat (capacity : Nat) (requests : List Request) (request : Request) :
    serve capacity (requests ++ [request]) =
      ((serve capacity requests).1 ++ [((serve capacity requests).2.perform request).1],
        ((serve capacity requests).2.perform request).2) := by
  rw [serve, List.foldl_concat, ← serve]

@[simp] theorem made_concat (events : List Event) (event : Event) :
    made (events ++ [event]) = made events ++ event.made?.toList := by
  cases h : event.made? <;> simp [made, h]

theorem madeLately_cleared (events : List Event) : madeLately (events ++ [.cleared]) = [] := by
  simp [madeLately, Event.isCleared, made]

theorem madeLately_concat (events : List Event) {event : Event} (h : event.isCleared = false) :
    madeLately (events ++ [event]) = madeLately events ++ event.made?.toList := by
  simp [madeLately, h]

theorem madeLately_suffix (events : List Event) : madeLately events <:+ made events :=
  (List.rtakeWhile_suffix _ _).filterMap _

/-! ## Gets -/

theorem get_hit {c : Cache} {source : String} {kept : Instance}
    (h : c.entries.lookup source = some kept) :
    c.get source = (.ok kept, { c with hits := c.hits + 1 }) := by
  simp [get, h]

theorem get_failed {c : Cache} {source : String} {e : TemplateError}
    (h : c.entries.lookup source = none) (hparse : parse source = .error e) :
    c.get source = (.error e, { c with misses := c.misses + 1 }) := by
  simp [get, h, hparse]

theorem get_made {c : Cache} {source : String} {t : Template}
    (h : c.entries.lookup source = none) (hparse : parse source = .ok t) :
    c.get source = (.ok ⟨c.misses, t⟩,
      { c with entries := c.evict ++ [(source, ⟨c.misses, t⟩)], misses := c.misses + 1 }) := by
  simp [get, h, hparse]

/-- Making room for one more leaves all but the oldest. -/
theorem evict_eq {c : Cache} {n : Nat} {l : List (String × Instance)} (capacity : c.capacity = n + 1)
    (entries : c.entries = l.rtake (n + 1)) : c.evict = l.rtake n := by
  unfold evict
  rw [capacity, entries, List.rtake, List.rtake]
  split
  next full =>
    rw [List.length_drop] at full
    rw [List.drop_drop]
    congr 1
    omega
  next room =>
    rw [List.length_drop] at room
    congr 1
    omega

/-! ## The queue -/

/-- A cache is as its history tells. -/
structure Holds (capacity : Nat) (events : List Event) (c : Cache) : Prop where
  room : c.capacity = max capacity 1
  entries : c.entries = queue capacity events
  /-- No source is held twice. -/
  keys : (c.entries.map (·.1)).Nodup
  /-- A template is held under its source, which it was parsed from. -/
  parsed : ∀ entry ∈ made events,
    entry.2.template.source = entry.1 ∧ parse entry.1 = .ok entry.2.template
  /-- Each successful miss has made an instance of its own. -/
  serials : (made events).Pairwise fun entry later => entry.2.serial < later.2.serial
  /-- And so will the next one. -/
  recent : ∀ entry ∈ made events, entry.2.serial < c.misses

variable {capacity : Nat} {events : List Event} {c : Cache}

theorem Holds.mem_made (h : Holds capacity events c) {entry : String × Instance}
    (mem : entry ∈ c.entries) : entry ∈ made events := by
  rw [h.entries, queue, List.rtake] at mem
  exact (madeLately_suffix events).subset (List.mem_of_mem_drop mem)

theorem Holds.size_le (h : Holds capacity events c) : c.size ≤ c.capacity := by
  rw [size, h.entries, h.room, queue, List.rtake, List.length_drop]
  omega

theorem holds_new (capacity : Nat) : Holds capacity [] (ofCapacity capacity) where
  room := rfl
  entries := by simp [queue, madeLately, made, ofCapacity]
  keys := List.nodup_nil
  parsed := by simp [made]
  serials := by simp [made]
  recent := by simp [made]

theorem Holds.clear (h : Holds capacity events c) : Holds capacity (events ++ [.cleared]) c.clear where
  room := h.room
  entries := by simp [queue, madeLately_cleared, Cache.clear]
  keys := List.nodup_nil
  parsed := by simpa [Event.made?] using h.parsed
  serials := by simpa [Event.made?] using h.serials
  recent := by
    rw [made_concat]
    simpa [Event.made?] using! h.recent

/-- A get that makes nothing leaves the queue as it is. -/
theorem Holds.same (h : Holds capacity events c) {event : Event} (uncleared : event.isCleared = false)
    (idle : event.made? = none) (hits : Nat) {misses : Nat} (later : c.misses ≤ misses) :
    Holds capacity (events ++ [event]) { c with hits := hits, misses := misses } where
  room := h.room
  entries := by simpa [queue, madeLately_concat events uncleared, idle] using h.entries
  keys := h.keys
  parsed := by simpa [idle] using h.parsed
  serials := by simpa [idle] using h.serials
  recent := by simpa [idle] using fun source kept mem => (h.recent (source, kept) mem).trans_le later

theorem Holds.made (h : Holds capacity events c) {source : String} {t : Template}
    (new : c.entries.lookup source = none) (hparse : parse source = .ok t) {event : Event}
    (uncleared : event.isCleared = false) (makes : event.made? = some (source, ⟨c.misses, t⟩)) :
    Holds capacity (events ++ [event])
      { c with entries := c.evict ++ [(source, ⟨c.misses, t⟩)], misses := c.misses + 1 } := by
  obtain ⟨n, hn⟩ : ∃ n, max capacity 1 = n + 1 := ⟨max capacity 1 - 1, by omega⟩
  have hentries := h.entries
  rw [queue, hn] at hentries
  have hevict : c.evict = (madeLately events).rtake n := evict_eq (h.room.trans hn) hentries
  have hsub : c.evict.Sublist c.entries := by
    unfold evict
    split
    · exact List.drop_sublist _ _
    · exact List.Sublist.refl _
  refine ⟨h.room, ?_, ?_, ?_, ?_, ?_⟩
  · rw [queue, hn, madeLately_concat events uncleared, makes]
    exact (congrArg (· ++ _) hevict).trans (List.rtake_concat_succ _ _ _).symm
  · rw [List.map_append, List.nodup_append]
    refine ⟨h.keys.sublist (hsub.map _), by simp, fun key hkey other hother => ?_⟩
    obtain rfl : other = source := by simpa using hother
    rintro rfl
    obtain ⟨entry, hmem, rfl⟩ := List.mem_map.1 ((hsub.map (·.1)).subset hkey)
    simpa using List.lookup_eq_none_iff.1 new entry hmem
  · rw [made_concat, makes]
    intro entry mem
    rcases List.mem_append.1 mem with mem | mem
    · exact h.parsed entry mem
    · obtain rfl := List.mem_singleton.1 mem
      exact ⟨(parse_eq_ok hparse).1, hparse⟩
  · rw [made_concat, makes, List.pairwise_append]
    refine ⟨h.serials, by simp, fun entry mem later hlater => ?_⟩
    obtain rfl := List.mem_singleton.1 hlater
    exact h.recent entry mem
  · rw [made_concat, makes]
    intro entry mem
    rcases List.mem_append.1 mem with mem | mem
    · exact (h.recent entry mem).trans (Nat.lt_succ_self _)
    · obtain rfl := List.mem_singleton.1 mem
      exact Nat.lt_succ_self _

theorem Holds.perform (h : Holds capacity events c) (request : Request) :
    Holds capacity (events ++ [(c.perform request).1]) (c.perform request).2 := by
  cases request with
  | clear => exact h.clear
  | get source =>
    cases hlookup : c.entries.lookup source with
    | some kept =>
      simp only [Cache.perform, get_hit hlookup]
      exact h.same rfl (by simp [Event.made?]) _ (Nat.le_refl _)
    | none =>
      cases hparse : parse source with
      | error e =>
        simp only [Cache.perform, get_failed hlookup hparse]
        exact h.same rfl (by simp [Event.made?]) _ (Nat.le_succ _)
      | ok t =>
        simp only [Cache.perform, get_made hlookup hparse]
        exact h.made hlookup hparse rfl (by simp [Event.made?])

theorem holds_serve (capacity : Nat) (requests : List Request) :
    Holds capacity (serve capacity requests).1 (serve capacity requests).2 := by
  induction requests using List.reverseRecOn with
  | nil => exact holds_new capacity
  | append_singleton requests request ih =>
    rw [serve_concat]
    exact ih.perform request

theorem serve_counts (capacity : Nat) (requests : List Request) :
    (serve capacity requests).2.hits + (serve capacity requests).2.misses =
      requests.countP Request.isGet := by
  induction requests using List.reverseRecOn with
  | nil => rfl
  | append_singleton requests request ih =>
    rw [serve_concat, List.countP_append, ← ih]
    generalize (serve capacity requests).2 = c
    cases request with
    | clear => rfl
    | get source =>
      show (c.get source).2.hits + (c.get source).2.misses = c.hits + c.misses + 1
      cases hlookup : c.entries.lookup source with
      | some kept => simp only [get_hit hlookup]; omega
      | none =>
        cases hparse : parse source with
        | error e => simp only [get_failed hlookup hparse]; omega
        | ok t => simp only [get_made hlookup hparse]; omega

/-- A get is answered from the queue if that holds the source, and by parsing if not. -/
structure Answers (capacity : Nat) (events : List Event) (c : Cache) (source : String) : Prop where
  outcome : (c.get source).1.map (·.template) = parse source
  hit_iff : (c.get source).2.hits = c.hits + 1 ↔ source ∈ (queue capacity events).map (·.1)
  /-- A hit gives the instance that the miss has made, and moves nothing. -/
  kept : ∀ kept, (source, kept) ∈ queue capacity events →
    c.get source = (.ok kept, { c with hits := c.hits + 1 })
  /-- Nothing is dropped for a source that does not parse. -/
  failed : ∀ e, (c.get source).1 = .error e → (c.get source).2 = { c with misses := c.misses + 1 }

theorem Holds.answers (h : Holds capacity events c) (source : String) :
    Answers capacity events c source := by
  have hmem {entry : String × Instance} : entry ∈ queue capacity events ↔ entry ∈ c.entries := by
    rw [h.entries]
  cases hlookup : c.entries.lookup source with
  | some kept =>
    have hget := get_hit hlookup
    obtain ⟨before, after, hentries, hbefore⟩ := List.lookup_eq_some_iff.1 hlookup
    have hkept : (source, kept) ∈ c.entries := by simp [hentries]
    refine ⟨?_, ?_, fun kept' mem => ?_, ?_⟩
    · rw [hget]
      exact (h.parsed _ (h.mem_made hkept)).2.symm
    · exact iff_of_true (by rw [hget]) (List.mem_map.2 ⟨_, hmem.2 hkept, rfl⟩)
    · obtain rfl : kept' = kept :=
        congrArg Prod.snd (List.inj_on_of_nodup_map h.keys (hmem.1 mem) hkept rfl)
      exact hget
    · rw [hget]
      nofun
  | none =>
    have hnone : source ∉ (queue capacity events).map (·.1) := by
      rintro mem
      obtain ⟨entry, hentry, rfl⟩ := List.mem_map.1 mem
      simpa using List.lookup_eq_none_iff.1 hlookup entry (hmem.1 hentry)
    have hkept (kept : Instance) (mem : (source, kept) ∈ queue capacity events) :
        c.get source = (.ok kept, { c with hits := c.hits + 1 }) :=
      absurd (List.mem_map.2 ⟨_, mem, rfl⟩) hnone
    cases hparse : parse source with
    | error e =>
      have hget := get_failed hlookup hparse
      exact ⟨by rw [hget, hparse]; rfl, iff_of_false (by simp [hget]) hnone, hkept,
        fun _ _ => by rw [hget]⟩
    | ok t =>
      have hget := get_made hlookup hparse
      exact ⟨by rw [hget, hparse]; rfl, iff_of_false (by simp [hget]) hnone, hkept,
        fun _ failed => by simp [hget] at failed⟩

/-- Whatever it is asked, a cache holds the last successful misses since it was cleared, no more than
it has room for, counts every get once, and answers each as the parser does. -/
theorem serve_as_queue (capacity : Nat) (requests : List Request) :
    let (events, c) := serve capacity requests
    Holds capacity events c ∧ c.size ≤ c.capacity ∧
      c.hits + c.misses = requests.countP Request.isGet ∧
        ∀ source, Answers capacity events c source := by
  have h := holds_serve capacity requests
  exact ⟨h, h.size_le, serve_counts capacity requests, h.answers⟩

end Cache

end LiveTemplate.Template
