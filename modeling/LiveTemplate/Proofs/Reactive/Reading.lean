import LiveTemplate.Proofs.Value.Agreement

/-!
# Programs that only read

`Program.Alike` relates programs that make the same tracked reads and end alike as long as their
reads are answered alike. A program alike to itself is a lawful body of a computed: it only reads,
and it cannot tell answers apart that agree.

Given an answer for every node, `cells` lists the reads of such a program and `result` is its end.
-/
namespace LiveTemplate.Reactive

/-- Adds to a record of nodes those of a list of cells, in the order of their first reads. -/
def record (seen : List NodeId) (cells : List Cell) : List NodeId :=
  cells.foldl (fun seen cell => enlist cell.node seen) seen

@[simp] theorem record_nil (seen : List NodeId) : record seen [] = seen := rfl

@[simp] theorem record_cons (seen : List NodeId) (cell : Cell) (cells : List Cell) :
    record seen (cell :: cells) = record (enlist cell.node seen) cells := rfl

theorem mem_record {id : NodeId} {seen : List NodeId} {cells : List Cell} :
    id ∈ record seen cells ↔ id ∈ seen ∨ ∃ cell ∈ cells, cell.node = id := by
  induction cells generalizing seen with
  | nil => simp
  | cons cell cells ih => simp [ih, mem_enlist, or_assoc, eq_comm, or_left_comm]

theorem prefix_enlist (id : NodeId) (seen : List NodeId) : seen <+: enlist id seen := by
  unfold enlist
  split
  · exact List.prefix_rfl
  · exact List.prefix_append _ _

theorem prefix_record (seen : List NodeId) (cells : List Cell) : seen <+: record seen cells := by
  induction cells generalizing seen with
  | nil => exact List.prefix_rfl
  | cons cell cells ih => exact (prefix_enlist _ _).trans (ih _)

/-- A node that is new in a record comes right after those recorded before. -/
theorem record_new {id : NodeId} {seen : List NodeId} (new : id ∉ seen) (cells : List Cell) :
    ∃ after, record (enlist id seen) cells = seen ++ id :: after := by
  obtain ⟨after, hafter⟩ := prefix_record (enlist id seen) cells
  refine ⟨after, ?_⟩
  rw [← hafter, enlist, if_neg new, List.append_assoc]
  rfl

namespace Program

variable {σ : Type}

/-- The cells that a program reads when every node answers as given. -/
def cells (answer : NodeId → Outcome) : Program σ → List Cell
  | read cell _ next => cell :: (next (answer cell.node)).cells answer
  | _ => []

/-- How a program ends when every node answers as given. -/
def result (answer : NodeId → Outcome) : Program σ → Outcome
  | done outcome => outcome
  | read cell _ next => (next (answer cell.node)).result answer
  | _ => .ok .undefined

/-- The programs only read, the same cells, and end alike, if their reads are answered alike. -/
inductive Alike : Program σ → Program σ → Prop where
  | done {o o' : Outcome} (h : o.Alike o') : Alike (done o) (done o')
  | read (cell : Cell) {next next' : Outcome → Program σ}
      (h : ∀ r r', r.Alike r' → Alike (next r) (next' r')) :
      Alike (read cell true next) (read cell true next')

/-- A body that only reads, by tracked reads, and respects agreement of what it reads. -/
def Lawful (p : Program σ) : Prop := p.Alike p

/-- Two answers that agree on what one program reads lead a program alike to it through the same
reads. That they agree has to be known only of cells that both read. -/
theorem Alike.follow {p q : Program σ} (h : p.Alike q) (φ ψ : NodeId → Outcome)
    (answers : ∀ cell ∈ q.cells ψ, cell ∈ p.cells φ → (φ cell.node).Alike (ψ cell.node)) :
    p.cells φ = q.cells ψ ∧ (p.result φ).Alike (q.result ψ) := by
  induction h with
  | done h => exact ⟨rfl, h⟩
  | read cell _ ih =>
    have hfirst := answers cell (by simp [cells]) (by simp [cells])
    obtain ⟨hcells, hresult⟩ := ih _ _ hfirst fun other hq hp =>
      answers other (by simp [cells, hq]) (by simp [cells, hp])
    exact ⟨by simp [cells, hcells], hresult⟩

/-- If the answers agree on a beginning of what a program records, the next recorded node is one
that a program alike to it reads. -/
theorem Alike.next_read {p q : Program σ} (h : p.Alike q) (φ ψ : NodeId → Outcome)
    {seen before after : List NodeId} {id : NodeId}
    (recorded : record seen (p.cells φ) = before ++ id :: after) (started : seen <+: before)
    (answers : ∀ x ∈ before, (φ x).Alike (ψ x)) : ∃ cell ∈ q.cells ψ, cell.node = id := by
  induction h generalizing seen with
  | done =>
    have length := congrArg List.length recorded
    have := started.length_le
    simp [cells] at length
    omega
  | @read cell next next' _ ih =>
    simp only [cells, record_cons, List.mem_cons, exists_eq_or_imp] at recorded ⊢
    by_cases hid : cell.node = id
    · exact .inl hid
    have hlonger : enlist cell.node seen <+: before := by
      -- both are beginnings of the record, and the one with the cell stops before `id`
      have hrecord := recorded ▸ prefix_record (enlist cell.node seen) _
      rcases List.prefix_or_prefix_of_prefix hrecord (List.prefix_append before _) with h | h
      · exact h
      unfold enlist at hrecord h ⊢
      split
      · exact started
      next hnew =>
        rw [if_neg hnew] at hrecord h
        rcases List.prefix_concat_iff.1 h with rfl | hshort
        · exact List.prefix_rfl
        · have heq := hshort.eq_of_length_le started.length_le
          subst heq
          obtain ⟨rest, hrest⟩ := hrecord
          simp at hrest
          exact absurd hrest.1 hid
    have hcell : cell.node ∈ before := hlonger.subset (mem_enlist.2 (.inl rfl))
    exact .inr (ih _ _ (answers _ hcell) recorded hlonger)

end Program

end LiveTemplate.Reactive
