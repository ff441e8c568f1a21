import LiveTemplate.Proofs.Expr.Display
import LiveTemplate.Proofs.Expr.Relevance

/-!
# Indices and their digits

An index and the key of its decimal digits name the same member of an object, which has keys only, and of
an array, which has indices only, and nothing of a value without members. Texts are the exception: their
characters have indices and no keys (`Value.member_digits`). So a path goes the same way with the one or
the other, unless it takes a character of a text (`Path.index_as_key`).
-/
namespace LiveTemplate

open Reactive

theorem toString_ne_length (i : Nat) : toString i ≠ "length" := by
  intro h
  have letter : 'l' ∈ Nat.toDigits 10 i := by
    rw [← Expr.toList_toString, h]
    decide
  exact absurd (Expr.isDigit_of_mem_toDigits _ letter) (by decide)

namespace Value

variable {v : Value} {i : Nat}

/-- A text has no members by the digits of an index, and any other value has the same as by the index. -/
theorem member_digits (bound : i ≤ maxIndex) (v : Value) :
    v.member (.key (toString i)) = if v.asText = none then v.member (.index i) else .undefined := by
  cases v with
  | text s => exact if_neg (toString_ne_length i)
  | array j items =>
    refine (if_neg (toString_ne_length i)).trans ?_
    rw [Expr.readIndex_toString bound]
    rfl
  | _ => rfl

/-- The member of a text by an index is one of its characters. -/
theorem member_text_index (s : String) (i : Nat) : (text s).member (.index i) =
    match s.toList[i]? with
    | some c => .text (String.singleton c)
    | none => .undefined :=
  rfl

theorem member_index_cases (bound : i ≤ maxIndex) (v : Value) :
    v.member (.index i) = v.member (.key (toString i)) ∨
      ∃ s c, v = .text s ∧ s.toList[i]? = some c ∧
        v.member (.index i) = .text (String.singleton c) ∧
        v.member (.key (toString i)) = .undefined := by
  rw [member_digits bound]
  cases v with
  | text s =>
    rw [member_text_index]
    cases hc : s.toList[i]? with
    | none => exact .inl rfl
    | some c => exact .inr ⟨s, c, rfl, hc, rfl, rfl⟩
  | _ => exact .inl rfl

theorem member_index_eq (bound : i ≤ maxIndex) (short : ∀ s, v = .text s → s.toList.length ≤ i) :
    v.member (.index i) = v.member (.key (toString i)) := by
  rcases member_index_cases bound v with same | ⟨s, c, hv, hc, -⟩
  · exact same
  · obtain ⟨below, -⟩ := List.getElem?_eq_some_iff.1 hc
    exact absurd (short s hv) (by omega)

end Value

namespace Path

variable {σ : Type} {i : Nat}

theorem walk_index_eq {v : Value} (bound : i ≤ maxIndex)
    (short : ∀ s, v = .text s → s.toList.length ≤ i) (q : Path) :
    walk (σ := σ) v (.index i :: q) = walk v (.key (toString i) :: q) := by
  rw [walk, walk, Value.member_index_eq bound short]

/-- An index and the key of its decimal digits name the same member of every value, unless the value is a
text with a character at the index, which has no such key. In an expression, a path that goes on with
the index runs as the one that goes on with the key, wherever its beginning does not lead to such a
text. -/
theorem index_as_key (bound : i ≤ maxIndex) :
    (∀ v : Value, v.member (.index i) = v.member (.key (toString i)) ∨
      ∃ s c, v = .text s ∧ s.toList[i]? = some c ∧
        v.member (.index i) = .text (String.singleton c) ∧
        v.member (.key (toString i)) = .undefined) ∧
    ∀ {σ : Type} {context : Value} {p : Path} (q : Path) {depth : Nat}
      {refresh : NodeId → Engine σ → Option (Engine σ)} {e : Engine σ},
      (∀ s e', ((Expr.path p).evaluate context).exec depth refresh e = some (.ok (.text s), e') →
        s.toList.length ≤ i) →
      ((Expr.path (p ++ .index i :: q)).evaluate context).exec depth refresh e =
        ((Expr.path (p ++ .key (toString i) :: q)).evaluate context).exec depth refresh e := by
  refine ⟨Value.member_index_cases bound, fun q depth refresh e short => ?_⟩
  simp only [Expr.evaluate, resolve_append] at short ⊢
  refine Program.exec_bind_congr fun {v e'} ran => ?_
  rw [walk_index_eq bound fun s hv => short s e' (hv ▸ ran)]

/-- Two words in an array. -/
def words : Value := .object 0 [("x", .array 1 [.text "ab", .text "cd"])]

def quiet : Engine Unit := .start .default ()

/-- The beginning of the path leads to the array, and its rest takes a letter of the word. -/
theorem index_as_key_word :
    1 ≤ maxIndex ∧
    (Value.array 1 [.text "ab", .text "cd"]).member (.key (toString 1)) = .text "cd" ∧
    (∀ s e', ((Expr.path [.key "x"]).evaluate words).exec 0 (fun _ _ => none) quiet =
      some (.ok (.text s), e') → s.toList.length ≤ 1) ∧
    ((Expr.path ([.key "x"] ++ .key (toString 1) :: [.index 0])).evaluate words).exec 0
      (fun _ _ => none) quiet = some (.ok (.text "c"), quiet) := by
  have bound : 1 ≤ maxIndex := by decide
  have array : ((Expr.path [.key "x"]).evaluate words).exec 0 (fun _ _ => none) quiet =
      some (.ok (.array 1 [.text "ab", .text "cd"]), quiet) := rfl
  have short : ∀ s e', ((Expr.path [.key "x"]).evaluate words).exec 0 (fun _ _ => none) quiet =
      some (.ok (.text s), e') → s.toList.length ≤ 1 := by
    rw [array]
    nofun
  refine ⟨bound, ?_, short, ?_⟩
  · rcases (index_as_key bound).1 (.array 1 [.text "ab", .text "cd"]) with same | ⟨s, c, text, -⟩
    · exact same.symm
    · cases text
  · rw [← (index_as_key bound).2 [.index 0] short]
    rfl

/-- The first letter of a text is its member by the index, and not by the key. -/
theorem keys_miss_letters : (Value.text "ab").isReactive = false ∧
    (Value.text "ab").member (.index 0) = .text "a" ∧
    (Value.text "ab").member (.key (toString 0)) = .undefined ∧
    (Value.text "ab").member (.index 0) ≠ (Value.text "ab").member (.key (toString 0)) := by
  have letter : (Value.text "ab").member (.index 0) = .text "a" := rfl
  have nothing : (Value.text "ab").member (.key (toString 0)) = .undefined := rfl
  exact ⟨rfl, letter, nothing, by rw [letter, nothing]; nofun⟩

end Path

end LiveTemplate
