import Mathlib
import LiveTemplate.Proofs.Expr.Display
import LiveTemplate.Proofs.Path.Grammar

/-!
# Reading displayed paths back

A path is displayed with every key behind a point, also one that was written in quotes. So the text of a
path is read back as the path exactly if all its keys are names (`Path.parse_text_iff`): of any other
key, no more than the name at its front is read behind the point. Paths of names do not share a text.
-/
namespace LiveTemplate.Path

variable {segment : Segment} {p q : Path} {source : String}

/-- All keys of the path are names. -/
def Named (p : Path) : Prop := ∀ key, .key key ∈ p → IsName key.toList

theorem named_cons : Named (segment :: p) ↔
    (∀ key, segment = .key key → IsName key.toList) ∧ Named p := by
  simp only [Named, List.mem_cons, or_imp, forall_and, eq_comm]

/-- All indices of the path are in the bound. -/
def Bounded (p : Path) : Prop := ∀ i, .index i ∈ p → i < 2 ^ 64

theorem bounded_cons : Bounded (segment :: p) ↔
    (∀ i, segment = .index i → i < 2 ^ 64) ∧ Bounded p := by
  simp only [Bounded, List.mem_cons, or_imp, forall_and, eq_comm]

theorem Suffix.index_lt {piece : List Char} {i : Nat} (h : Suffix piece (.index i)) : i < 2 ^ 64 := by
  cases h with
  | index _ _ small => exact small

theorem bounded_of_suffixes {pieces : List (List Char)} (h : List.Forall₂ Suffix pieces p) :
    Bounded p := by
  induction h with
  | nil => exact nofun
  | cons suffix _ ih => exact bounded_cons.2 ⟨fun i hi => (hi ▸ suffix).index_lt, ih⟩

theorem bounded_of_parse (h : parse source = .ok p) : Bounded p := by
  have written := written_of_parse h
  generalize source.toList = cs at written
  cases written with
  | intro _ _ suffixes _ =>
    have bounded := bounded_of_suffixes suffixes
    split_ifs
    · exact bounded
    · exact bounded_cons.2 ⟨nofun, bounded⟩

/-! ## The displayed segments -/

/-- What the segments are displayed as. -/
def pieces (p : Path) : List (List Char) := p.map fun segment => segment.text.toList

theorem toList_text (p : Path) : p.text.toList = "this".toList ++ (pieces p).flatten :=
  Expr.toList_pathText p

theorem text_key (key : String) : (Segment.key key).text.toList = '.' :: key.toList := by
  simp [Segment.text]

theorem text_index (i : Nat) :
    (Segment.index i).text.toList = '[' :: ((toString i).toList ++ [']']) := by
  simp [Segment.text]

theorem suffix_key {key : String} (isName : IsName key.toList) :
    Suffix (Segment.key key).text.toList (.key key) := by
  have suffix := Suffix.member isName
  rwa [String.ofList_toList, ← text_key] at suffix

theorem suffix_index {i : Nat} (small : i < 2 ^ 64) :
    Suffix (Segment.index i).text.toList (.index i) := by
  have value : Numeral.ofDigits (Nat.toDigits 10 i) = i := Nat.ofDigitChars_ten_toDigits
  have suffix := Suffix.index Nat.toDigits_ne_nil Expr.isDigit_of_mem_toDigits (value.symm ▸ small)
  rwa [value, ← Expr.toList_toString, ← text_index] at suffix

theorem suffix_pieces (named : Named p) (bounded : Bounded p) :
    List.Forall₂ Suffix (pieces p) p := by
  induction p with
  | nil => exact .nil
  | cons segment p ih =>
    obtain ⟨name, named⟩ := named_cons.1 named
    obtain ⟨small, bounded⟩ := bounded_cons.1 bounded
    refine .cons ?_ (ih named bounded)
    cases segment with
    | key key => exact suffix_key (name key rfl)
    | index i => exact suffix_index (small i rfl)

theorem stops_pieces (p : Path) : Token.Stops isNameRest (pieces p).flatten := by
  cases p with
  | nil => exact Token.stops_nil _
  | cons segment p =>
    rw [pieces, List.map_cons, List.flatten_cons]
    cases segment with
    | key key =>
      rw [text_key]
      exact Token.stops_cons rfl _
    | index i =>
      rw [text_index]
      exact Token.stops_cons rfl _

/-- A path whose segments are read back has names for keys. -/
theorem named_of_readSuffixes (h : readSuffixes (pieces p).flatten = .ok p) : Named p := by
  induction p with
  | nil => rintro _ ⟨⟩
  | cons segment p ih =>
    rw [pieces, List.map_cons, List.flatten_cons, ← pieces] at h
    have solid : ¬ (segment.text.toList ++ (pieces p).flatten).all Text.isBlank = true := by
      cases segment with
      | key key => simp [text_key, show Text.isBlank '.' = false from rfl]
      | index i => simp [text_index, show Text.isBlank '[' = false from rfl]
    cases hread : readSuffix (segment.text.toList ++ (pieces p).flatten) with
    | error f => cases (readSuffixes_of_error solid hread).symm.trans h
    | ok r =>
      obtain ⟨segment', rest⟩ := r
      rw [readSuffixes_of_ok solid hread] at h
      obtain ⟨p', hrest, hend⟩ := Expr.map_eq_ok.1 h
      obtain ⟨rfl, rfl⟩ := List.cons.inj hend
      cases segment' with
      | key key =>
        rw [text_key, List.cons_append, readSuffix] at hread
        obtain ⟨⟨name, _⟩, hname, hend⟩ := Expr.map_eq_ok.1 hread
        obtain ⟨hkey, rfl⟩ := Prod.mk.inj hend
        obtain rfl : key = String.ofList name := (Segment.key.inj hkey).symm
        obtain ⟨isName, -, hsplit⟩ := readName_eq_ok_iff.1 hname
        rw [String.toList_ofList] at hsplit
        obtain rfl := List.append_cancel_left hsplit
        refine named_cons.2 ⟨?_, ih hrest⟩
        rintro _ ⟨⟩
        rwa [String.toList_ofList]
      | index i =>
        obtain ⟨piece, suffix, -⟩ := readSuffix_eq_ok hread
        have hback := (suffix_index suffix.index_lt).readSuffix (stops_pieces p')
        obtain ⟨-, rfl⟩ := Prod.mk.inj (Except.ok.inj (hread.symm.trans hback))
        exact named_cons.2 ⟨by rintro _ ⟨⟩, ih hrest⟩

/-! ## Whole paths -/

theorem readChars_text (p : Path) : readChars p.text.toList = readSuffixes (pieces p).flatten := by
  have isName : IsName "this".toList := ⟨'t', "his".toList, rfl, rfl, List.all_eq_true.1 rfl⟩
  have hname := readName_eq_ok_iff.2 ⟨isName, stops_pieces p, rfl⟩
  have htrim := isName.trimStart_append (List.forall_mem_nil _) (pieces p).flatten
  rw [List.nil_append] at htrim
  rw [toList_text, readChars, htrim, isName.isEmpty_append, hname]
  dsimp only
  cases readSuffixes (pieces p).flatten <;> rfl

theorem parse_text_eq_ok_iff : parse p.text = .ok q ↔ readSuffixes (pieces p).flatten = .ok q := by
  rw [parse, readChars_text]
  cases readSuffixes (pieces p).flatten <;> simp [Except.mapError]

theorem parse_text_of_named (named : Named p) (bounded : Bounded p) : parse p.text = .ok p := by
  have hread := readSuffixes_flatten (suffix_pieces named bounded) (List.forall_mem_nil _)
  rw [List.append_nil] at hread
  exact parse_text_eq_ok_iff.2 hread

/-- The text of a path that was read is read back as the path exactly if all its keys are names. Two
paths with names for keys do not have the same text. -/
theorem parse_text_iff (h : parse source = .ok p) :
    (parse p.text = .ok p ↔ Named p) ∧
    ∀ {source' q}, parse source' = .ok q → Named p → Named q → p ≠ q → p.text ≠ q.text := by
  have bounded := bounded_of_parse h
  refine ⟨⟨fun hback => named_of_readSuffixes (parse_text_eq_ok_iff.1 hback),
    fun named => parse_text_of_named named bounded⟩, ?_⟩
  intro source' q hq namedP namedQ ne same
  have hp := parse_text_of_named namedP bounded
  rw [same, parse_text_of_named namedQ (bounded_of_parse hq)] at hp
  exact ne (Except.ok.inj hp).symm

/-- Keys in quotes that are names, and an index that is displayed without its leading zero. -/
def indexed : Path := [.key "a", .index 10, .key "$b"]

theorem parse_text_indexed : parse " a[010]['$b'] " = .ok indexed ∧
    (parse indexed.text = .ok indexed ↔ Named indexed) ∧
    parse indexed.text = .ok indexed ∧ Named indexed ∧
    parse "a.b" = .ok [.key "a", .key "b"] ∧ indexed.text ≠ Path.text [.key "a", .key "b"] := by
  have hread : parse " a[010]['$b'] " = .ok indexed := by decide +kernel
  have hback : parse indexed.text = .ok indexed := by decide +kernel
  have hother : parse "a.b" = .ok [.key "a", .key "b"] := by decide +kernel
  have hotherBack : parse (Path.text [.key "a", .key "b"]) = .ok [.key "a", .key "b"] := by
    decide +kernel
  have named := (parse_text_iff hread).1.1 hback
  have otherNamed := (parse_text_iff hother).1.1 hotherBack
  exact ⟨hread, (parse_text_iff hread).1, hback, named, hother,
    (parse_text_iff hread).2 hother named otherNamed (by decide)⟩

/-- A key in quotes that is no name is displayed as if it were two of them. -/
theorem texts_shared : parse "a[\"b.c\"]" = .ok [.key "a", .key "b.c"] ∧
    parse "a.b.c" = .ok [.key "a", .key "b", .key "c"] ∧
    Path.text [.key "a", .key "b.c"] = Path.text [.key "a", .key "b", .key "c"] ∧
    parse (Path.text [.key "a", .key "b.c"]) ≠ .ok [.key "a", .key "b.c"] := by
  have hother : parse (Path.text [.key "a", .key "b.c"]) = .ok [.key "a", .key "b", .key "c"] := by
    decide +kernel
  refine ⟨by decide +kernel, by decide +kernel, by decide +kernel, ?_⟩
  rw [hother]
  decide

end LiveTemplate.Path
