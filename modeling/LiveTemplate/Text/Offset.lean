/-!
# Byte offsets

Positions in a text are counted in UTF-8 bytes, so an offset is the width of the characters before
it.
-/
namespace LiveTemplate.Text

/-- The number of UTF-8 bytes that a list of characters takes. -/
def width : List Char → Nat
  | [] => 0
  | c :: cs => c.utf8Size + width cs

@[simp] theorem width_nil : width [] = 0 := rfl

@[simp] theorem width_cons (c : Char) (cs : List Char) :
    width (c :: cs) = c.utf8Size + width cs := rfl

@[simp] theorem width_append (xs ys : List Char) : width (xs ++ ys) = width xs + width ys := by
  induction xs with
  | nil => simp
  | cons c cs ih => simp [ih, Nat.add_assoc]

end LiveTemplate.Text
