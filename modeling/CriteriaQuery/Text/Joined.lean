/-!
# Joined and repeated text

Texts of a list set side by side with a separator between neighbours.
-/

namespace CriteriaQuery.Text

/-- The texts in order, with the separator between each two neighbours. -/
def joined (separator : String) : List String → String
  | [] => ""
  | [s] => s
  | s :: t :: rest => s ++ separator ++ joined separator (t :: rest)

/-- The same text set down `n` times. -/
def repeated (s : String) : Nat → String
  | 0 => ""
  | n + 1 => s ++ repeated s n

variable {separator : String}

@[simp] theorem joined_nil : joined separator [] = "" := rfl

@[simp] theorem joined_singleton (s : String) : joined separator [s] = s := rfl

theorem joined_cons_cons (s t : String) (rest : List String) :
    joined separator (s :: t :: rest) = s ++ separator ++ joined separator (t :: rest) := rfl

end CriteriaQuery.Text
