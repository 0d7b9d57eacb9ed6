/-!
# Choices

* `choices`: all ways to choose one item from each of several lists.
-/

namespace Categorial

/-- All ways to choose one item from each list, where the choice from the first list varies fastest.
Nothing can be chosen from no lists at all. -/
def choices {α : Type} : List (List α) → List (List α)
  | [] => []
  | [l] => l.map fun a => [a]
  | l :: rest => (choices rest).flatMap fun chosen => l.map fun a => a :: chosen

end Categorial
