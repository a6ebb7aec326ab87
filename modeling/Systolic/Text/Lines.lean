/-
  This file defines the lines of a text. A line ends at a line
  feed, with or without a carriage return before it, and the
  last line may end with the text. A text that ends in a line
  feed has no empty line after it.

  Key definitions include:
    * `lines`
    * `unlines`
-/

namespace Systolic

/- The lines of a text, without their ends. -/
def lines : List Char → List (List Char)
| [] => []
| '\r' :: '\n' :: cs => [] :: lines cs
| '\n' :: cs => [] :: lines cs
| c :: cs =>
    match lines cs with
    | [] => [[c]]
    | l :: ls => (c :: l) :: ls

/- A text that ends each of the given lines with a line feed. -/
def unlines (ls : List String) : String :=
  String.join (ls.map (fun l => l ++ "\n"))

end Systolic
