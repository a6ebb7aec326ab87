import Systolic.Text.Hidden
import Systolic.Text.Numeral

/-
  This file defines quoted text. Quotes and backslashes get a
  backslash, tabs and line ends and the null character are
  written by a letter, and any other hidden character by its
  number.

  Key definitions include:
    * `escapeChar`
    * `quoted`
-/

namespace Systolic

/- A character as it stands inside quotes. -/
def escapeChar (c : Char) : String :=
  if c = '\x00' then "\\0"
  else if c = '\t' then "\\t"
  else if c = '\r' then "\\r"
  else if c = '\n' then "\\n"
  else if c = '"' then "\\\""
  else if c = '\\' then "\\\\"
  else if isHidden c then
    "\\u\x7b" ++ String.ofList (hexDigits 1 c.toNat) ++ "\x7d"
  else c.toString

/- A text inside quotes. -/
def quoted (s : String) : String :=
  "\"" ++ String.join (s.toList.map escapeChar) ++ "\""

end Systolic
