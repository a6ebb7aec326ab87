/-
  This file defines the numerals that reports and listings
  use: decimal, hexadecimal and binary digits, padded on the
  left to a least width.

  Key definitions include:
    * `padLeft`
    * `hexText`
    * `addressText`
    * `shapeText`
-/

namespace Systolic

------------------------------------------------------------
-- Padding
------------------------------------------------------------

/- Pad a list of characters on the left to a least width. -/
def padLeft
    (width : Nat)
    (fill : Char)
    (cs : List Char) : List Char :=
  List.replicate (width - cs.length) fill ++ cs

------------------------------------------------------------
-- Numbers
------------------------------------------------------------

/- A number in base sixteen with at least `width` digits. -/
def hexDigits
    (width n : Nat) : List Char :=
  padLeft width '0' (Nat.toDigits 16 n)

/- A number in base sixteen after the mark `0x`. -/
def hexText (n : Nat) : String :=
  "0x" ++ String.ofList (hexDigits 1 n)

/- A number in base sixteen with capital digits. -/
def hexUpperText (n : Nat) : String :=
  "0x" ++ String.ofList ((hexDigits 1 n).map Char.toUpper)

/- A memory address: at least four digits in base sixteen. -/
def addressText (n : Nat) : String :=
  "0x" ++ String.ofList (hexDigits 4 n)

/- Flag bits: at least four binary digits. -/
def flagsText (n : Nat) : String :=
  "0b" ++ String.ofList (padLeft 4 '0' (Nat.toDigits 2 n))

/- A decimal number, right-aligned in a column of a given width. -/
def columnText
    (width n : Nat) : String :=
  String.ofList (padLeft width ' ' (Nat.toDigits 10 n))

------------------------------------------------------------
-- Bytes and Shapes
------------------------------------------------------------

/- A byte as two digits in base sixteen. -/
def byteText (b : UInt8) : String :=
  String.ofList (hexDigits 2 b.toNat)

/- A list of bytes, two digits each. -/
def bytesText (bs : List UInt8) : String :=
  String.join (bs.map byteText)

/- A shape as a bracketed list of dimensions. -/
def shapeText (shape : List Nat) : String :=
  "[" ++ ", ".intercalate (shape.map toString) ++ "]"

end Systolic
