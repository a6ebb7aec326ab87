/-
  This file defines the names of files: the last part of a path,
  its stem, and the change of its extension.

  Slashes and single dots at the end of a path do not count. A
  path whose last part is a parent directory, or that has no
  last part, names no file. A dot in front of a name does not
  start an extension.

  Key definitions include:
    * `PathName.segments`
    * `PathName.setExtension`
    * `PathName.withExtension`
-/

namespace Systolic

namespace PathName

/- The parts of a path between slashes. -/
def segments : List Char → List (List Char)
| [] => [[]]
| c :: cs =>
    if c = '/' then [] :: segments cs
    else
      match segments cs with
      | [] => [[c]]
      | s :: ss => (c :: s) :: ss

/- Drop slashes and single dots in front of a reversed path. -/
def dropTail : List Char → List Char
| '/' :: cs => dropTail cs
| '.' :: '/' :: cs => dropTail cs
| cs => cs

/-
  The stem of a name, both reversed: what stands before the last
  dot, unless nothing does.
-/
def reversedStem (name : List Char) : List Char :=
  match name.dropWhile (fun c => c ≠ '.') with
  | [] => name
  | [_] => name
  | _ :: stem => stem

/- The text that an extension adds to a stem. -/
def suffix (extension : String) : String :=
  if extension = "" then "" else "." ++ extension

/-
  The extension of a name, both reversed: what stands after the
  last dot, unless nothing stands before that dot.
-/
def reversedExtension (name : List Char) : List Char :=
  match name.dropWhile (fun c => c ≠ '.') with
  | _ :: _ :: _ => name.takeWhile (fun c => c ≠ '.')
  | _ => []

/- Put an extension behind the stem of a reversed path that names a file. -/
def setExtension
    (path : List Char)
    (extension : String) : String :=
  let tail := dropTail path
  let name := tail.takeWhile (fun c => c ≠ '/')
  if name = [] ∨ name = ['.'] ∨ name = ['.', '.'] then String.ofList path.reverse
  else
    let directory := tail.dropWhile (fun c => c ≠ '/')
    String.ofList (reversedStem name ++ directory).reverse ++ suffix extension

/-
  Replace the extension of the file that a path names. The old
  extension is cut off first, so a path that then names a parent
  directory gets no new one.
-/
def withExtension
    (path extension : String) : String :=
  let reversed := path.toList.reverse
  let tail := dropTail reversed
  let name := tail.takeWhile (fun c => c ≠ '/')
  let cut := if tail = reversed ∧ name ≠ ['.', '.'] then reversedExtension name else []
  setExtension (reversed.drop cut.length) extension

end PathName

end Systolic
