import Systolic.CommandLine.Command

/-
  This file defines the program, which runs the command on the
  files of the system.

  Key definitions include:
    * `main`
-/

namespace Systolic

/-
  The fault of a path that leads to the wrong kind of file. The
  system gives its code as it is or negated.
-/
def wrongKind (code : UInt32) : FileFault :=
  if code = 20 ∨ 0 - code = 20 then .notDirectory else .isDirectory

/- The fault that an error of the system stands for. -/
def faultOf : IO.Error → FileFault
| .noFileOrDirectory .. => .notFound
| .inappropriateType _ code _ => wrongKind code
| e@(.invalidArgument _ code _) =>
    if code = 36 ∨ 0 - code = 36 then .nameTooLong else .other (toString e)
| e => .other (toString e)

/- Try an action on the system. -/
def attempt
    {α : Type}
    (action : IO α) : IO (Except FileFault α) := do
  try
    return .ok (← action)
  catch e =>
    return .error (faultOf e)

/- Access to the files of the system. -/
def systemFiles : FileAccess IO :=
  { read := fun path => attempt (IO.FS.readFile path)
    write := fun path bytes =>
      attempt (IO.FS.writeBinFile path ⟨bytes.toArray⟩) }

end Systolic

/- Run the command with the given arguments. -/
def main (arguments : List String) : IO UInt32 := do
  let outcome ← Systolic.runCommand Systolic.systemFiles arguments
  IO.print outcome.stdout
  IO.eprint outcome.stderr
  return outcome.exitCode.toUInt32
