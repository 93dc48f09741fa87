import ThreeAddress.CommandLine

/-!
# The program

Reads what the arguments ask for and prints the outcome. All that is decided on the way is decided
by `ThreeAddress.CommandLine`.
-/

set_option autoImplicit false

namespace ThreeAddress

partial def readAll (stream : IO.FS.Stream) (before : ByteArray) : IO ByteArray := do
  let bytes ← stream.read 65536
  if bytes.isEmpty then return before
  readAll stream (before ++ bytes)

/-- Reads a file, or finds out why it cannot be read. The codes of `IO` are those of the system,
negated. -/
def readFile (name : String) : IO (Except ReadFault String) := do
  try
    return decodeText (← IO.FS.readBinFile name)
  catch
    | .noFileOrDirectory .. => return .error .notFound
    | .inappropriateType _ code _ =>
      return .error (if 0 - code = 20 then .notDirectory else .isDirectory)
    | error@(.invalidArgument _ code _) =>
      if 0 - code = 36 then return .error .nameTooLong else throw error
    | error => throw error

/-- Draws words for a sample. None needs more than these but by the worst of luck. -/
def drawWords : IO (List UInt32) :=
  (List.range 64).mapM fun _ => do return UInt32.ofNat (← IO.rand 0 (UInt32.size - 1))

def printOutcome (outcome : Outcome) : IO UInt32 := do
  IO.print outcome.output
  for line in outcome.errors do
    IO.eprintln line
  return UInt32.ofNat outcome.code

end ThreeAddress

open ThreeAddress in
/-- Compiles a file, the standard input or a sample, as the arguments say. -/
def main (arguments : List String) : IO UInt32 := do
  let options := Options.ofArguments arguments
  if options.random then
    printOutcome (.ofSample options (← drawWords))
  else
    let input ←
      match options.file with
      | some name => readFile name
      | none => decodeText <$> readAll (← IO.getStdin) .empty
    printOutcome (.ofInput options input)
