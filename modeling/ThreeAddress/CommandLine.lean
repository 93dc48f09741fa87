import ThreeAddress.Compiled
import ThreeAddress.Report
import ThreeAddress.Sample

/-!
# The command line

What the program does with its arguments and its input, short of reading and printing: an argument
is a flag or the name of a file, the text of the file or else of the standard input is compiled, and
the outcome goes to the two outputs. A program that does not compile is no failure of the command:
it is reported, and the exit code stays zero. Only an input that cannot be read is one.
-/

set_option autoImplicit false

namespace ThreeAddress

/-! ### Arguments -/

/-- What the arguments ask for. -/
structure Options where
  /-- Whether the outcome is printed as JSON. -/
  json : Bool
  /-- Whether a sample is compiled in the stead of an input. -/
  random : Bool
  file : Option String
  deriving DecidableEq, Repr

namespace Options

/-- Takes one more argument. Of several files the last counts. -/
def add (options : Options) (argument : String) : Options :=
  if argument = "--json" then { options with json := true }
  else if argument = "--random" then { options with random := true }
  else { options with file := some argument }

def ofArguments (arguments : List String) : Options := arguments.foldl add ⟨false, false, none⟩

end Options

/-! ### Outcome -/

/-- Why an input cannot be read. -/
inductive ReadFault where
  | notFound
  | isDirectory
  /-- Something in the name is used as a directory and is none. -/
  | notDirectory
  | nameTooLong
  | notUtf8
  deriving DecidableEq, Repr

def ReadFault.message : ReadFault → String
  | notFound => "No such file or directory (os error 2)"
  | isDirectory => "Is a directory (os error 21)"
  | notDirectory => "Not a directory (os error 20)"
  | nameTooLong => "File name too long (os error 36)"
  | notUtf8 => "stream did not contain valid UTF-8"

def decodeText (bytes : ByteArray) : Except ReadFault String :=
  match String.fromUTF8? bytes with
  | some text => .ok text
  | none => .error .notUtf8

/-- What the command prints and ends with. -/
structure Outcome where
  code : Nat
  output : String
  errors : List String
  deriving DecidableEq, Repr

namespace Outcome

/-- What comes of a text. As JSON everything goes to the output, a fault as well; else a fault is
drawn for the other output. -/
def ofText (options : Options) (text : String) : Outcome :=
  let result := Compiled.ofText defaultTarget text
  if options.json then ⟨0, (outcomeJson text result).pretty ++ "\n", []⟩
  else
    match result with
    | .ok compiled => ⟨0, compiled.summary text, []⟩
    | .error error =>
      ⟨0, "", error.diagnostic.report "input" (Surface.normalize defaultTarget text)⟩

def ofFault (fault : ReadFault) : Outcome := ⟨1, "", ["error: " ++ fault.message]⟩

def ofInput (options : Options) : Except ReadFault String → Outcome
  | .ok text => ofText options text
  | .error fault => ofFault fault

/-- The outcome for a sample, which is shown before the text of what comes of it. -/
def ofSample (options : Options) (words : List UInt32) : Outcome :=
  let text := (Sample.ofWords words).1
  let outcome := ofText options text
  if options.json then outcome
  else { outcome with output := "generated: " ++ text ++ "\n\n" ++ outcome.output }

end Outcome

end ThreeAddress
