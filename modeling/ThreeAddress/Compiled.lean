import ThreeAddress.Folding
import ThreeAddress.Grammar
import ThreeAddress.Linearize
import ThreeAddress.Outline
import ThreeAddress.Surface

/-!
# Compiled programs

All the way from what people write to folded code. A text is normalized, read as a program, made
into code, and the code is folded; what comes of each step is kept. A text can fail to be a program,
and a program can fail when its constants are worked out, and in both cases the diagnostic points
into the normalized text.
-/

set_option autoImplicit false

namespace ThreeAddress

/-- What comes of a program, step by step. -/
structure Compiled where
  /-- The normalized text. All places are places in it. -/
  source : String
  stmts : List Stmt
  code : List Instr
  folded : Folded
  outline : Outline

inductive CompileError where
  | parsing (diagnostic : Diagnostic)
  | evaluation (diagnostic : Diagnostic)

namespace CompileError

/-- What is wrong, and where in the normalized text. -/
def diagnostic : CompileError → Diagnostic
  | parsing diagnostic | evaluation diagnostic => diagnostic

end CompileError

/-- The variable that an expression alone is assigned to, if no other is asked for. -/
def defaultTarget : String := "x"

namespace Compiled

/-- Compiles what people write. An expression alone is assigned to `target`, and the answer of the
program is what `target` has in the end. -/
def ofText (target text : String) : Except CompileError Compiled := do
  let source := Surface.normalize target text
  let stmts ← (parseProgram source).mapError .parsing
  let code := linearize stmts
  let folded ← (Folded.ofCode target code).mapError .evaluation
  return ⟨source, stmts, code, folded, .ofProgram stmts⟩

example : (ofText "x" "3x + 5").toOption.map (·.folded.code.map Instr.text)
    = some ["t1 = 3 * x", "t3 = t1 + 5", "x = t3"] := by
  decide +kernel

example : (ofText "x" "2 + 3 * 4").toOption.map (·.folded.code.map Instr.text)
    = some ["x = 14"] := by
  decide +kernel

end Compiled

/-! ### In JSON -/

def Number.toJson : Number → Json
  | int n => .int n.toInt
  | float x => .ofFloat x

def codeJson (code : List Instr) : Json := .arr (code.map fun instr => .str instr.text)

/-- What comes of a text in JSON, where `text` is the text before it was normalized. -/
def outcomeJson (text : String) : Except CompileError Compiled → Json
  | .ok compiled =>
    .obj [("tac", codeJson compiled.code),
      ("optimized_tac", codeJson compiled.folded.code),
      ("final_result", (compiled.folded.result.map Number.toJson).getD .null),
      ("original_expr", .str text),
      ("processed_expr", .str compiled.source),
      ("ast", compiled.outline.toJson)]
  | .error error =>
    .obj [("error", .str error.diagnostic.message), ("original_expr", .str text)]

/-! ### As text -/

namespace Compiled

def listing (heading : String) (code : List Instr) : String :=
  heading ++ ":\n" ++ String.join (code.map fun instr => "  " ++ instr.text ++ "\n")

def summary (text : String) (compiled : Compiled) : String :=
  let result := (compiled.folded.result.map Number.text).getD "unresolved"
  "original:  " ++ String.ofList (trimWhiteSpace text.toList) ++ "\n"
    ++ "processed: " ++ compiled.source ++ "\n"
    ++ "\n" ++ listing "tac" compiled.code
    ++ "\n" ++ listing "optimized" compiled.folded.code
    ++ "\nresult: " ++ result ++ "\n"
    ++ "\ntree:\n" ++ compiled.outline.text

end Compiled

end ThreeAddress
