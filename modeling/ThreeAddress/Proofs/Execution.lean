import Mathlib.Logic.Function.Basic
import ThreeAddress.Folding
import ThreeAddress.Proofs.Numbers

/-!
# Running code

What three-address code means. Instructions are carried out one after the other on a store. A run
leaves a `Trace`: the writes to variables, in order, and how the run ended. It can end before the
code does, by a fault of evaluation or by reading a temporary that nothing was written to.

Values are a parameter, an `Interpretation`. With numbers for values (`exactly`) a run is the run of
a program; with numbers that may be unknown (`partly`) it is what can be said of all runs without
knowing where they begin. What holds of both is said once, of any interpretation.
-/

set_option autoImplicit false

namespace ThreeAddress

/-! ## Values

The laws asked of an interpretation are kept to the one that linearization needs. A sign over a
constant is carried out while the code is made, and the code must not come to anything else for
that. -/

/-- What values are, and what the operators do with them. A constant with a sign in front has the
value that it has when the sign is carried out first. An operator may fail, and does so with no
regard to where it stands; the place is added in a run. -/
structure Interpretation (V : Type) where
  const : Number → V
  unary : UnOp → V → Except EvalFault V
  binary : BinOp → V → V → Except EvalFault V
  unary_const : ∀ op n, unary op (const n) = (Number.unary op n).map const

namespace Interpretation

/-- Values are numbers. -/
def exactly : Interpretation Number where
  const n := n
  unary := Number.unary
  binary := Number.binary
  unary_const op n := by cases Number.unary op n <;> rfl

/-- Values are numbers as far as they are known. What is computed from something unknown is unknown,
and no fault. `partly` asks for both operands even where one decides the outcome, as zero does in a
product. -/
def partly : Interpretation (Option Number) where
  const := some
  unary
    | op, some a => (Number.unary op a).map some
    | _, none => .ok none
  binary
    | op, some a, some b => (Number.binary op a b).map some
    | _, _, _ => .ok none
  unary_const _ _ := rfl

end Interpretation

/-! ## Traces

A run is looked at from outside: temporaries are not seen, and of the variables every write is, with
its value. Traces are put in a row with `andThen`, which is where a run that ended early keeps the
rest from happening. -/

/-- What can be seen of a run: the writes to variables, and the end. -/
@[ext]
structure Trace (ε V α : Type) where
  writes : List (String × V)
  ending : Except ε α

namespace Trace

variable {ε ε' V α β γ : Type}

/-- A run in which nothing was written. -/
def finish (ending : Except ε α) : Trace ε V α := ⟨[], ending⟩

/-- The same run with writes before it. -/
def after (earlier : List (String × V)) (t : Trace ε V α) : Trace ε V α :=
  ⟨earlier ++ t.writes, t.ending⟩

/-- Goes on from a run that finished. -/
def andThen (t : Trace ε V α) (next : α → Trace ε V β) : Trace ε V β :=
  match t.ending with
  | .ok a => (next a).after t.writes
  | .error e => ⟨t.writes, .error e⟩

/-- Looks at the end of a run that finished through a function. -/
def map (f : α → β) (t : Trace ε V α) : Trace ε V β := ⟨t.writes, t.ending.map f⟩

/-- Puts the reason for an early end in other terms. -/
def mapError (f : ε → ε') (t : Trace ε V α) : Trace ε' V α := ⟨t.writes, t.ending.mapError f⟩

theorem after_append (w w' : List (String × V)) (t : Trace ε V α) :
    t.after (w ++ w') = (t.after w').after w := by
  simp [after]

theorem andThen_after (w : List (String × V)) (t : Trace ε V α) (next : α → Trace ε V β) :
    (t.after w).andThen next = (t.andThen next).after w := by
  obtain ⟨writes, ending⟩ := t
  cases ending with
  | error e => rfl
  | ok a => exact after_append w writes (next a)

/-- Going on commutes with looking, if what is looked at is all that matters for going on. It is
what carries an equality of runs over a list of statements. -/
theorem map_andThen {δ : Type} {f : α → β} {g : γ → δ} {next : α → Trace ε V γ}
    {next' : β → Trace ε V δ} (h : ∀ a, (next a).map g = next' (f a)) (t : Trace ε V α) :
    (t.andThen next).map g = (t.map f).andThen next' := by
  obtain ⟨writes, ending⟩ := t
  cases ending with
  | error e => rfl
  | ok a =>
    show ((next a).after writes).map g = (next' (f a)).after writes
    rw [← h a]
    rfl

/-- The reason for an early end is carried along and decides nothing, so its terms can be changed
before or after. -/
theorem mapError_andThen (f : ε → ε') (t : Trace ε V α) (next : α → Trace ε V β) :
    (t.andThen next).mapError f = (t.mapError f).andThen fun a => (next a).mapError f := by
  obtain ⟨writes, ending⟩ := t
  cases ending <;> rfl

end Trace

/-! ## Stores

Variables and temporaries are kept apart, so that a store can be looked at through its variables
alone. -/

/-- What the places hold. Every variable holds something, a temporary only once it was written. A
temporary that is read before that stops the run. -/
structure Store (V : Type) where
  vars : String → V
  temps : Nat → Option V

namespace Store

variable {V : Type}

/-- A store in which no temporary was written. -/
def start (vars : String → V) : Store V := ⟨vars, fun _ => none⟩

/-- What the place holds. Nothing if it is a temporary that was not written yet. -/
def read (s : Store V) : Place → Option V
  | .temp n => s.temps n
  | .var x => some (s.vars x)

def write (s : Store V) (p : Place) (v : V) : Store V :=
  match p with
  | .temp n => { s with temps := Function.update s.temps n (some v) }
  | .var x => { s with vars := Function.update s.vars x v }

theorem read_write (s : Store V) (p q : Place) (v : V) :
    (s.write p v).read q = if q = p then some v else s.read q := by
  cases p with
  | temp m => cases q <;> simp [write, read, Function.update_apply]
  | var x =>
    cases q with
    | temp n => simp [write, read]
    | var y => by_cases h : y = x <;> simp [write, read, h]

@[simp] theorem read_write_self (s : Store V) (p : Place) (v : V) :
    (s.write p v).read p = some v := by
  rw [read_write, if_pos rfl]

theorem read_write_of_ne (s : Store V) {p q : Place} (h : q ≠ p) (v : V) :
    (s.write p v).read q = s.read q := by
  rw [read_write, if_neg h]

end Store

/-! ## Runs

An instruction is evaluated before it writes, and a fault leaves no write. So a step either stops
the run with nothing seen or hands on a store. -/

/-- Why a run ends before the code does. -/
inductive Halt where
  | fault (diagnostic : Diagnostic)
  /-- Nothing was written to the place before it was read. -/
  | unwritten (place : Place)

variable {V : Type}

/-- The value of an operand. Reading a temporary too early is an end of its own, different from
every fault: no program of the language can come to it, only code that was not made from one. -/
def Operand.eval (I : Interpretation V) (s : Store V) : Operand → Except Halt V
  | const n => .ok (I.const n)
  | place p =>
    match s.read p with
    | some v => .ok v
    | none => .error (.unwritten p)

/-- What an operator gave, in an instruction or expression that stands at `span`. -/
def outcomeAt (span : Span) (outcome : Except EvalFault V) : Except Diagnostic V :=
  outcome.mapError (.evaluation span)

/-- The left operand is read before the right one, and the operator is applied to both. -/
def Computation.eval (I : Interpretation V) (s : Store V) (span : Span) :
    Computation → Except Halt V
  | copy a => a.eval I s
  | unary op a => do
    let v ← a.eval I s
    (outcomeAt span (I.unary op v)).mapError .fault
  | binary op a b => do
    let v ← a.eval I s
    let w ← b.eval I s
    (outcomeAt span (I.binary op v w)).mapError .fault

/-- What is seen of a write to a place. -/
def Place.seen (p : Place) (v : V) : List (String × V) :=
  match p with
  | temp _ => []
  | var x => [(x, v)]

/-- Carries out one instruction. -/
def Instr.step (I : Interpretation V) (s : Store V) (instr : Instr) : Trace Halt V (Store V) :=
  match instr.value.eval I s instr.span with
  | .ok v => ⟨instr.dest.seen v, .ok (s.write instr.dest v)⟩
  | .error halt => ⟨[], .error halt⟩

/-- Carries out instructions in order. -/
def run (I : Interpretation V) (s : Store V) : List Instr → Trace Halt V (Store V)
  | [] => .finish (.ok s)
  | instr :: code => (instr.step I s).andThen fun s => run I s code

section

variable {I : Interpretation V} {s : Store V} {instr : Instr} {code : List Instr}

/-! Equations for one instruction that succeeds or fails, and for code in two parts. `run` is not
opened again outside of them. -/

theorem step_ok {v : V} (h : instr.value.eval I s instr.span = .ok v) :
    instr.step I s = ⟨instr.dest.seen v, .ok (s.write instr.dest v)⟩ := by
  simp only [Instr.step, h]

theorem step_error {halt : Halt} (h : instr.value.eval I s instr.span = .error halt) :
    instr.step I s = .finish (.error halt) := by
  simp only [Instr.step, h, Trace.finish]

theorem run_cons_ok {v : V} (h : instr.value.eval I s instr.span = .ok v) :
    run I s (instr :: code) = (run I (s.write instr.dest v) code).after (instr.dest.seen v) := by
  simp only [run, step_ok h, Trace.andThen]

theorem run_cons_error {halt : Halt} (h : instr.value.eval I s instr.span = .error halt) :
    run I s (instr :: code) = .finish (.error halt) := by
  simp only [run, step_error h, Trace.andThen, Trace.finish]

/-- By induction on the first part. The writes of its first step stand before everything that
follows. -/
theorem run_append (code rest : List Instr) :
    run I s (code ++ rest) = (run I s code).andThen fun s => run I s rest := by
  induction code generalizing s with
  | nil => rfl
  | cons instr code ih =>
    cases h : instr.value.eval I s instr.span with
    | error halt => rw [List.cons_append, run_cons_error h, run_cons_error h]; rfl
    -- both sides write what the first instruction writes, and then go on alike
    | ok v => rw [List.cons_append, run_cons_ok h, run_cons_ok h, ih, Trace.andThen_after]

/-- After code that finished without writing to a variable, the run goes on where it ended. -/
theorem run_append_of_silent {s' : Store V} (rest : List Instr)
    (h : run I s code = .finish (.ok s')) : run I s (code ++ rest) = run I s' rest := by
  rw [run_append, h]
  rfl

theorem run_append_of_error {halt : Halt} (rest : List Instr)
    (h : run I s code = .finish (.error halt)) :
    run I s (code ++ rest) = .finish (.error halt) := by
  rw [run_append, h]
  rfl

theorem run_singleton {v : V} (h : instr.value.eval I s instr.span = .ok v) :
    run I s [instr] = ⟨instr.dest.seen v, .ok (s.write instr.dest v)⟩ := by
  rw [run_cons_ok h, run, Trace.finish, Trace.after, List.append_nil]

end

end ThreeAddress
