import Calculator.Error
import Calculator.Operator
import Calculator.Token.Basic

/-!
The machine that runs code. It keeps a stack of values and the generator of random numbers.
Operators and functions take single numbers only; a tuple can be nothing but the result.
-/

namespace Calculator.Code

inductive Value
  | scalar (x : Float)
  | tuple (components : List Float)
deriving DecidableEq

namespace Value

def components : Value → List Float
  | scalar x => [x]
  | tuple xs => xs

def arity (v : Value) : Nat := v.components.length

end Value

structure Machine where
  stack : List Value
  generator : Random.Generator
deriving DecidableEq

namespace Machine

def popScalar : List Value → Except Error (Float × List Value)
  | .scalar x :: rest => .ok (x, rest)
  | .tuple xs :: _ => .error (.operand (.tuple xs.length))
  | [] => .error (.operand .missing)

/-- Takes numbers off the stack; the one taken first is the last in source order. -/
def popScalars : (count : Nat) → List Value →
    Except Error ({ xs : List Float // xs.length = count } × List Value)
  | 0, stack => .ok (⟨[], rfl⟩, stack)
  | count + 1, stack => do
    let (x, stack) ← popScalar stack
    let (⟨xs, h⟩, stack) ← popScalars count stack
    .ok (⟨xs ++ [x], by simp [h]⟩, stack)

/-- A call is refused if its number of arguments is not the function's, or if there are fewer
values than it claims. -/
def call (m : Machine) (name : String) (arity : Nat) : Except Error Machine := do
  let some f := Builtin.ofName? name | .error (.function name)
  if arity < f.arity then .error (.tooFewArguments name f.arity arity)
  else if f.arity < arity then .error (.tooManyArguments name f.arity arity)
  else if m.stack.length < arity then .error (.tooFewArguments name f.arity m.stack.length)
  else
    let (args, stack) ← popScalars f.arity m.stack
    let (x, generator) := f.apply args.1 args.2 m.generator
    .ok ⟨.scalar x :: stack, generator⟩

def step (m : Machine) : Token → Except Error Machine
  | .number x => .ok { m with stack := .scalar x :: m.stack }
  | .prefixOp symbol => do
    let some rule := Operator.signOfSymbol? symbol | .error (.operator symbol)
    let (x, stack) ← popScalar m.stack
    .ok { m with stack := .scalar (rule x) :: stack }
  | .binaryOp symbol => do
    let some op := Operator.ofSymbol? symbol | .error (.operator symbol)
    let (right, stack) ← popScalar m.stack
    let (left, stack) ← popScalar stack
    .ok { m with stack := .scalar (op.apply left right) :: stack }
  | .call name arity => m.call name.text arity
  | .tuple arity => do
    if m.stack.length < arity then .error (.operand (.shortTuple arity m.stack.length))
    else
      let (components, stack) ← popScalars arity m.stack
      .ok { m with stack := .tuple components.1 :: stack }
  | token => .error (.equation (.delimiterInCode token.text))

/-- Runs code to its end or to the first token that fails; the machine is then the one before it.
-/
def run (m : Machine) : List Token → Except Error Unit × Machine
  | [] => (.ok (), m)
  | token :: rest =>
    match m.step token with
    | .error e => (.error e, m)
    | .ok m => m.run rest

def result (m : Machine) : Except Error (List Float) :=
  match m.stack with
  | [value] => .ok value.components
  | stack => .error (.equation (.surplus stack.length))

end Machine

/-- What code evaluates to, and the generator that is left, also by a failure. -/
def evaluate (code : List Token) (g : Random.Generator) :
    Except Error (List Float) × Random.Generator :=
  if code = [] then (.error (.equation .empty), g)
  else
    match Machine.run ⟨[], g⟩ code with
    | (.error e, m) => (.error e, m.generator)
    | (.ok (), m) => (m.result, m.generator)

/-- How many components code evaluates to, read off its last token. -/
def resultArity (code : List Token) : Nat :=
  match code.getLast? with
  | some (.tuple arity) => arity
  | some _ => 1
  | none => 0

end Calculator.Code
