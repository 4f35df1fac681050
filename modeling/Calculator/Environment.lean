import Calculator.Error
import Calculator.Number.Written
import Calculator.Operator
import Calculator.Builtin
import Calculator.Text.Letter
import Std.Data.TreeMap.Basic

/-!
What formulas are read and evaluated in: the variables and the random numbers. The operators and
functions are the same everywhere.
-/

namespace Calculator

structure Environment where
  values : Std.TreeMap String Float
  /-- The seed that the generator was last started with. -/
  seed : UInt32
  generator : Random.Generator

namespace Environment

def defaultSeed : UInt32 := 5489

def constants : Std.TreeMap String Float :=
  .ofList [("pi", 3.141592653589793), ("tau", 6.283185307179586), ("e", 2.718281828459045)]

def ofSeed (seed : UInt32) : Environment := ⟨constants, seed, .ofSeed seed⟩

def initial : Environment := ofSeed defaultSeed

def reseed (env : Environment) (seed : UInt32) : Environment :=
  { env with seed, generator := .ofSeed seed }

/-- A variable is named by letters, at least one. -/
def isName (name : String) : Bool := !name.isEmpty && name.toList.all Text.isLetter

def lookup (env : Environment) (name : String) : Option Float := env.values[name]?

/-- The variable's value before, and the environment with its new value. -/
def set (env : Environment) (name : String) (value : Float) :
    Except Error (Option Float × Environment) :=
  if isName name then
    .ok (env.lookup name, { env with values := env.values.insert name value })
  else .error (.variableName name)

/-- The variable's value before, and the environment without it. -/
def remove (env : Environment) (name : String) : Option Float × Environment :=
  (env.lookup name, { env with values := env.values.erase name })

/-- The environment on one line; variables, operators and functions ascend. -/
def description (env : Environment) : String :=
  let quoted (name : String) := "\"" ++ name ++ "\""
  let list (items : List String) := ", ".intercalate items
  let values := env.values.toList.map fun (name, x) => quoted name ++ ": " ++ Number.compact x
  let operators := Operator.all.map fun op => "'" ++ op.symbol.toString ++ "'"
  let functions := Builtin.all.map fun f => quoted f.name.text
  "Engine \x7b variables: \x7b" ++ list values ++ "\x7d, operators: [" ++ list operators ++
    "], functions: [" ++ list functions ++ "], seed: " ++ toString env.seed ++ " \x7d"

end Environment

end Calculator
