import Calculator.Typed.Target

/-!
What can be wrong with a formula, and how it is said.
-/

namespace Calculator

inductive EquationFault
  | empty
  | noValue
  | strayTuple
  | delimiterInCode (delimiter : String)
  | surplus (count : Nat)
deriving DecidableEq

inductive OperandFault
  | missing
  | tuple (size : Nat)
  | shortTuple (size available : Nat)
deriving DecidableEq

inductive Error
  | unknownToken (text : String)
  | unbalancedParenthesis
  | misplacedSeparator
  | equation (fault : EquationFault)
  | operator (symbol : Char)
  | operand (fault : OperandFault)
  | function (name : String)
  | tooManyArguments (name : String) (expected found : Nat)
  | tooFewArguments (name : String) (expected found : Nat)
  | resultType (found : Nat) (target : Target)
  | variableName (name : String)
deriving DecidableEq

/-- An error together with the formula that was to be converted. -/
structure AdaptError where
  formula : String
  cause : Error
deriving DecidableEq

def EquationFault.message : EquationFault → String
  | empty => "empty expression"
  | noValue => "expression produces no value"
  | strayTuple => "vector marker in infix input"
  | delimiterInCode delimiter => s!"'{delimiter}' cannot appear in RPN"
  | surplus count => s!"expected a single result, found {count} values"

def OperandFault.message : OperandFault → String
  | missing => "missing operand"
  | tuple size => s!"a {size}-component tuple cannot be used as an operand"
  | shortTuple size available => s!"tuple of {size} components has only {available} values"

def Error.message : Error → String
  | unknownToken text => s!"Unknown token: '{text}'"
  | unbalancedParenthesis => "Unbalanced parenthesis"
  | misplacedSeparator => "Misplaced separator"
  | equation fault => "Invalid equation: " ++ fault.message
  | operator symbol => s!"Invalid operator: '{symbol}'"
  | operand fault => "Invalid operand: " ++ fault.message
  | function name => s!"Invalid function: '{name}'"
  | tooManyArguments name expected found =>
    s!"Invalid parameters for '{name}': expected {expected} arguments, found {found}"
  | tooFewArguments name expected found =>
    s!"Not enough parameters for '{name}': expected {expected} arguments, found {found}"
  | resultType found target =>
    "Invalid return type: a " ++ toString found ++ "-component result cannot become " ++ target.name
  | variableName name => s!"Invalid variable name: '{name}'"

def AdaptError.message (e : AdaptError) : String :=
  "Unable to evaluate expression '" ++ e.formula ++ "': " ++ e.cause.message

end Calculator
