import Calculator.Error
import Calculator.Operator
import Calculator.Token.Basic

/-!
Code: the tokens of a formula with every operator and function after its operands. Operators wait
on a stack until one that binds less tightly, a separator or the end of a group sends them on.
Each open parenthesis is a group, as is the whole formula; a group counts its arguments, and when
it closes the count goes to the function in front of it or, from two on, into a tuple.
-/

namespace Calculator.Code

/-- An open group: whether its current argument has a value, how many arguments are complete, and
how many waiting tokens were there when it opened. -/
structure Group where
  hasValue : Bool
  complete : Nat
  base : Nat
deriving DecidableEq

namespace Group

def opened (base : Nat) : Group := ⟨false, 0, base⟩

def arity (g : Group) : Nat := g.complete + if g.hasValue then 1 else 0

end Group

/-- The code emitted so far and the tokens that wait, both last first, and the innermost group
with those around it. -/
structure Yard where
  code : List Token
  waiting : List Token
  group : Group
  outer : List Group
deriving DecidableEq

namespace Yard

def initial : Yard := ⟨[], [], .opened 0, []⟩

/-- How tightly a waiting operator or sign binds; nothing else does. -/
def precedence? : Token → Option Nat
  | .prefixOp _ => some Operator.signPrecedence
  | .binaryOp symbol => (Operator.ofSymbol? symbol).map Operator.precedence
  | _ => none

/-- Does a waiting token go before the operator that comes? -/
def yields (op : Operator) (top : Token) : Bool :=
  match precedence? top with
  | none => false
  | some waiting =>
    match op.associativity with
    | .left => op.precedence ≤ waiting
    | .right => op.precedence < waiting

/-- Sends on the waiting tokens above a depth, the topmost first. -/
def drain (y : Yard) (base : Nat) : Yard :=
  let count := y.waiting.length - base
  { y with code := (y.waiting.take count).reverse ++ y.code, waiting := y.waiting.drop count }

def mark (y : Yard) : Yard := { y with group := { y.group with hasValue := true } }

def binary (y : Yard) (symbol : Char) : Except Error Yard :=
  match Operator.ofSymbol? symbol with
  | none => .error (.operator symbol)
  | some op =>
    .ok { y with
      code := (y.waiting.takeWhile (yields op)).reverse ++ y.code
      waiting := .binaryOp symbol :: y.waiting.dropWhile (yields op) }

def separate (y : Yard) : Except Error Yard :=
  if y.group.hasValue then
    let y := y.drain y.group.base
    .ok { y with group := { y.group with complete := y.group.complete + 1, hasValue := false } }
  else .error .misplacedSeparator

def close (y : Yard) : Except Error Yard :=
  match y.outer with
  | [] => .error .unbalancedParenthesis
  | enclosing :: outer =>
    let arity := y.group.arity
    let drained := y.drain y.group.base
    let y := { drained with group := enclosing, outer }
    match y.waiting with
    | .leftParen :: .call name _ :: waiting =>
      .ok { y with code := .call name arity :: y.code, waiting }.mark
    | .leftParen :: waiting =>
      if 1 < arity then .ok { y with code := .tuple arity :: y.code, waiting }.mark
      else if arity = 0 then .ok { y with waiting }
      else .ok { y with waiting }.mark
    | _ => .error .unbalancedParenthesis

def push (y : Yard) : Token → Except Error Yard
  | .number x => .ok { y with code := .number x :: y.code }.mark
  | .prefixOp symbol => .ok { y with waiting := .prefixOp symbol :: y.waiting }
  | .binaryOp symbol => y.binary symbol
  | .leftParen =>
    .ok { y with
      waiting := .leftParen :: y.waiting
      group := .opened (y.waiting.length + 1)
      outer := y.group :: y.outer }
  | .rightParen => y.close
  | .separator => y.separate
  | .call name _ => .ok { y with waiting := .call name 0 :: y.waiting }
  | .tuple _ => .error (.equation .strayTuple)

def run (y : Yard) : List Token → Except Error Yard
  | [] => .ok y
  | token :: rest =>
    match y.push token with
    | .error e => .error e
    | .ok y => y.run rest

def isParen : Token → Bool
  | .leftParen | .rightParen => true
  | _ => false

def finish (y : Yard) : Except Error (List Token) :=
  if y.outer ≠ [] then .error .unbalancedParenthesis
  else if y.waiting.any isParen then .error .unbalancedParenthesis
  else
    let drained := y.waiting.reverse ++ y.code
    let arity := y.group.arity
    let code := if 1 < arity then .tuple arity :: drained else drained
    if code = [] then .error (.equation .noValue) else .ok code.reverse

end Yard

def ofTokens (tokens : List Token) : Except Error (List Token) :=
  if tokens = [] then .error (.equation .empty)
  else
    match Yard.initial.run tokens with
    | .error e => .error e
    | .ok y => y.finish

end Calculator.Code
