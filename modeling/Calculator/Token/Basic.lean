import Calculator.Builtin
import Calculator.Number.Written

/-!
Tokens, in the order of the formula's text as well as in the order of its code. Operators are kept
by their symbols, which need not be known ones.
-/

namespace Calculator

inductive Token
  | number (value : Float)
  | prefixOp (symbol : Char)
  | binaryOp (symbol : Char)
  | leftParen
  | rightParen
  | separator
  /-- A function applied to the topmost values; in the order of the text no values are bound to it
  yet. -/
  | call (name : FunctionName) (arity : Nat)
  | tuple (arity : Nat)
deriving DecidableEq

inductive TokenKind
  | number | prefixOp | binaryOp | leftParen | rightParen | separator | call | tuple
deriving DecidableEq

namespace TokenKind

/-- The kind as a set of one, in a word with a bit for each kind. -/
def mask : TokenKind → UInt8
  | number => 1
  | prefixOp => 2
  | binaryOp => 4
  | leftParen => 8
  | rightParen => 16
  | separator => 32
  | call => 64
  | tuple => 128

def endsValue : TokenKind → Bool
  | number | rightParen => true
  | _ => false

/-- A value may start with such a token, and if it does then a product with what stands before it
is meant. -/
def startsValue : TokenKind → Bool
  | number | leftParen | call => true
  | _ => false

/-- After such a token an operand has to come, and so a plus or a minus is a sign. -/
def expectsOperand : TokenKind → Bool
  | prefixOp | binaryOp | leftParen | separator => true
  | _ => false

end TokenKind

namespace Token

def kind : Token → TokenKind
  | number _ => .number
  | prefixOp _ => .prefixOp
  | binaryOp _ => .binaryOp
  | leftParen => .leftParen
  | rightParen => .rightParen
  | separator => .separator
  | call _ _ => .call
  | tuple _ => .tuple

/-- How many values a number is, or a call or tuple takes. -/
def arity : Token → Nat
  | number _ => 1
  | call _ n | tuple n => n
  | _ => 0

def value? : Token → Option Float
  | number x => some x
  | _ => none

def text : Token → String
  | number x => Number.plain x
  | prefixOp c => "u" ++ c.toString
  | binaryOp c => c.toString
  | leftParen => "("
  | rightParen => ")"
  | separator => ","
  | call name n => name.text ++ "/" ++ toString n
  | tuple n => "vec/" ++ toString n

def listText (tokens : List Token) : String := " ".intercalate (tokens.map text)

/-- Equality up to that of numbers: zeros of either sign are the same, and an undefined number
differs even from itself. -/
def same : Token → Token → Bool
  | number x, number y => x == y
  | s, t => s = t

def sameList : List Token → List Token → Bool
  | [], [] => true
  | s :: ss, t :: ts => same s t && sameList ss ts
  | _, _ => false

end Token

end Calculator
