/-!
The operators: their symbols, how tightly they bind and what they compute.
-/

namespace Calculator

inductive Operator
  | add | sub | mul | div | pow
deriving DecidableEq

/-- The side on which equal operators group. -/
inductive Associativity
  | left | right
deriving DecidableEq

namespace Operator

def all : List Operator := [mul, add, sub, div, pow]

def symbol : Operator → Char
  | add => '+'
  | sub => '-'
  | mul => '*'
  | div => '/'
  | pow => '^'

def ofSymbol? : Char → Option Operator
  | '+' => some add
  | '-' => some sub
  | '*' => some mul
  | '/' => some div
  | '^' => some pow
  | _ => none

def precedence : Operator → Nat
  | add | sub => 2
  | mul | div => 3
  | pow => 4

def associativity : Operator → Associativity
  | pow => .right
  | _ => .left

def apply : Operator → Float → Float → Float
  | add, a, b => a + b
  | sub, a, b => a - b
  | mul, a, b => a * b
  | div, a, b => a / b
  | pow, a, b => a ^ b

/-- What the operator does as a sign in front of an operand, for those that can be one. -/
def sign? : Operator → Option (Float → Float)
  | add => some id
  | sub => some (- ·)
  | _ => none

/-- A sign binds as tightly as a power, so `-2 ^ 2` is the opposite of `2 ^ 2`. -/
def signPrecedence : Nat := 4

def signOfSymbol? (symbol : Char) : Option (Float → Float) := (ofSymbol? symbol).bind sign?

theorem ofSymbol?_symbol (op : Operator) : ofSymbol? op.symbol = some op := by cases op <;> rfl

theorem symbol_of_ofSymbol? {c : Char} {op : Operator} (h : ofSymbol? c = some op) :
    op.symbol = c := by
  unfold ofSymbol? at h
  split at h <;> cases h <;> rfl

theorem mem_all (op : Operator) : op ∈ all := by cases op <;> decide

end Operator

end Calculator
