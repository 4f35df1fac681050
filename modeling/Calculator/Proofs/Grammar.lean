import Calculator.Proofs.Tree

/-!
The grammar of formulas. A formula is a list of arguments, as is what stands between parentheses;
a separator may end it.

    arguments := items [","]          items := expr | expr "," items
    expr  := term | expr ("+" | "-") term
    term  := unary | term ("*" | "/") unary
    unary := ("+" | "-") unary | power
    power := atom | atom "^" unary
    atom  := number | "(" arguments ")" | function "(" [arguments] ")"
-/

namespace Calculator.Grammar

inductive Additive
  | plus | minus

inductive Multiplicative
  | times | dividedBy

def Additive.operator : Additive → Operator
  | plus => .add
  | minus => .sub

def Multiplicative.operator : Multiplicative → Operator
  | times => .mul
  | dividedBy => .div

mutual

inductive Arguments
  | ended (items : Items)
  | trailing (items : Items)

inductive Items
  | one (e : Expr)
  | more (e : Expr) (rest : Items)

inductive Expr
  | term (t : Term)
  | sum (left : Expr) (op : Additive) (right : Term)

inductive Term
  | unary (u : Unary)
  | product (left : Term) (op : Multiplicative) (right : Unary)

inductive Unary
  | sign (s : Sign) (operand : Unary)
  | power (p : Power)

inductive Power
  | atom (a : Atom)
  | raised (base : Atom) (exponent : Unary)

/-- The token of a function may claim any number of arguments. -/
inductive Atom
  | number (x : Float)
  | group (args : Arguments)
  | call (name : FunctionName) (claimed : Nat) (args : Arguments)
  | emptyCall (name : FunctionName) (claimed : Nat)

end

mutual

def Arguments.tokens : Arguments → List Token
  | .ended items => items.tokens
  | .trailing items => items.tokens ++ [.separator]

def Items.tokens : Items → List Token
  | .one e => e.tokens
  | .more e rest => e.tokens ++ .separator :: rest.tokens

def Expr.tokens : Expr → List Token
  | .term t => t.tokens
  | .sum left op right => left.tokens ++ .binaryOp op.operator.symbol :: right.tokens

def Term.tokens : Term → List Token
  | .unary u => u.tokens
  | .product left op right => left.tokens ++ .binaryOp op.operator.symbol :: right.tokens

def Unary.tokens : Unary → List Token
  | .sign s operand => .prefixOp s.symbol :: operand.tokens
  | .power p => p.tokens

def Power.tokens : Power → List Token
  | .atom a => a.tokens
  | .raised base exponent => base.tokens ++ .binaryOp Operator.pow.symbol :: exponent.tokens

def Atom.tokens : Atom → List Token
  | .number x => [.number x]
  | .group args => .leftParen :: (args.tokens ++ [.rightParen])
  | .call name claimed args => .call name claimed :: .leftParen :: (args.tokens ++ [.rightParen])
  | .emptyCall name claimed => [.call name claimed, .leftParen, .rightParen]

end

def packed : List Tree → Tree
  | [t] => t
  | ts => .tuple ts

mutual

def Arguments.trees : Arguments → List Tree
  | .ended items => items.trees
  | .trailing items => items.trees

def Items.trees : Items → List Tree
  | .one e => [e.tree]
  | .more e rest => e.tree :: rest.trees

def Expr.tree : Expr → Tree
  | .term t => t.tree
  | .sum left op right => .binary op.operator left.tree right.tree

def Term.tree : Term → Tree
  | .unary u => u.tree
  | .product left op right => .binary op.operator left.tree right.tree

def Unary.tree : Unary → Tree
  | .sign s operand => .sign s operand.tree
  | .power p => p.tree

def Power.tree : Power → Tree
  | .atom a => a.tree
  | .raised base exponent => .binary .pow base.tree exponent.tree

def Atom.tree : Atom → Tree
  | .number x => .number x
  | .group args => packed args.trees
  | .call name _ args => .call name args.trees
  | .emptyCall name _ => .call name []

end

def Arguments.tree (args : Arguments) : Tree := packed args.trees

end Calculator.Grammar
