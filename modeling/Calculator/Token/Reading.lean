import Calculator.Environment
import Calculator.Number.Literal
import Calculator.Text.Blank
import Calculator.Token.Basic

/-!
The tokens of a text. One pass over the characters gathers a run of those that are neither blank
nor delimiter nor operator; when the run ends it is split into literals and names. Each token is
emitted in view of the one before it, which decides signs and products that are not written out.
-/

namespace Calculator.Token

abbrev Emitted := List Token

/-- Is an operator at this point a sign? -/
def isSign (emitted : Emitted) (symbol : Char) : Bool :=
  (Operator.signOfSymbol? symbol).isSome &&
    (emitted.head?.elim true fun before => before.kind.expectsOperand)

/-- Emits a token: an operator may become a sign, and between two values goes a product. -/
def emit (emitted : Emitted) (token : Token) : Emitted :=
  let token := match token with
    | binaryOp symbol => if isSign emitted symbol then prefixOp symbol else token
    | _ => token
  match emitted with
  | [] => [token]
  | before :: _ =>
    if before.kind.endsValue && token.kind.startsValue then token :: binaryOp '*' :: emitted
    else token :: emitted

/-- A name stands for a variable's value, else for a function. -/
def ofName (env : Environment) (name : String) : Except Error Token :=
  match env.lookup name with
  | some x => .ok (number x)
  | none =>
    match Builtin.ofName? name with
    | some f => .ok (call f.name 0)
    | none => .error (.unknownToken name)

/-- Splits a run from the left into literals and names. -/
def emitRun (env : Environment) (emitted : Emitted) (run : List Char) : Except Error Emitted :=
  if run = [] then .ok emitted
  else
    match _ : Number.Literal.read? run with
    | some (literal, rest) => emitRun env (emit emitted (number literal.value.toFloat)) rest
    | none =>
      match _ : run.takeWhile Text.isLetter with
      | [] => .error (.unknownToken (String.ofList run))
      | letters@(_ :: _) =>
        match ofName env (String.ofList letters) with
        | .error e => .error e
        | .ok token => emitRun env (emit emitted token) (run.dropWhile Text.isLetter)
termination_by run.length
decreasing_by
  · exact Number.Literal.length_lt_of_read? (by assumption)
  · rename_i taken
    have whole := congrArg List.length
      (List.takeWhile_append_dropWhile (p := Text.isLetter) (l := run))
    rw [taken, List.length_append, List.length_cons] at whole
    omega

def isDelimiter (c : Char) : Bool := c = '(' || c = ')' || c = ','

def isBoundary (c : Char) : Bool :=
  Text.isBlank c || isDelimiter c || (Operator.ofSymbol? c).isSome

def emitBoundary (emitted : Emitted) (c : Char) : Emitted :=
  if c = '(' then emit emitted leftParen
  else if c = ')' then emit emitted rightParen
  else if c = ',' then emit emitted separator
  else if Text.isBlank c then emitted
  else emit emitted (binaryOp c)

/-- Scans the rest of a text; the pending run is last character first. -/
def scan (env : Environment) (emitted : Emitted) (run : List Char) :
    List Char → Except Error Emitted
  | [] => emitRun env emitted run.reverse
  | c :: rest =>
    if isBoundary c then
      match emitRun env emitted run.reverse with
      | .error e => .error e
      | .ok emitted => scan env (emitBoundary emitted c) [] rest
    else scan env emitted (c :: run) rest

def ofText (env : Environment) (text : String) : Except Error (List Token) :=
  (scan env [] [] text.toList).map List.reverse

end Calculator.Token
