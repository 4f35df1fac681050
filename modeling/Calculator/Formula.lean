import Calculator.Token.Reading
import Calculator.Code.Yard
import Calculator.Code.Machine

/-!
Formulas that are compiled once and evaluated often. A formula keeps its text and its tokens
beside its code: variables have the values they had when the text was last read.
-/

namespace Calculator

/-- Runs code with the environment's random numbers. -/
def Environment.evaluate (env : Environment) (code : List Token) :
    Except Error (List Float) × Environment :=
  let (result, generator) := Code.evaluate code env.generator
  (result, { env with generator })

def Environment.interpret (env : Environment) (text : String) :
    Except Error (List Float) × Environment :=
  match (Token.ofText env text).bind Code.ofTokens with
  | .error e => (.error e, env)
  | .ok code => env.evaluate code

structure Formula where
  source : String
  tokens : List Token
  code : List Token
deriving DecidableEq

namespace Formula

def compile (env : Environment) (source : String) : Except Error Formula := do
  let tokens ← Token.ofText env source
  let code ← Code.ofTokens tokens
  .ok ⟨source, tokens, code⟩

/-- Reads the text again, with the values that variables have now. -/
def refresh (f : Formula) (env : Environment) : Except Error Formula := compile env f.source

/-- Compiles the tokens again, with the values that variables had. -/
def recompile (f : Formula) : Except Error Formula :=
  (Code.ofTokens f.tokens).map fun code => { f with code }

def evaluate (f : Formula) (env : Environment) : Except Error (List Float) × Environment :=
  env.evaluate f.code

def arity (f : Formula) : Nat := Code.resultArity f.code

/-- Equality of the text and, up to that of numbers, of tokens and code. -/
def same (f g : Formula) : Bool :=
  f.source = g.source && Token.sameList f.tokens g.tokens && Token.sameList f.code g.code

end Formula

/-- How far a text gets on its way to a value. -/
inductive Progress
  | unread (error : Error)
  | uncompiled (tokens : List Token) (error : Error)
  | unevaluated (tokens code : List Token) (error : Error)
  | evaluated (tokens code : List Token) (components : List Float)
deriving DecidableEq

def Environment.progress (env : Environment) (text : String) : Progress × Environment :=
  match Token.ofText env text with
  | .error e => (.unread e, env)
  | .ok tokens =>
    match Code.ofTokens tokens with
    | .error e => (.uncompiled tokens e, env)
    | .ok code =>
      match env.evaluate code with
      | (.error e, env) => (.unevaluated tokens code e, env)
      | (.ok components, env) => (.evaluated tokens code components, env)

end Calculator
