import Calculator.Typed.Conversion

/-!
Sessions: named environments, named formulas that all of them share, and commands on both. A
command that fails changes nothing but, where an evaluation broke off, the random numbers.
-/

namespace Calculator

structure Session where
  environments : Std.TreeMap String Environment
  formulas : Std.TreeMap String Formula

/-- What is done in one environment, or with it to the formulas. -/
inductive Action
  | fork (name : String)
  | setVariable (name : String) (value : Float)
  | removeVariable (name : String)
  | lookup (name : String)
  | reseed (seed : UInt32)
  | seed
  | describe
  | progress (text : String)
  | tokenize (text : String)
  | toCode (tokens : List Token)
  | evaluate (code : List Token)
  | interpret (text : String)
  | adapt (target : Target) (text : String)
  | compile (slot text : String)
  | refresh (slot : String)
  | recompile (slot : String)
  | evaluateFormula (slot : String)
  | adaptFormula (slot : String) (target : Target)
  | copy (slot other : String)
deriving DecidableEq

inductive Command
  /-- A new environment takes the place of one that has the name. -/
  | create (name : String) (seed : Option UInt32)
  | inEnvironment (name : String) (action : Action)
deriving DecidableEq

inductive Reply
  | nothing
  | number (x : Option Float)
  | seed (n : UInt32)
  | text (s : String)
  | progress (p : Progress)
  | tokens (ts : List Token)
  | components (xs : List Float)
  | typed (value : Typed)
  | code (ts : List Token)
  | failure (error : Error)
  | adaptFailure (error : AdaptError)
  | noEnvironment (name : String)
  | noFormula (slot : String)
deriving DecidableEq

namespace Reply

def ofTyped : Except AdaptError Typed → Reply
  | .ok value => typed value
  | .error e => adaptFailure e

def ofComponents : Except Error (List Float) → Reply
  | .ok xs => components xs
  | .error e => failure e

end Reply

namespace Session

def initial (name : String) (env : Environment) : Session := ⟨.ofList [(name, env)], ∅⟩

def environment? (s : Session) (name : String) : Option Environment := s.environments[name]?

def formula? (s : Session) (slot : String) : Option Formula := s.formulas[slot]?

def putEnvironment (s : Session) (name : String) (env : Environment) : Session :=
  { s with environments := s.environments.insert name env }

def putFormula (s : Session) (slot : String) (f : Formula) : Session :=
  { s with formulas := s.formulas.insert slot f }

def keep (s : Session) (slot : String) : Except Error Formula → Reply × Session
  | .ok f => (.code f.code, s.putFormula slot f)
  | .error e => (.failure e, s)

def act (s : Session) (name : String) (env : Environment) : Action → Reply × Session
  | .fork other => (.nothing, s.putEnvironment other env)
  | .setVariable key value =>
    match env.set key value with
    | .error e => (.failure e, s)
    | .ok (before, env) => (.number before, s.putEnvironment name env)
  | .removeVariable key =>
    let (before, env) := env.remove key
    (.number before, s.putEnvironment name env)
  | .lookup key => (.number (env.lookup key), s)
  | .reseed seed => (.nothing, s.putEnvironment name (env.reseed seed))
  | .seed => (.seed env.seed, s)
  | .describe => (.text env.description, s)
  | .progress text =>
    let (progress, env) := env.progress text
    (.progress progress, s.putEnvironment name env)
  | .tokenize text =>
    match Token.ofText env text with
    | .ok tokens => (.tokens tokens, s)
    | .error e => (.failure e, s)
  | .toCode tokens =>
    match Code.ofTokens tokens with
    | .ok code => (.tokens code, s)
    | .error e => (.failure e, s)
  | .evaluate code =>
    let (result, env) := env.evaluate code
    (.ofComponents result, s.putEnvironment name env)
  | .interpret text =>
    let (result, env) := env.interpret text
    (.ofComponents result, s.putEnvironment name env)
  | .adapt target text =>
    let (result, env) := env.adapt target text
    (.ofTyped result, s.putEnvironment name env)
  | .compile slot text => s.keep slot (Formula.compile env text)
  | .refresh slot =>
    match s.formula? slot with
    | none => (.noFormula slot, s)
    | some f => s.keep slot (f.refresh env)
  | .recompile slot =>
    match s.formula? slot with
    | none => (.noFormula slot, s)
    | some f => s.keep slot f.recompile
  | .evaluateFormula slot =>
    match s.formula? slot with
    | none => (.noFormula slot, s)
    | some f =>
      let (result, env) := f.evaluate env
      (.ofComponents result, s.putEnvironment name env)
  | .adaptFormula slot target =>
    match s.formula? slot with
    | none => (.noFormula slot, s)
    | some f =>
      let (result, env) := f.adapt env target
      (.ofTyped result, s.putEnvironment name env)
  | .copy slot other =>
    match s.formula? slot with
    | none => (.noFormula slot, s)
    | some f => (.nothing, s.putFormula other f)

/-- An action needs its environment, also one that only concerns formulas. -/
def run (s : Session) : Command → Reply × Session
  | .create name seed => (.nothing, s.putEnvironment name (seed.elim .initial .ofSeed))
  | .inEnvironment name action =>
    match s.environment? name with
    | none => (.noEnvironment name, s)
    | some env => s.act name env action

/-- The replies to commands given one after the other, and the session after the last. -/
def runAll (s : Session) : List Command → List Reply × Session
  | [] => ([], s)
  | command :: rest =>
    let (reply, s) := s.run command
    let (replies, s) := s.runAll rest
    (reply :: replies, s)

end Session

end Calculator
