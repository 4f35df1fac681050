import Calculator.Proofs.Adaptation
import Calculator.Proofs.Draws
import Calculator.Session

/-!
Laws of sessions. What is read depends on the values of variables alone, and what a command that
evaluates replies depends on nothing else but the result of the code that it runs; of its
environment it changes the generator only. Sessions that look alike give the same replies, now and
after any further commands.
-/

namespace Calculator

/-- Environments with the same variables. -/
def Environment.SameValues (env env' : Environment) : Prop :=
  ∀ name, env.lookup name = env'.lookup name

section Reading

variable {env env' : Environment} (same : env.SameValues env')

include same

namespace Token

theorem ofName_congr (name : String) : ofName env name = ofName env' name := by
  simp only [ofName, same name]

theorem emitRun_congr (emitted : Emitted) (run : List Char) :
    emitRun env emitted run = emitRun env' emitted run := by
  fun_induction emitRun env emitted run with
  | case1 => rw [emitRun_nil]
  | case2 emitted run _ literal rest found ih => rw [emitRun_literal found, ih]
  | case3 emitted run some unread letters => rw [emitRun_unreadable some unread letters]
  | case4 emitted run _ unread c cs letters e unknown =>
    rw [emitRun_letters unread letters, ← ofName_congr same, unknown]
  | case5 emitted run _ unread c cs letters t known ih =>
    rw [emitRun_letters unread letters, ← ofName_congr same, known]
    exact ih

theorem scan_congr (emitted : Emitted) (run rest : List Char) :
    scan env emitted run rest = scan env' emitted run rest := by
  induction rest generalizing emitted run with
  | nil => exact emitRun_congr same emitted run.reverse
  | cons c rest ih => simp only [scan, emitRun_congr same, ih]

theorem ofText_congr (text : String) : ofText env text = ofText env' text := by
  simp only [ofText, scan_congr same]

end Token

theorem Formula.compile_congr (source : String) : compile env source = compile env' source := by
  simp only [compile, Token.ofText_congr same]

theorem Environment.description_congr (seed : env.seed = env'.seed) :
    env.description = env'.description := by
  have lookups : ∀ name : String, env.values[name]? = env'.values[name]? := same
  have equiv : env.values.Equiv env'.values := .of_forall_constGet?_eq lookups
  unfold description
  rw [equiv.toList_eq, seed]

end Reading

/-- The code that a conversion evaluates, which is none if the shape is refused. -/
def Formula.codeFor (f : Formula) (t : Target) : List Token :=
  if t = .text then [] else if t.accepts f.arity then f.code else []

namespace Formula

variable (f : Formula) (env : Environment) (t : Target)

theorem environment_adapt : (f.adapt env t).2 = (env.evaluate (f.codeFor t)).2 := by
  simp only [adapt, convert, codeFor]
  split
  · rfl
  split
  · rfl
  · rfl

theorem adapt_congr {env env' : Environment}
    (same : (env.evaluate (f.codeFor t)).1 = (env'.evaluate (f.codeFor t)).1) :
    (f.adapt env t).1 = (f.adapt env' t).1 := by
  unfold codeFor at same
  simp only [adapt, convert]
  split
  · rfl
  · rename_i numeric
    split
    · rename_i shape
      rw [if_neg numeric, if_pos shape] at same
      simp only [evaluate, same]
    · rfl

end Formula

/-- Does the action evaluate code, if it has some? -/
def Action.Evaluates : Action → Prop
  | .progress _ | .evaluate _ | .interpret _ | .adapt _ _ | .evaluateFormula _
  | .adaptFormula _ _ => True
  | _ => False

/-- Does the action put a formula into a slot, if it succeeds? -/
def Action.Stores : Action → Prop
  | .compile _ _ | .refresh _ | .recompile _ | .copy _ _ => True
  | _ => False

/-- The code that an action evaluates. There is none where a text does not compile, where a shape
is refused and where no formula is in the slot. -/
def Action.code (s : Session) (env : Environment) : Action → List Token
  | .evaluate code => code
  | .progress text | .interpret text => (Formula.compile env text).toOption.elim [] (·.code)
  | .adapt t text => (Formula.compile env text).toOption.elim [] (·.codeFor t)
  | .evaluateFormula slot => (s.formula? slot).elim [] (·.code)
  | .adaptFormula slot t => (s.formula? slot).elim [] (·.codeFor t)
  | _ => []

namespace Environment

variable (env : Environment) (text : String)

theorem interpret_eq :
    env.interpret text =
      match Formula.compile env text with
      | .error e => (.error e, env)
      | .ok f => env.evaluate f.code := by
  unfold interpret Formula.compile
  cases Token.ofText env text with
  | error e => rfl
  | ok tokens =>
    simp only [Except.bind, bind]
    cases Code.ofTokens tokens with
    | error e => rfl
    | ok code => rfl

theorem progress_eq :
    env.progress text =
      match Token.ofText env text with
      | .error e => (.unread e, env)
      | .ok tokens =>
        match Code.ofTokens tokens with
        | .error e => (.uncompiled tokens e, env)
        | .ok code =>
          (match (env.evaluate code).1 with
            | .error e => .unevaluated tokens code e
            | .ok xs => .evaluated tokens code xs, (env.evaluate code).2) := by
  unfold progress
  cases Token.ofText env text with
  | error e => rfl
  | ok tokens =>
    simp only
    cases Code.ofTokens tokens with
    | error e => rfl
    | ok code =>
      simp only
      cases env.evaluate code with
      | mk result after =>
        cases result with
        | error e => rfl
        | ok xs => rfl

theorem environment_interpret :
    (env.interpret text).2 =
      (env.evaluate ((Formula.compile env text).toOption.elim [] (·.code))).2 := by
  rw [interpret_eq]
  cases Formula.compile env text with
  | error e => rfl
  | ok f => rfl

theorem environment_progress :
    (env.progress text).2 =
      (env.evaluate ((Formula.compile env text).toOption.elim [] (·.code))).2 := by
  rw [progress_eq]
  unfold Formula.compile
  cases Token.ofText env text with
  | error e => rfl
  | ok tokens =>
    simp only [bind, Except.bind]
    cases Code.ofTokens tokens with
    | error e => rfl
    | ok code => rfl

theorem environment_adapt (t : Target) :
    (env.adapt t text).2 =
      (env.evaluate ((Formula.compile env text).toOption.elim [] (·.codeFor t))).2 := by
  unfold adapt
  split
  · rename_i plain
    subst plain
    cases Formula.compile env text with
    | error e => rfl
    | ok f => rfl
  · cases Formula.compile env text with
    | error e => rfl
    | ok f => exact f.environment_adapt env t

section Congruence

variable {env env' : Environment} (same : env.SameValues env') {text : String}

include same

theorem interpret_congr
    (result : (env.evaluate ((Formula.compile env text).toOption.elim [] (·.code))).1 =
      (env'.evaluate ((Formula.compile env text).toOption.elim [] (·.code))).1) :
    (env.interpret text).1 = (env'.interpret text).1 := by
  rw [interpret_eq, interpret_eq, ← Formula.compile_congr same]
  cases compiled : Formula.compile env text with
  | error e => rfl
  | ok f =>
    rw [compiled] at result
    exact result

theorem progress_congr
    (result : (env.evaluate ((Formula.compile env text).toOption.elim [] (·.code))).1 =
      (env'.evaluate ((Formula.compile env text).toOption.elim [] (·.code))).1) :
    (env.progress text).1 = (env'.progress text).1 := by
  rw [progress_eq, progress_eq, ← Token.ofText_congr same]
  unfold Formula.compile at result
  cases read : Token.ofText env text with
  | error e => rfl
  | ok tokens =>
    simp only [read, bind, Except.bind] at result ⊢
    cases compiled : Code.ofTokens tokens with
    | error e => rfl
    | ok code =>
      have value : (env.evaluate code).1 = (env'.evaluate code).1 := by
        simpa [compiled, Except.toOption] using result
      simp only [value]

theorem adapt_congr {t : Target}
    (result : (env.evaluate ((Formula.compile env text).toOption.elim [] (·.codeFor t))).1 =
      (env'.evaluate ((Formula.compile env text).toOption.elim [] (·.codeFor t))).1) :
    (env.adapt t text).1 = (env'.adapt t text).1 := by
  unfold adapt
  rw [← Formula.compile_congr same]
  split
  · rfl
  · cases compiled : Formula.compile env text with
    | error e => rfl
    | ok f =>
      rw [compiled] at result
      exact f.adapt_congr t result

end Congruence

/-- Environments that cannot be told apart. -/
structure Alike (env env' : Environment) : Prop where
  values : env.SameValues env'
  seed : env.seed = env'.seed
  generator : env.generator = env'.generator

namespace Alike

variable {env env' : Environment} (alike : env.Alike env')

include alike

theorem evaluate (code : List Token) :
    (env.evaluate code).1 = (env'.evaluate code).1 ∧
      (env.evaluate code).2.Alike (env'.evaluate code).2 := by
  have generator := alike.generator
  unfold Environment.evaluate
  rw [generator]
  exact ⟨rfl, alike.values, alike.seed, rfl⟩

theorem set (key : String) (value : Float) :
    Alike { env with values := env.values.insert key value }
      { env' with values := env'.values.insert key value } := by
  refine ⟨?_, alike.seed, alike.generator⟩
  intro name
  have unset : env.values[name]? = env'.values[name]? := alike.values name
  simp only [lookup, Std.TreeMap.getElem?_insert, unset]

theorem remove (key : String) :
    Alike { env with values := env.values.erase key }
      { env' with values := env'.values.erase key } := by
  refine ⟨?_, alike.seed, alike.generator⟩
  intro name
  have unset : env.values[name]? = env'.values[name]? := alike.values name
  simp only [lookup, Std.TreeMap.getElem?_erase, unset]

theorem reseed (seed : UInt32) : (env.reseed seed).Alike (env'.reseed seed) :=
  ⟨alike.values, rfl, rfl⟩

omit alike in
theorem refl (env : Environment) : env.Alike env := ⟨fun _ => rfl, rfl, rfl⟩

end Alike

end Environment

namespace Session

/-- The session without environments and formulas. -/
def empty : Session := ⟨∅, ∅⟩

theorem environment?_empty (name : String) : empty.environment? name = none :=
  Std.TreeMap.getElem?_emptyc

theorem formula?_empty (slot : String) : empty.formula? slot = none :=
  Std.TreeMap.getElem?_emptyc

theorem run_inEnvironment {s : Session} {name : String} {env : Environment}
    (there : s.environment? name = some env) (a : Action) :
    s.run (.inEnvironment name a) = s.act name env a := by
  simp only [run, there]

theorem replies_cons (s : Session) (c : Command) (rest : List Command) :
    (s.runAll (c :: rest)).1 = (s.run c).1 :: ((s.run c).2.runAll rest).1 := rfl

section Lookup

variable (s : Session) (name other : String)

theorem environment?_putEnvironment (env : Environment) :
    (s.putEnvironment name env).environment? other =
      if name = other then some env else s.environment? other := by
  simp only [environment?, putEnvironment, Std.TreeMap.getElem?_insert,
    Std.LawfulEqCmp.compare_eq_iff_eq]

theorem formula?_putFormula (f : Formula) :
    (s.putFormula name f).formula? other = if name = other then some f else s.formula? other := by
  simp only [formula?, putFormula, Std.TreeMap.getElem?_insert, Std.LawfulEqCmp.compare_eq_iff_eq]

theorem environment?_putFormula (f : Formula) :
    (s.putFormula name f).environment? other = s.environment? other := rfl

theorem formula?_putEnvironment (env : Environment) :
    (s.putEnvironment name env).formula? other = s.formula? other := rfl

end Lookup

section Evaluation

variable {s : Session} {name : String} {env : Environment} {a : Action}

/-- An action that evaluates keeps all formulas. -/
theorem formula?_act (evaluates : a.Evaluates) (slot : String) :
    (s.act name env a).2.formula? slot = s.formula? slot := by
  cases a with
  | evaluateFormula other => simp only [act]; split <;> rfl
  | adaptFormula other t => simp only [act]; split <;> rfl
  | progress text => rfl
  | evaluate code => rfl
  | interpret text => rfl
  | adapt t text => rfl
  | _ => exact evaluates.elim

/-- An action that evaluates changes its own environment only, as its code does. -/
theorem environment?_act (there : s.environment? name = some env) (evaluates : a.Evaluates)
    (other : String) :
    (s.act name env a).2.environment? other =
      if name = other then some (env.evaluate (a.code s env)).2 else s.environment? other := by
  have unchanged :
      s.environment? other = if name = other then some env else s.environment? other := by
    split
    · rename_i same
      rw [← same, there]
    · rfl
  cases a with
  | progress text =>
    simp only [act, environment?_putEnvironment, env.environment_progress, Action.code]
  | evaluate code => simp only [act, environment?_putEnvironment, Action.code]
  | interpret text =>
    simp only [act, environment?_putEnvironment, env.environment_interpret, Action.code]
  | adapt t text =>
    simp only [act, environment?_putEnvironment, env.environment_adapt, Action.code]
  | evaluateFormula slot =>
    simp only [act, Action.code]
    cases s.formula? slot with
    | none => exact unchanged
    | some f => exact environment?_putEnvironment s name other _
  | adaptFormula slot t =>
    simp only [act, Action.code]
    cases s.formula? slot with
    | none => exact unchanged
    | some f =>
      simp only [environment?_putEnvironment, f.environment_adapt, Option.elim]
  | _ => exact evaluates.elim

/-- What is left to the other actions: to change the values of variables, to fork, to seed and to
store a formula. -/
theorem act_cases (plain : ¬ a.Evaluates) :
    (s.act name env a).2 = s ∨
      (∃ values, (s.act name env a).2 = s.putEnvironment name { env with values }) ∨
      (∃ other, a = .fork other ∧ (s.act name env a).2 = s.putEnvironment other env) ∨
      (∃ seed, a = .reseed seed ∧ (s.act name env a).2 = s.putEnvironment name (env.reseed seed)) ∨
      a.Stores ∧ ∃ slot f, (s.act name env a).2 = s.putFormula slot f := by
  have kept (slot : String) (result : Except Error Formula) :
      (s.keep slot result).2 = s ∨ ∃ other f, (s.keep slot result).2 = s.putFormula other f := by
    cases result with
    | error e => exact .inl rfl
    | ok f => exact .inr ⟨slot, f, rfl⟩
  cases a with
  | fork other => exact .inr (.inr (.inl ⟨other, rfl, rfl⟩))
  | setVariable key value =>
    simp only [act, Environment.set]
    by_cases valid : Environment.isName key
    · simp only [if_pos valid]
      exact .inr (.inl ⟨_, rfl⟩)
    · simp only [if_neg valid]
      exact .inl trivial
  | removeVariable key => exact .inr (.inl ⟨_, rfl⟩)
  | lookup key => exact .inl rfl
  | reseed seed => exact .inr (.inr (.inr (.inl ⟨seed, rfl, rfl⟩)))
  | seed => exact .inl rfl
  | describe => exact .inl rfl
  | tokenize text =>
    simp only [act]
    split <;> exact .inl rfl
  | toCode tokens =>
    simp only [act]
    split <;> exact .inl rfl
  | compile slot text =>
    rcases kept slot (Formula.compile env text) with same | stored
    · exact .inl same
    · exact .inr (.inr (.inr (.inr ⟨trivial, stored⟩)))
  | refresh slot =>
    simp only [act]
    split
    · exact .inl rfl
    · rename_i f _
      rcases kept slot (f.refresh env) with same | stored
      · exact .inl same
      · exact .inr (.inr (.inr (.inr ⟨trivial, stored⟩)))
  | recompile slot =>
    simp only [act]
    split
    · exact .inl rfl
    · rename_i f _
      rcases kept slot f.recompile with same | stored
      · exact .inl same
      · exact .inr (.inr (.inr (.inr ⟨trivial, stored⟩)))
  | copy slot other =>
    simp only [act]
    split
    · exact .inl rfl
    · exact .inr (.inr (.inr (.inr ⟨trivial, other, _, rfl⟩)))
  | _ => exact absurd trivial plain

/-- Where nothing is stored all slots look as before. -/
theorem formula?_act_of_not_stores (plain : ¬ a.Stores) (slot : String) :
    (s.act name env a).2.formula? slot = s.formula? slot := by
  by_cases evaluates : a.Evaluates
  · exact formula?_act evaluates slot
  · rcases act_cases evaluates with
      same | ⟨values, same⟩ | ⟨other, _, same⟩ | ⟨seed, _, same⟩ | ⟨stores, _⟩
    · rw [same]
    · rw [same, formula?_putEnvironment]
    · rw [same, formula?_putEnvironment]
    · rw [same, formula?_putEnvironment]
    · exact absurd stores plain

section Congruence

variable {s' : Session} {env' : Environment} (formulas : ∀ slot, s.formula? slot = s'.formula? slot)
  (same : env.SameValues env')

include formulas same

theorem code_congr (a : Action) : a.code s env = a.code s' env' := by
  cases a <;> simp only [Action.code, formulas, Formula.compile_congr same]

/-- What an action that evaluates replies is settled by the result of its code. -/
theorem reply_congr (evaluates : a.Evaluates)
    (result : (env.evaluate (a.code s env)).1 = (env'.evaluate (a.code s env)).1) :
    (s.act name env a).1 = (s'.act name env' a).1 := by
  cases a with
  | progress text => exact congrArg Reply.progress (Environment.progress_congr same result)
  | evaluate code => exact congrArg Reply.ofComponents result
  | interpret text => exact congrArg Reply.ofComponents (Environment.interpret_congr same result)
  | adapt t text => exact congrArg Reply.ofTyped (Environment.adapt_congr same result)
  | evaluateFormula slot =>
    simp only [act, ← formulas]
    cases found : s.formula? slot with
    | none => rfl
    | some f =>
      simp only [Action.code, found, Option.elim] at result
      exact congrArg Reply.ofComponents result
  | adaptFormula slot t =>
    simp only [act, ← formulas]
    cases found : s.formula? slot with
    | none => rfl
    | some f =>
      simp only [Action.code, found, Option.elim] at result
      exact congrArg Reply.ofTyped (f.adapt_congr t result)
  | _ => exact evaluates.elim

end Congruence

end Evaluation

/-- Sessions that cannot be told apart. -/
structure Alike (s s' : Session) : Prop where
  environment : ∀ name, Option.Rel Environment.Alike (s.environment? name) (s'.environment? name)
  formula : ∀ slot, s.formula? slot = s'.formula? slot

/-- Sessions with the same look-ups are alike. -/
theorem alike_of_lookups {s s' : Session}
    (environments : ∀ name, s.environment? name = s'.environment? name)
    (formulas : ∀ slot, s.formula? slot = s'.formula? slot) : s.Alike s' := by
  refine ⟨?_, formulas⟩
  intro name
  rw [environments]
  cases s'.environment? name with
  | none => exact .none
  | some env => exact .some (.refl env)

namespace Alike

variable {s s' : Session} (alike : s.Alike s')

include alike

theorem putEnvironment {env env' : Environment} (envs : env.Alike env') (name : String) :
    (s.putEnvironment name env).Alike (s'.putEnvironment name env') := by
  refine ⟨?_, alike.formula⟩
  intro other
  rw [environment?_putEnvironment, environment?_putEnvironment]
  split
  · exact .some envs
  · exact alike.environment other

theorem putFormula (slot : String) (f : Formula) :
    (s.putFormula slot f).Alike (s'.putFormula slot f) := by
  refine ⟨alike.environment, ?_⟩
  intro other
  rw [formula?_putFormula, formula?_putFormula, alike.formula]

theorem keep (slot : String) (result : Except Error Formula) :
    (s.keep slot result).1 = (s'.keep slot result).1 ∧
      (s.keep slot result).2.Alike (s'.keep slot result).2 := by
  cases result with
  | error e => exact ⟨rfl, alike⟩
  | ok f => exact ⟨rfl, alike.putFormula slot f⟩

theorem act {env env' : Environment} {name : String} (there : s.environment? name = some env)
    (there' : s'.environment? name = some env') (envs : env.Alike env') (a : Action) :
    (s.act name env a).1 = (s'.act name env' a).1 ∧
      (s.act name env a).2.Alike (s'.act name env' a).2 := by
  by_cases evaluates : a.Evaluates
  · have evaluated := envs.evaluate (a.code s env)
    have code := code_congr alike.formula envs.values a
    refine ⟨reply_congr alike.formula envs.values evaluates evaluated.1, ?_, ?_⟩
    · intro other
      rw [environment?_act there evaluates, environment?_act there' evaluates, ← code]
      split
      · exact .some evaluated.2
      · exact alike.environment other
    · intro slot
      rw [formula?_act evaluates, formula?_act evaluates, alike.formula]
  · cases a with
    | fork other => exact ⟨rfl, alike.putEnvironment envs other⟩
    | setVariable key value =>
      simp only [Session.act, Environment.set]
      by_cases valid : Environment.isName key
      · simp only [if_pos valid, envs.values key]
        exact ⟨trivial, alike.putEnvironment (envs.set key value) name⟩
      · simp only [if_neg valid]
        exact ⟨trivial, alike⟩
    | removeVariable key =>
      simp only [Session.act, Environment.remove, envs.values key]
      exact ⟨trivial, alike.putEnvironment (envs.remove key) name⟩
    | lookup key => exact ⟨congrArg Reply.number (envs.values key), alike⟩
    | reseed seed => exact ⟨rfl, alike.putEnvironment (envs.reseed seed) name⟩
    | seed => exact ⟨congrArg Reply.seed envs.seed, alike⟩
    | describe =>
      exact ⟨congrArg Reply.text (Environment.description_congr envs.values envs.seed), alike⟩
    | tokenize text =>
      simp only [Session.act, Token.ofText_congr envs.values]
      split <;> exact ⟨rfl, alike⟩
    | toCode tokens =>
      simp only [Session.act]
      split <;> exact ⟨rfl, alike⟩
    | compile slot text =>
      simp only [Session.act, Formula.compile_congr envs.values]
      exact alike.keep slot _
    | refresh slot =>
      simp only [Session.act, alike.formula]
      split
      · exact ⟨rfl, alike⟩
      · simp only [Formula.refresh, Formula.compile_congr envs.values]
        exact alike.keep slot _
    | recompile slot =>
      simp only [Session.act, alike.formula]
      split
      · exact ⟨rfl, alike⟩
      · exact alike.keep slot _
    | copy slot other =>
      simp only [Session.act, alike.formula]
      split
      · exact ⟨rfl, alike⟩
      · exact ⟨rfl, alike.putFormula other _⟩
    | _ => exact absurd trivial evaluates

theorem run (c : Command) : (s.run c).1 = (s'.run c).1 ∧ (s.run c).2.Alike (s'.run c).2 := by
  cases c with
  | create name seed =>
    exact ⟨rfl, alike.putEnvironment ⟨fun _ => rfl, rfl, rfl⟩ name⟩
  | inEnvironment name a =>
    have envs := alike.environment name
    simp only [Session.run]
    cases there : s.environment? name with
    | none =>
      cases there' : s'.environment? name with
      | none => exact ⟨rfl, alike⟩
      | some env' =>
        rw [there, there'] at envs
        cases envs
    | some env =>
      cases there' : s'.environment? name with
      | none =>
        rw [there, there'] at envs
        cases envs
      | some env' =>
        rw [there, there'] at envs
        cases envs with
        | some envs => exact alike.act there there' envs a

/-- What cannot be told apart stays so, whatever commands are given. -/
theorem replies_runAll (commands : List Command) :
    (s.runAll commands).1 = (s'.runAll commands).1 := by
  induction commands generalizing s s' with
  | nil => rfl
  | cons c rest ih =>
    obtain ⟨reply, after⟩ := alike.run c
    rw [replies_cons, replies_cons, reply, ih after]

end Alike

end Session

end Calculator
