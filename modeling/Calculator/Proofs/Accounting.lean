import Calculator.Proofs.Sessions
import Mathlib.Logic.Function.Basic

/-!
The account of random numbers. At any point of a session a generator is the one of its seed after
as many draws as calls of `random` were carried out since it was started; so environments of which
variables, seed and that number are equal cannot be told apart. Code without calls of `random` can
be evaluated earlier or later.
-/

namespace Calculator

namespace Session

/-- How many calls of `random` an action carries out. -/
def draws (s : Session) (env : Environment) (a : Action) : Nat :=
  Code.randoms (Code.carriedOut (a.code s env) env.generator)

/-- For each environment how many calls of `random` were carried out since it was made or seeded
anew. A fork takes over the number. -/
abbrev Tally := String → Nat

def Tally.after (t : Tally) (s : Session) : Command → Tally
  | .create name _ => Function.update t name 0
  | .inEnvironment name a =>
    match s.environment? name with
    | none => t
    | some env =>
      match a with
      | .fork other => Function.update t other (t name)
      | .reseed _ => Function.update t name 0
      | a => Function.update t name (t name + s.draws env a)

def tally (s : Session) (t : Tally) : List Command → Tally
  | [] => t
  | c :: rest => (s.run c).2.tally (t.after s c) rest

end Session

/-- The generator is that of the seed after so many draws. -/
def Environment.Drew (env : Environment) (n : Nat) : Prop :=
  env.generator = (Random.Generator.ofSeed env.seed).advance n

theorem Environment.drew_iff {env : Environment} {n : Nat} :
    env.Drew n ↔ env.generator = ⟨Random.Generator.seedKey env.seed, n⟩ := by
  rw [Drew, Random.Generator.advance_eq, Random.Generator.ofSeed, Nat.zero_add]

/-- An environment settles how many draws there were. -/
theorem Environment.Drew.unique {env : Environment} {m n : Nat} (drew : env.Drew m)
    (drew' : env.Drew n) : m = n := by
  have same := (drew_iff.mp drew).symm.trans (drew_iff.mp drew')
  exact congrArg Random.Generator.drawn same

theorem Environment.Drew.draw {env : Environment} {n : Nat} (drew : env.Drew n) (more : Nat) :
    (env.draw more).Drew (n + more) := by
  unfold Environment.Drew Environment.draw
  rw [drew, Random.Generator.advance_add]

namespace Session

/-- The tally is right for every environment. -/
def Accounted (s : Session) (t : Tally) : Prop :=
  ∀ name env, s.environment? name = some env → env.Drew (t name)

variable {s : Session} {t : Tally} {name : String} {env : Environment}

/-- The tally stays right if one environment is put in a place and counted there. -/
theorem Accounted.update (accounted : s.Accounted t) {s' : Session} {n : Nat} (drew : env.Drew n)
    (looked : ∀ other,
      s'.environment? other = if name = other then some env else s.environment? other) :
    s'.Accounted (Function.update t name n) := by
  intro other found there
  rw [looked] at there
  split at there
  · rename_i same
    cases there
    rw [← same, Function.update_self]
    exact drew
  · rename_i different
    rw [Function.update_of_ne (Ne.symm different)]
    exact accounted other found there

/-- An action that neither evaluates nor seeds nor forks leaves seeds and generators alone. -/
theorem generator_act (there : s.environment? name = some env) {a : Action}
    (plain : ¬ a.Evaluates) (seeded : ∀ seed, a ≠ .reseed seed) (forked : ∀ other, a ≠ .fork other)
    (other : String) :
    ((s.act name env a).2.environment? other).map (fun e => (e.seed, e.generator)) =
      (s.environment? other).map fun e => (e.seed, e.generator) := by
  rcases act_cases plain with
    same | ⟨values, same⟩ | ⟨other, forks, _⟩ | ⟨seed, seeds, _⟩ | ⟨_, slot, f, same⟩
  · rw [same]
  · rw [same, environment?_putEnvironment]
    split
    · rename_i here
      rw [← here, there]
      rfl
    · rfl
  · exact absurd forks (forked other)
  · exact absurd seeds (seeded seed)
  · rw [same, environment?_putFormula]

theorem draws_of_not_evaluates {a : Action} (plain : ¬ a.Evaluates) : s.draws env a = 0 := by
  cases a with
  | progress text => exact absurd trivial plain
  | evaluate code => exact absurd trivial plain
  | interpret text => exact absurd trivial plain
  | adapt t text => exact absurd trivial plain
  | evaluateFormula slot => exact absurd trivial plain
  | adaptFormula slot t => exact absurd trivial plain
  | _ => rfl

theorem Accounted.act (accounted : s.Accounted t) (there : s.environment? name = some env)
    (a : Action) : (s.act name env a).2.Accounted (t.after s (.inEnvironment name a)) := by
  have drew := accounted name env there
  by_cases forked : ∃ other, a = .fork other
  · obtain ⟨other, rfl⟩ := forked
    simp only [Tally.after, there]
    exact accounted.update drew (environment?_putEnvironment s other · env)
  by_cases seeded : ∃ seed, a = .reseed seed
  · obtain ⟨seed, rfl⟩ := seeded
    simp only [Tally.after, there]
    have fresh : (env.reseed seed).Drew 0 := rfl
    exact accounted.update fresh (environment?_putEnvironment s name · (env.reseed seed))
  have account : t.after s (.inEnvironment name a) =
      Function.update t name (t name + s.draws env a) := by
    simp only [Tally.after, there]
    cases a with
    | fork other => exact absurd ⟨other, rfl⟩ forked
    | reseed seed => exact absurd ⟨seed, rfl⟩ seeded
    | _ => rfl
  rw [account]
  by_cases evaluates : a.Evaluates
  · refine accounted.update (drew.draw (s.draws env a)) ?_
    intro other
    rw [environment?_act there evaluates, Environment.environment_evaluate, draws]
  · rw [draws_of_not_evaluates evaluates, Nat.add_zero, Function.update_eq_self]
    intro other after found
    have same := generator_act there evaluates (fun seed h => seeded ⟨seed, h⟩)
      (fun other h => forked ⟨other, h⟩) other
    rw [found] at same
    obtain ⟨before, found, equal⟩ := Option.map_eq_some_iff.mp same.symm
    obtain ⟨seed, generator⟩ := Prod.mk.inj equal
    have drew := accounted other before found
    unfold Environment.Drew at drew ⊢
    rw [← seed, ← generator, drew]

theorem Accounted.run (accounted : s.Accounted t) (c : Command) :
    (s.run c).2.Accounted (t.after s c) := by
  cases c with
  | create name seed =>
    refine accounted.update ?_ (environment?_putEnvironment s name · _)
    cases seed <;> rfl
  | inEnvironment name a =>
    cases there : s.environment? name with
    | none =>
      simp only [Session.run, Tally.after, there]
      exact accounted
    | some env =>
      rw [run_inEnvironment there]
      exact accounted.act there a

theorem Accounted.runAll (accounted : s.Accounted t) (commands : List Command) :
    (s.runAll commands).2.Accounted (s.tally t commands) := by
  induction commands generalizing s t with
  | nil => exact accounted
  | cons c rest ih => exact ih (accounted.run c)

theorem accounted_empty : empty.Accounted fun _ => 0 := by
  intro name env there
  rw [environment?_empty] at there
  cases there

/-- The number of calls of `random` that commands have carried out in an environment since it was
made or seeded anew. -/
def drawn (commands : List Command) (name : String) : Nat := empty.tally (fun _ => 0) commands name

theorem Environment.alike_of_drew {env env' : Environment} {n : Nat} (values : env.SameValues env')
    (seed : env.seed = env'.seed) (drew : env.Drew n) (drew' : env'.Drew n) : env.Alike env' := by
  refine ⟨values, seed, ?_⟩
  rw [drew, drew', seed]

section Quiet

variable {a a' : Action}

/-- A session in which code without calls of `random` was evaluated looks as before. -/
theorem alike_act_of_randoms (there : s.environment? name = some env) (evaluates : a.Evaluates)
    (none : Code.randoms (a.code s env) = 0) : (s.act name env a).2.Alike s := by
  refine alike_of_lookups ?_ (formula?_act evaluates)
  intro other
  rw [environment?_act there evaluates, Environment.environment_evaluate_of_randoms none]
  split
  · rename_i same
    rw [← same, there]
  · rfl

/-- After another evaluation such code has the same result. -/
theorem act_after (name' : String) (there : s.environment? name = some env)
    (evaluates : a.Evaluates) (evaluates' : a'.Evaluates) (none : Code.randoms (a.code s env) = 0) :
    ∃ env', (s.run (.inEnvironment name' a')).2.environment? name = some env' ∧
      (s.act name env a).1 = ((s.run (.inEnvironment name' a')).2.act name env' a).1 ∧
      a.code s env = a.code (s.run (.inEnvironment name' a')).2 env' := by
  cases there' : s.environment? name' with
  | none =>
    simp only [Session.run, there']
    exact ⟨env, there, rfl, rfl⟩
  | some user =>
    have formulas (slot : String) :
        s.formula? slot = (s.act name' user a').2.formula? slot :=
      (formula?_act evaluates' slot).symm
    simp only [Session.run, there']
    rw [environment?_act there' evaluates']
    split
    · rename_i same
      subst same
      rw [there] at there'
      cases there'
      have values : env.SameValues (env.evaluate (a'.code s env)).2 := fun _ => rfl
      refine ⟨_, rfl, reply_congr formulas values evaluates ?_, code_congr formulas values a⟩
      exact Code.evaluate_eq_of_randoms none _ _
    · have values : env.SameValues env := fun _ => rfl
      exact ⟨env, there, reply_congr formulas values evaluates rfl, code_congr formulas values a⟩

/-- Code without calls of `random` can be evaluated before or behind any other. -/
theorem exists_replies_of_randoms {name' : String} (there : s.environment? name = some env)
    (evaluates : a.Evaluates) (evaluates' : a'.Evaluates)
    (none : Code.randoms (a.code s env) = 0) (rest : List Command) :
    ∃ reply reply' replies,
      (s.runAll (.inEnvironment name a :: .inEnvironment name' a' :: rest)).1 =
          reply :: reply' :: replies ∧
        (s.runAll (.inEnvironment name' a' :: .inEnvironment name a :: rest)).1 =
          reply' :: reply :: replies := by
  have first := run_inEnvironment there a
  have quiet := alike_act_of_randoms there evaluates none
  obtain ⟨env', there', reply, code⟩ := act_after name' there evaluates evaluates' none
  have second := run_inEnvironment there' a
  have quiet' := alike_act_of_randoms there' evaluates (code ▸ none)
  obtain ⟨reply', after⟩ := quiet.run (.inEnvironment name' a')
  have replies := after.replies_runAll rest
  have replies' := quiet'.replies_runAll rest
  refine ⟨(s.act name env a).1, (s.run (.inEnvironment name' a')).1,
    ((s.run (.inEnvironment name' a')).2.runAll rest).1, ?_, ?_⟩
  · rw [replies_cons, replies_cons, first, reply', replies]
  · rw [replies_cons, replies_cons, second, ← reply, replies']

end Quiet

/-- The account of random numbers. A generator is that of its seed after as many draws as calls of
`random` were carried out. Evaluating carries out those in its code, if it fails those in front of
the token that fails, and changes nothing else; what does not evaluate draws nothing. Environments
with equal variables, seeds and numbers of calls answer alike whatever follows, and code without
such calls can be evaluated before or behind any other. -/
theorem random_accounted :
    (∀ commands name env, (empty.runAll commands).2.environment? name = some env →
      env.Drew (drawn commands name)) ∧
    (∀ (env : Environment) code,
      (∀ xs, (env.evaluate code).1 = .ok xs →
        (env.evaluate code).2 = env.draw (Code.randoms code)) ∧
      ∀ e, (env.evaluate code).1 = .error e →
        ∃ before rest m, code = before ++ rest ∧
          Code.Machine.run ⟨[], env.generator⟩ before = (.ok (), m) ∧
          (rest = [] ∨ ∃ t more, rest = t :: more ∧ m.step t = .error e) ∧
          (env.evaluate code).2 = env.draw (Code.randoms before)) ∧
    (∀ (s : Session) name env a, s.environment? name = some env → a.Evaluates → ∀ other,
      (s.act name env a).2.environment? other =
        if name = other then some (env.draw (s.draws env a)) else s.environment? other) ∧
    (∀ (s : Session) name env a, s.environment? name = some env → ¬ a.Evaluates →
      (∀ seed, a ≠ .reseed seed) → (∀ other, a ≠ .fork other) → ∀ other,
      ((s.act name env a).2.environment? other).map (fun e => (e.seed, e.generator)) =
        (s.environment? other).map fun e => (e.seed, e.generator)) ∧
    (∀ commands commands' name name' env env',
      (empty.runAll commands).2.environment? name = some env →
      (empty.runAll commands').2.environment? name' = some env' →
      env.SameValues env' → env.seed = env'.seed → drawn commands name = drawn commands' name' →
      ∀ (s : Session) place continuation,
        ((s.putEnvironment place env).runAll continuation).1 =
          ((s.putEnvironment place env').runAll continuation).1) ∧
    ∀ (s : Session) name env a name' a', s.environment? name = some env → a.Evaluates →
      a'.Evaluates → Code.randoms (a.code s env) = 0 → ∀ rest, ∃ reply reply' replies,
        (s.runAll (.inEnvironment name a :: .inEnvironment name' a' :: rest)).1 =
            reply :: reply' :: replies ∧
          (s.runAll (.inEnvironment name' a' :: .inEnvironment name a :: rest)).1 =
            reply' :: reply :: replies := by
  have accounted (commands : List Command) := accounted_empty.runAll commands
  refine ⟨accounted, Environment.exists_draw_of_evaluate, ?_, ?_, ?_, ?_⟩
  · intro s name env a there evaluates other
    rw [environment?_act there evaluates, Environment.environment_evaluate, draws]
  · intro s name env a there plain seeded forked other
    exact generator_act there plain seeded forked other
  · intro commands commands' name name' env env' there there' values seed count s place continuation
    have drew : env.Drew (drawn commands name) := accounted commands name env there
    have drew' : env'.Drew (drawn commands' name') := accounted commands' name' env' there'
    rw [← count] at drew'
    have alike := Environment.alike_of_drew values seed drew drew'
    have same : s.Alike s := alike_of_lookups (fun _ => rfl) fun _ => rfl
    exact (same.putEnvironment alike place).replies_runAll continuation
  · intro s name env a name' a' there evaluates evaluates' none rest
    exact exists_replies_of_randoms there evaluates evaluates' none rest

section Rolled

/-- The code of `random(0, 1)`. -/
def roll : List Token := [.number 0, .number 1, .call Builtin.random.name 2]

def rolled : List Command := [.create "a" (some 7), .inEnvironment "a" (.evaluate roll)]

/-- Another seed at first, and an evaluation that breaks off behind the call. -/
def rolledElsewhere : List Command :=
  [.create "b" (some 1), .inEnvironment "b" (.evaluate roll), .inEnvironment "b" (.reseed 7),
    .inEnvironment "b" (.evaluate (roll ++ [.binaryOp '*']))]

/-- Both environments have the seed 7 and have drawn once since, so that they answer alike; and a
constant can be evaluated before the next draw or behind it. -/
theorem random_accounted_rolled :
    ∃ env env', (empty.runAll rolled).2.environment? "a" = some env ∧
      (empty.runAll rolledElsewhere).2.environment? "b" = some env' ∧ env.Drew 1 ∧ env'.Drew 1 ∧
      (∀ (s : Session) place continuation,
        ((s.putEnvironment place env).runAll continuation).1 =
          ((s.putEnvironment place env').runAll continuation).1) ∧
      ∃ reply reply' replies,
        ((empty.runAll rolled).2.runAll [.inEnvironment "a" (.evaluate [.number 1]),
            .inEnvironment "a" (.evaluate roll)]).1 = reply :: reply' :: replies ∧
          ((empty.runAll rolled).2.runAll [.inEnvironment "a" (.evaluate roll),
            .inEnvironment "a" (.evaluate [.number 1])]).1 = reply' :: reply :: replies := by
  obtain ⟨accounted, _, _, _, continues, moves⟩ := random_accounted
  have there : (empty.runAll rolled).2.environment? "a" =
      some ((Environment.ofSeed 7).draw 1) := rfl
  have elsewhere : (empty.runAll rolledElsewhere).2.environment? "b" =
      some ((Environment.ofSeed 7).draw 1) := rfl
  have once : drawn rolled "a" = 1 := rfl
  have onceElsewhere : drawn rolledElsewhere "b" = 1 := rfl
  have count : drawn rolled "a" = drawn rolledElsewhere "b" := once.trans onceElsewhere.symm
  refine ⟨_, _, there, elsewhere, once ▸ accounted _ _ _ there,
    onceElsewhere ▸ accounted _ _ _ elsewhere, ?_, ?_⟩
  · exact continues _ _ _ _ _ _ there elsewhere (fun _ => rfl) rfl count
  · exact moves _ _ _ (.evaluate [.number 1]) "a" (.evaluate roll) there trivial trivial rfl []

end Rolled

end Session

end Calculator
