import Calculator.Proofs.Agreement
import Calculator.Proofs.Sessions
import Mathlib.Logic.Function.Basic

/-!
What is kept in a slot. Throughout a session the tokens of a formula are those of its text, read
with the values that variables had in the environment in which the slot was last compiled or
refreshed, and its code is that of the tokens. So a formula means what its text meant there: it can
be compiled again without effect, and it evaluates as that text does, whatever variables were set
since.
-/

namespace Calculator

/-- The values that variables had at some point. -/
abbrev Environment.Values := Std.TreeMap String Float

/-- The formula is what its text becomes where variables have these values. -/
structure Formula.ReadWith (f : Formula) (values : Environment.Values) : Prop where
  tokens : ∀ env : Environment, env.values = values → Token.ofText env f.source = .ok f.tokens
  code : Code.ofTokens f.tokens = .ok f.code

namespace Formula

variable {f : Formula} {values : Environment.Values}

theorem readWith_of_compile {env : Environment} {source : String}
    (compiled : compile env source = .ok f) : f.ReadWith env.values := by
  obtain ⟨tokens, code, read, ordered, rfl⟩ := exists_of_compile compiled
  refine ⟨?_, ordered⟩
  intro reader same
  have lookups : reader.SameValues env := by
    intro name
    rw [Environment.lookup, Environment.lookup, same]
  exact (Token.ofText_congr lookups source).trans read

namespace ReadWith

variable (read : f.ReadWith values)

include read

theorem recompile : f.recompile = .ok f := by
  rw [Formula.recompile, read.code]
  rfl

/-- Evaluating never looks a variable up. -/
theorem evaluate {user reader : Environment} (same : reader.values = values)
    (generator : reader.generator = user.generator) :
    f.evaluate user = ((reader.interpret f.source).1,
      { user with generator := (reader.interpret f.source).2.generator }) := by
  have interpreted : reader.interpret f.source = reader.evaluate f.code := by
    simp only [Environment.interpret, read.tokens reader same, Except.bind, read.code]
  rw [interpreted, Formula.evaluate, Environment.evaluate, Environment.evaluate, generator]

end ReadWith

end Formula

/-- Does the action compile a text or tokens? -/
def Action.Compiles : Action → Prop
  | .compile _ _ | .refresh _ | .recompile _ => True
  | _ => False

namespace Session

/-- For each slot the values that variables had where the slot was last compiled or refreshed. A
copy takes them along. -/
abbrev Origins := String → Option Environment.Values

def Origins.after (o : Origins) (s : Session) : Command → Reply → Origins
  | .inEnvironment name (.compile slot _), .code _
  | .inEnvironment name (.refresh slot), .code _ =>
    Function.update o slot ((s.environment? name).map (·.values))
  | .inEnvironment _ (.copy slot other), .nothing => Function.update o other (o slot)
  | _, _ => o

def origins (s : Session) (o : Origins) : List Command → Origins
  | [] => o
  | c :: rest => (s.run c).2.origins (o.after s c (s.run c).1) rest

/-- Every formula was read with the values of its origin. -/
def Coherent (s : Session) (o : Origins) : Prop :=
  ∀ slot f, s.formula? slot = some f → ∃ values, o slot = some values ∧ f.ReadWith values

variable {s : Session} {o : Origins} {name slot : String} {env : Environment} {f : Formula}

/-- Putting a formula in a slot that already holds it has no effect that can be seen. -/
theorem formula?_putFormula_self (there : s.formula? slot = some f) (other : String) :
    (s.putFormula slot f).formula? other = s.formula? other := by
  rw [formula?_putFormula]
  split
  · rename_i same
    rw [← same, there]
  · rfl

namespace Coherent

theorem putFormula (coherent : s.Coherent o) {values : Environment.Values}
    (read : f.ReadWith values) (slot : String) :
    (s.putFormula slot f).Coherent (Function.update o slot (some values)) := by
  intro other found there
  rw [formula?_putFormula] at there
  split at there
  · rename_i same
    cases there
    exact ⟨values, same ▸ Function.update_self .., read⟩
  · rename_i different
    rw [Function.update_of_ne (Ne.symm different)]
    exact coherent other found there

theorem of_formula? (coherent : s.Coherent o) {s' : Session}
    (formulas : ∀ slot, s'.formula? slot = s.formula? slot) : s'.Coherent o := by
  intro slot found there
  rw [formulas] at there
  exact coherent slot found there

/-- What one action makes of the slots. -/
theorem act (coherent : s.Coherent o) (there : s.environment? name = some env) (a : Action) :
    (s.act name env a).2.Coherent (o.after s (.inEnvironment name a) (s.act name env a).1) := by
  cases a with
  | compile slot text =>
    simp only [Session.act]
    cases compiled : Formula.compile env text with
    | error e => exact coherent
    | ok f =>
      simp only [keep, Origins.after, there, Option.map_some]
      exact coherent.putFormula (Formula.readWith_of_compile compiled) slot
  | refresh slot =>
    simp only [Session.act]
    cases found : s.formula? slot with
    | none => exact coherent
    | some old =>
      cases compiled : Formula.compile env old.source with
      | error e =>
        simp only [Formula.refresh, compiled]
        exact coherent
      | ok f =>
        simp only [Formula.refresh, compiled, keep, Origins.after, there, Option.map_some]
        exact coherent.putFormula (Formula.readWith_of_compile compiled) slot
  | recompile slot =>
    simp only [Session.act]
    cases found : s.formula? slot with
    | none => exact coherent
    | some f =>
      obtain ⟨values, _, read⟩ := coherent slot f found
      simp only [read.recompile, keep, Origins.after]
      exact coherent.of_formula? (formula?_putFormula_self found)
  | copy slot other =>
    simp only [Session.act]
    cases found : s.formula? slot with
    | none => exact coherent
    | some f =>
      obtain ⟨values, origin, read⟩ := coherent slot f found
      simp only [Origins.after, origin]
      exact coherent.putFormula read other
  | _ => exact coherent.of_formula? (formula?_act_of_not_stores id)

theorem run (coherent : s.Coherent o) (c : Command) :
    (s.run c).2.Coherent (o.after s c (s.run c).1) := by
  cases c with
  | create name seed => exact coherent.of_formula? fun _ => rfl
  | inEnvironment name a =>
    cases there : s.environment? name with
    | none =>
      simp only [Session.run, there]
      cases a <;> exact coherent
    | some env =>
      rw [run_inEnvironment there]
      exact coherent.act there a

theorem runAll (coherent : s.Coherent o) (commands : List Command) :
    (s.runAll commands).2.Coherent (s.origins o commands) := by
  induction commands generalizing s o with
  | nil => exact coherent
  | cons c rest ih => exact ih (coherent.run c)

end Coherent

theorem coherent_empty : empty.Coherent fun _ => none := by
  intro slot f there
  rw [formula?_empty] at there
  cases there

/-- The values that variables had where the slot was last compiled or refreshed by the commands. -/
def origin (commands : List Command) (slot : String) : Option Environment.Values :=
  empty.origins (fun _ => none) commands slot

/-- Compiling is all or nothing. -/
theorem act_of_failure {a : Action} (compiles : a.Compiles)
    (failed : ∀ code, (s.act name env a).1 ≠ .code code) : (s.act name env a).2 = s := by
  have kept (slot : String) (result : Except Error Formula)
      (failed : ∀ code, (s.keep slot result).1 ≠ .code code) : (s.keep slot result).2 = s := by
    cases result with
    | error e => rfl
    | ok f => exact absurd rfl (failed f.code)
  cases a with
  | compile slot text => exact kept _ _ failed
  | refresh slot =>
    simp only [act] at failed ⊢
    cases found : s.formula? slot with
    | none => rfl
    | some f =>
      simp only [found] at failed
      exact kept _ _ failed
  | recompile slot =>
    simp only [act] at failed ⊢
    cases found : s.formula? slot with
    | none => rfl
    | some f =>
      simp only [found] at failed
      exact kept _ _ failed
  | _ => exact compiles.elim

/-- Formulas stay coherent, whatever commands are given. A formula is what its text becomes with the
values that variables had where its slot was last compiled or refreshed, also if it was copied
since; in any environment it has the result, and leaves the random numbers, that its text has where
variables have those values. Compiling it again succeeds and changes nothing, and compiling that
fails changes nothing either. -/
theorem coherent_of_runAll {commands : List Command} (reached : (empty.runAll commands).2 = s) :
    (∀ slot f, s.formula? slot = some f →
      ∃ values, origin commands slot = some values ∧ f.ReadWith values ∧
        ∀ user reader : Environment, reader.values = values → reader.generator = user.generator →
          f.evaluate user = ((reader.interpret f.source).1,
            { user with generator := (reader.interpret f.source).2.generator })) ∧
    (∀ slot f name env, s.formula? slot = some f → s.environment? name = some env →
      ∃ after, s.run (.inEnvironment name (.recompile slot)) = (.code f.code, after) ∧
        after.environments = s.environments ∧ ∀ other, after.formula? other = s.formula? other) ∧
    ∀ name a, a.Compiles → (∀ code, (s.run (.inEnvironment name a)).1 ≠ .code code) →
      (s.run (.inEnvironment name a)).2 = s := by
  have coherent : s.Coherent (origin commands) := reached ▸ coherent_empty.runAll commands
  refine ⟨?_, ?_, ?_⟩
  · intro slot f there
    obtain ⟨values, came, read⟩ := coherent slot f there
    exact ⟨values, came, read, fun user reader => read.evaluate⟩
  · intro slot f name env there used
    obtain ⟨values, _, read⟩ := coherent slot f there
    refine ⟨s.putFormula slot f, ?_, rfl, formula?_putFormula_self there⟩
    simp only [run_inEnvironment used, act, there, read.recompile, keep]
  · intro name a compiles failed
    simp only [run] at failed ⊢
    cases used : s.environment? name with
    | none => rfl
    | some env =>
      simp only [used] at failed
      exact act_of_failure compiles failed

section Constant

/-- A constant is compiled, then it is changed in the environment, and the formula is copied. -/
def copied : List Command :=
  [.create "a" none, .inEnvironment "a" (.compile "f" "pi"),
    .inEnvironment "a" (.setVariable "pi" 3), .inEnvironment "a" (.copy "f" "g")]

/-- What the environment and the formula then are. -/
def changed : Environment :=
  { Environment.initial with values := Environment.constants.insert "pi" 3 }

def constant : Formula := ⟨"pi", [.number 3.141592653589793], [.number 3.141592653589793]⟩

/-- The copy has the constant's first value and evaluates to it where the variable has another. -/
theorem coherent_of_runAll_copied : ∃ s, (empty.runAll copied).2 = s ∧
    s.formula? "g" = some constant ∧ s.environment? "a" = some changed ∧
    changed.lookup "pi" = some 3 ∧ constant.ReadWith Environment.constants ∧
    (constant.evaluate changed).1 = .ok [3.141592653589793] ∧
    (s.run (.inEnvironment "a" (.recompile "g"))).1 = .code constant.code := by
  have known : Environment.initial.lookup "pi" = some 3.141592653589793 := rfl
  have changes : Environment.initial.set "pi" 3 = .ok (some 3.141592653589793, changed) := rfl
  have compiled : Formula.compile .initial "pi" = .ok constant := Environment.compile_pi known
  -- each session gets a name, so that none is ever computed
  have created : empty.run (.create "a" none) = (.nothing, empty.putEnvironment "a" .initial) := rfl
  generalize named₁ : empty.putEnvironment "a" .initial = s₁ at created
  have env₁ : s₁.environment? "a" = some .initial := by simp [← named₁, environment?_putEnvironment]
  have compiles : s₁.run (.inEnvironment "a" (.compile "f" "pi")) =
      (.code constant.code, s₁.putFormula "f" constant) := by
    simp only [run_inEnvironment env₁, act, compiled, keep]
  generalize named₂ : s₁.putFormula "f" constant = s₂ at compiles
  have env₂ : s₂.environment? "a" = some .initial := by rw [← named₂, environment?_putFormula, env₁]
  have held₂ : s₂.formula? "f" = some constant := by simp [← named₂, formula?_putFormula]
  have sets : s₂.run (.inEnvironment "a" (.setVariable "pi" 3)) =
      (.number (some 3.141592653589793), s₂.putEnvironment "a" changed) := by
    simp only [run_inEnvironment env₂, act, changes]
  generalize named₃ : s₂.putEnvironment "a" changed = s₃ at sets
  have env₃ : s₃.environment? "a" = some changed := by simp [← named₃, environment?_putEnvironment]
  have held₃ : s₃.formula? "f" = some constant := by rw [← named₃, formula?_putEnvironment, held₂]
  have copies : s₃.run (.inEnvironment "a" (.copy "f" "g")) =
      (.nothing, s₃.putFormula "g" constant) := by
    simp only [run_inEnvironment env₃, act, held₃]
  generalize named₄ : s₃.putFormula "g" constant = s at copies
  have there : s.environment? "a" = some changed := by rw [← named₄, environment?_putFormula, env₃]
  have held : s.formula? "g" = some constant := by simp [← named₄, formula?_putFormula]
  have reached : (empty.runAll copied).2 = s := by
    simp only [copied, runAll, created, compiles, sets, copies]
  have came : origin copied "g" = some Environment.constants := by
    have values : Environment.initial.values = Environment.constants := rfl
    simp [origin, origins, Origins.after, copied, created, compiles, sets, copies, env₁, values]
  obtain ⟨formulas, recompiles, _⟩ := coherent_of_runAll reached
  obtain ⟨values, origin, read, evaluates⟩ := formulas "g" _ held
  obtain ⟨after, again, _⟩ := recompiles "g" _ "a" _ held there
  cases came.symm.trans origin
  have interpreted : Environment.initial.interpret "pi" =
      Environment.initial.evaluate constant.code := by
    rw [Environment.interpret_eq, compiled]
  have number (env : Environment) : (env.evaluate constant.code).1 = .ok [3.141592653589793] := rfl
  refine ⟨s, reached, held, there, rfl, read, ?_, by rw [again]⟩
  rw [evaluates changed .initial rfl rfl]
  exact (congrArg Prod.fst interpreted).trans (number .initial)

end Constant

end Session

end Calculator
