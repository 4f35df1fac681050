import Calculator.Proofs.Machine

/-!
Random numbers are drawn one by one, one for each call of `random` that is carried out. A run that
breaks off has carried out the tokens before the one that failed; code without such a call has the
same result whatever the generator.
-/

namespace Calculator

namespace Random.Generator

/-- The generator after so many draws. -/
def advance (g : Generator) : Nat → Generator
  | 0 => g
  | n + 1 => (g.advance n).next.2

/-- The generator counts its draws, and no draw changes the key. -/
theorem advance_eq (g : Generator) (n : Nat) : g.advance n = { g with drawn := g.drawn + n } := by
  induction n with
  | zero => rfl
  | succ n ih => rw [advance, ih, next, Nat.add_assoc]

theorem advance_add (g : Generator) (m n : Nat) : g.advance (m + n) = (g.advance m).advance n := by
  rw [advance_eq g (m + n), advance_eq g m, advance_eq, Nat.add_assoc]

end Random.Generator

namespace Token

/-- Is it a call of the function that draws? -/
def isRandom : Token → Bool
  | call name _ => name = Builtin.random.name
  | _ => false

end Token

namespace Code

/-- How many calls of `random` there are in code. -/
def randoms (code : List Token) : Nat := code.countP Token.isRandom

theorem randoms_cons (t : Token) (code : List Token) :
    randoms (t :: code) = randoms [t] + randoms code := by
  simp [randoms, List.countP_cons, Nat.add_comm]

namespace Machine

/-- The tokens of code that are carried out: all before the one that fails. -/
def carriedOut (m : Machine) : List Token → List Token
  | [] => []
  | token :: rest =>
    match m.step token with
    | .error _ => []
    | .ok m => token :: m.carriedOut rest

theorem carriedOut_prefix (m : Machine) (code : List Token) : m.carriedOut code <+: code := by
  induction code generalizing m with
  | nil => exact List.prefix_rfl
  | cons t code ih =>
    simp only [carriedOut]
    cases m.step t with
    | error e => exact List.nil_prefix
    | ok next => exact List.cons_prefix_cons.mpr ⟨rfl, ih next⟩

section Break

variable {m n : Machine} {code : List Token}

theorem carriedOut_of_run (h : m.run code = (.ok (), n)) : m.carriedOut code = code := by
  induction code generalizing m with
  | nil => rfl
  | cons t code ih =>
    rw [run_cons] at h
    cases stepped : m.step t with
    | error e =>
      rw [stepped] at h
      cases h
    | ok next =>
      rw [stepped] at h
      simp only [carriedOut, stepped, ih h]

/-- A run breaks off at the token behind those that are carried out. -/
theorem exists_of_run_error {e : Error} (h : m.run code = (.error e, n)) :
    ∃ t rest, code = m.carriedOut code ++ t :: rest ∧ m.run (m.carriedOut code) = (.ok (), n) ∧
      n.step t = .error e := by
  induction code generalizing m with
  | nil => cases h
  | cons t code ih =>
    rw [run_cons] at h
    cases stepped : m.step t with
    | error e' =>
      rw [stepped] at h
      cases h
      exact ⟨t, code, by simp [carriedOut, stepped], by simp [carriedOut, stepped, run], stepped⟩
    | ok next =>
      rw [stepped] at h
      obtain ⟨u, rest, split, ran, broke⟩ := ih h
      simp only [carriedOut, stepped]
      refine ⟨u, rest, congrArg (t :: ·) split, ?_, broke⟩
      rw [run_cons, stepped]
      exact ran

end Break

theorem generator_of_call {m n : Machine} {name : FunctionName} {arity : Nat}
    (h : m.call name.text arity = .ok n) :
    n.generator = m.generator.advance (randoms [.call name arity]) := by
  unfold call at h
  cases known : Builtin.ofName? name.text with
  | none => rw [known] at h; cases h
  | some f =>
    simp only [known] at h
    split at h
    · cases h
    split at h
    · cases h
    split at h
    · cases h
    · obtain ⟨⟨args, rest⟩, _, h⟩ := exists_of_bind h
      cases h
      simp only [Builtin.apply_generator, randoms, Token.isRandom, List.countP_singleton,
        decide_eq_true_eq, Builtin.eq_name_iff known]
      split
      · rfl
      · rfl

/-- A call of `random` draws once when it is carried out, and no other token draws. -/
theorem generator_of_step {m n : Machine} {t : Token} (h : m.step t = .ok n) :
    n.generator = m.generator.advance (randoms [t]) := by
  cases t with
  | number x =>
    cases h
    rfl
  | prefixOp c =>
    simp only [step] at h
    split at h
    · obtain ⟨operand, _, h⟩ := exists_of_bind h
      cases h
      rfl
    · cases h
  | binaryOp c =>
    simp only [step] at h
    split at h
    · obtain ⟨right, _, h⟩ := exists_of_bind h
      obtain ⟨left, _, h⟩ := exists_of_bind h
      cases h
      rfl
    · cases h
  | call name arity => exact generator_of_call h
  | tuple arity =>
    simp only [step] at h
    split at h
    · cases h
    · obtain ⟨components, _, h⟩ := exists_of_bind h
      cases h
      rfl
  | leftParen => cases h
  | rightParen => cases h
  | separator => cases h

theorem generator_run (m : Machine) (code : List Token) :
    (m.run code).2.generator = m.generator.advance (randoms (m.carriedOut code)) := by
  induction code generalizing m with
  | nil => rfl
  | cons t code ih =>
    rw [run_cons]
    cases stepped : m.step t with
    | error e => simp [carriedOut, stepped, randoms, Random.Generator.advance]
    | ok next =>
      simp only [carriedOut, stepped]
      rw [ih next, generator_of_step stepped, ← Random.Generator.advance_add, ← randoms_cons]

end Machine

end Code

theorem Builtin.apply_value {f : Builtin} (plain : f ≠ .random) {args : List Float}
    (h : args.length = f.arity) (g g' : Random.Generator) :
    (f.apply args h g).1 = (f.apply args h g').1 := by
  unfold apply
  split
  all_goals first | exact absurd rfl plain | rfl

namespace Code

namespace Machine

section Generator

variable {t : Token} {code : List Token}

/-- The same machine with another generator. -/
def withGenerator (m : Machine) (g : Random.Generator) : Machine := { m with generator := g }

theorem call_withGenerator {name : FunctionName} {arity : Nat}
    (none : randoms [.call name arity] = 0) (m : Machine) (g : Random.Generator) :
    (m.withGenerator g).call name.text arity =
      (m.call name.text arity).map (·.withGenerator g) := by
  simp only [call, withGenerator]
  cases known : Builtin.ofName? name.text with
  | none => rfl
  | some f =>
    have plain : f ≠ .random := by
      intro random
      rw [← Builtin.eq_name_iff known] at random
      subst random
      cases none
    simp only
    split
    · rfl
    split
    · rfl
    split
    · rename_i few
      exact if_pos few
    · rename_i enough
      refine (if_neg enough).trans ?_
      cases popScalars f.arity m.stack with
      | error e => rfl
      | ok popped =>
        simp only [bind, Except.bind, Except.map, Builtin.apply_generator, if_neg plain,
          Builtin.apply_value plain _ g m.generator]

theorem step_withGenerator (none : randoms [t] = 0) (m : Machine) (g : Random.Generator) :
    (m.withGenerator g).step t = (m.step t).map (·.withGenerator g) := by
  cases t with
  | number x => rfl
  | prefixOp c =>
    simp only [step, withGenerator]
    cases Operator.signOfSymbol? c with
    | none => rfl
    | some rule =>
      simp only
      cases popScalar m.stack <;> rfl
  | binaryOp c =>
    simp only [step, withGenerator]
    cases Operator.ofSymbol? c with
    | none => rfl
    | some op =>
      simp only
      cases popScalar m.stack with
      | error e => rfl
      | ok right =>
        simp only [bind, Except.bind]
        cases popScalar right.2 <;> rfl
  | call name arity => exact call_withGenerator none m g
  | tuple arity =>
    simp only [step, withGenerator]
    split
    · rename_i few
      exact if_pos few
    · rename_i enough
      refine (if_neg enough).trans ?_
      cases popScalars arity m.stack <;> rfl
  | leftParen => rfl
  | rightParen => rfl
  | separator => rfl

/-- Without a call of `random` a run is the same with any generator and leaves it alone. -/
theorem run_withGenerator (none : randoms code = 0) (m : Machine) (g : Random.Generator) :
    (m.withGenerator g).run code = ((m.run code).1, (m.run code).2.withGenerator g) := by
  induction code generalizing m with
  | nil => rfl
  | cons t code ih =>
    rw [randoms_cons] at none
    obtain ⟨first, others⟩ := Nat.add_eq_zero_iff.mp none
    rw [run_cons, run_cons, step_withGenerator first]
    cases m.step t with
    | error e => rfl
    | ok next => exact ih others next

end Generator

end Machine

theorem evaluate_eq_of_randoms {code : List Token} (none : randoms code = 0)
    (g g' : Random.Generator) : (evaluate code g).1 = (evaluate code g').1 := by
  unfold evaluate
  split
  · rfl
  · have ran := Machine.run_withGenerator none ⟨[], g⟩ g'
    simp only [Machine.withGenerator] at ran
    rw [ran]
    cases Machine.run ⟨[], g⟩ code with
    | mk result m =>
      cases result with
      | error e => rfl
      | ok u => rfl

/-- The tokens that evaluating code carries out. -/
def carriedOut (code : List Token) (g : Random.Generator) : List Token :=
  Machine.carriedOut ⟨[], g⟩ code

theorem generator_evaluate (code : List Token) (g : Random.Generator) :
    (evaluate code g).2 = g.advance (randoms (carriedOut code g)) := by
  have drawn := Machine.generator_run ⟨[], g⟩ code
  unfold evaluate carriedOut
  split
  · rename_i empty
    subst empty
    rfl
  · rw [← drawn]
    cases Machine.run ⟨[], g⟩ code with
    | mk result m =>
      cases result with
      | error e => rfl
      | ok u => rfl

theorem carriedOut_of_evaluate {code : List Token} {xs : List Float} {g g' : Random.Generator}
    (h : evaluate code g = (.ok xs, g')) : carriedOut code g = code := by
  obtain ⟨v, ran, _⟩ := evaluate_eq_ok_iff.mp h
  exact Machine.carriedOut_of_run ran

/-- Code that fails does so behind the tokens that are carried out: at the next token, or, where
all are, because they leave no single value. -/
theorem exists_of_evaluate_error {code : List Token} {e : Error} {g : Random.Generator}
    (h : (evaluate code g).1 = .error e) :
    ∃ rest m, code = carriedOut code g ++ rest ∧
      Machine.run ⟨[], g⟩ (carriedOut code g) = (.ok (), m) ∧
      (rest = [] ∨ ∃ t more, rest = t :: more ∧ m.step t = .error e) := by
  unfold evaluate at h
  split at h
  · rename_i empty
    subst empty
    exact ⟨[], ⟨[], g⟩, rfl, rfl, .inl rfl⟩
  · cases ran : Machine.run ⟨[], g⟩ code with
    | mk result m =>
      rw [ran] at h
      cases result with
      | error e' =>
        cases h
        obtain ⟨t, more, split, first, broke⟩ := Machine.exists_of_run_error ran
        exact ⟨t :: more, m, split, first, .inr ⟨t, more, rfl, broke⟩⟩
      | ok u =>
        have all : carriedOut code g = code := Machine.carriedOut_of_run ran
        rw [all]
        exact ⟨[], m, (List.append_nil code).symm, ran, .inl rfl⟩

end Code

namespace Environment

/-- The environment after so many draws. -/
def draw (env : Environment) (n : Nat) : Environment :=
  { env with generator := env.generator.advance n }

theorem environment_evaluate (env : Environment) (code : List Token) :
    (env.evaluate code).2 = env.draw (Code.randoms (Code.carriedOut code env.generator)) := by
  rw [draw, ← Code.generator_evaluate]
  rfl

theorem environment_evaluate_of_randoms {code : List Token} (none : Code.randoms code = 0)
    (env : Environment) : (env.evaluate code).2 = env := by
  have fewer : Code.randoms (Code.carriedOut code env.generator) ≤ Code.randoms code :=
    (Code.Machine.carriedOut_prefix _ code).sublist.countP_le
  have drawn : Code.randoms (Code.carriedOut code env.generator) = 0 := by omega
  rw [environment_evaluate, drawn]
  rfl

/-- Evaluating code draws once for each call of `random` in it, or, if a token fails, in what stands
before that token. -/
theorem exists_draw_of_evaluate (env : Environment) (code : List Token) :
    (∀ xs, (env.evaluate code).1 = .ok xs →
      (env.evaluate code).2 = env.draw (Code.randoms code)) ∧
      ∀ e, (env.evaluate code).1 = .error e →
        ∃ before rest m, code = before ++ rest ∧
          Code.Machine.run ⟨[], env.generator⟩ before = (.ok (), m) ∧
          (rest = [] ∨ ∃ t more, rest = t :: more ∧ m.step t = .error e) ∧
          (env.evaluate code).2 = env.draw (Code.randoms before) := by
  rw [environment_evaluate]
  constructor
  · intro xs value
    rw [Code.carriedOut_of_evaluate (Prod.ext value rfl)]
  · intro e failed
    obtain ⟨rest, m, split, ran, broke⟩ := Code.exists_of_evaluate_error failed
    exact ⟨_, rest, m, split, ran, broke, rfl⟩

end Environment

end Calculator
