import Calculator.Formula
import Calculator.Proofs.Machine
import Calculator.Proofs.Tree

/-!
The machine does with the code of a tree what the tree means, on any stack: the same value or the
same first error, and the same random numbers drawn.
-/

namespace Calculator.Tree

open Code

variable {α β : Type}

theorem bind_apply (x : Evaluation α) (f : α → Evaluation β) (g : Random.Generator) :
    (x >>= f) g =
      match x g with
      | (.error e, g) => (.error e, g)
      | (.ok a, g) => f a g := by
  simp only [bind, ExceptT.bind, ExceptT.mk, StateT.bind]
  cases x g with
  | mk r g =>
    cases r with
    | error e => rfl
    | ok a => rfl

theorem exists_of_bind_apply {x : Evaluation α} {f : α → Evaluation β} {g g' : Random.Generator}
    {b : β} (h : (x >>= f) g = (.ok b, g')) :
    ∃ a middle, x g = (.ok a, middle) ∧ f a middle = (.ok b, g') := by
  rw [bind_apply] at h
  cases first : x g with
  | mk r middle =>
    rw [first] at h
    cases r with
    | error e => cases h
    | ok a => exact ⟨a, middle, rfl, h⟩

theorem pure_apply (a : α) (g : Random.Generator) : (pure a : Evaluation α) g = (.ok a, g) := rfl

theorem lift_apply (r : Except Error α) (g : Random.Generator) :
    (liftM r : Evaluation α) g = (r, g) := rfl

/-- Run on this machine, code leaves values on the stack that was there, or breaks off, and leaves
the generator. -/
def RunsTo (m : Machine) (code : List Token) :
    Except Error (List Value) × Random.Generator → Prop
  | (.ok vs, g) => m.run code = (.ok (), ⟨vs.reverse ++ m.stack, g⟩)
  | (.error e, g) => ∃ stack, m.run code = (.error e, ⟨stack, g⟩)

def single (r : Except Error Value × Random.Generator) :
    Except Error (List Value) × Random.Generator := (r.1.map fun v => [v], r.2)

namespace RunsTo

variable {m : Machine} {p q : List Token} {t : Token} {vs ws : List Value} {v : Value} {e : Error}
  {g g' : Random.Generator}

theorem append (first : RunsTo m p (.ok vs, g))
    (second : RunsTo ⟨vs.reverse ++ m.stack, g⟩ q (.ok ws, g')) :
    RunsTo m (p ++ q) (.ok (vs ++ ws), g') := by
  simp only [RunsTo] at first second ⊢
  rw [Machine.run_append_ok first, second]
  simp

theorem append_error (first : RunsTo m p (.ok vs, g))
    (second : RunsTo ⟨vs.reverse ++ m.stack, g⟩ q (.error e, g')) :
    RunsTo m (p ++ q) (.error e, g') := by
  obtain ⟨stack, second⟩ := second
  exact ⟨stack, by rw [Machine.run_append_ok first, second]⟩

theorem error (first : RunsTo m p (.error e, g)) (q : List Token) :
    RunsTo m (p ++ q) (.error e, g) := by
  obtain ⟨stack, first⟩ := first
  exact ⟨stack, Machine.run_append_error first q⟩

theorem token (first : RunsTo m p (.ok vs, g))
    (step : Machine.step ⟨vs.reverse ++ m.stack, g⟩ t = .ok ⟨v :: m.stack, g'⟩) :
    RunsTo m (p ++ [t]) (.ok [v], g') := by
  simp only [RunsTo] at first ⊢
  rw [Machine.run_append_ok first, Machine.run_cons, step]
  rfl

theorem token_error (first : RunsTo m p (.ok vs, g))
    (step : Machine.step ⟨vs.reverse ++ m.stack, g⟩ t = .error e) :
    RunsTo m (p ++ [t]) (.error e, g) := by
  refine ⟨vs.reverse ++ m.stack, ?_⟩
  rw [Machine.run_append_ok first, Machine.run_cons, step]

end RunsTo

theorem popScalars_of_scalars {vs : List Value} {xs : List Float} (numbers : scalars vs = .ok xs)
    (stack : List Value) {n : Nat} (length : xs.length = n) :
    Machine.popScalars n (vs.reverse ++ stack) = .ok (⟨xs, length⟩, stack) := by
  rw [eq_map_of_scalars numbers]
  exact Machine.popScalars_numbers_append xs stack length

theorem popScalars_of_error {vs : List Value} {e : Error} (refused : scalars vs = .error e)
    (stack : List Value) {n : Nat} (length : vs.length = n) :
    Machine.popScalars n (vs.reverse ++ stack) = .error e := by
  rcases scalars_or_last_tuple vs with ⟨xs, rfl⟩ | ⟨us, ys, xs, rfl⟩
  · rw [scalars_map_scalar] at refused
    cases refused
  · rw [scalars_tuple] at refused
    cases refused
    have short : xs.length < n := by
      simp at length
      omega
    simpa [Machine.numbers] using Machine.popScalars_tuple xs ys (us.reverse ++ stack) short

theorem runsTo_tuple {m : Machine} {p : List Token} {vs : List Value} {g : Random.Generator}
    (items : RunsTo m p (.ok vs, g)) :
    RunsTo m (p ++ [.tuple vs.length]) (single ((scalars vs).map .tuple, g)) := by
  have high : ¬ (vs.reverse ++ m.stack).length < vs.length := by simp
  cases numbers : scalars vs with
  | error e =>
    apply items.token_error
    simp only [Machine.step, if_neg high, popScalars_of_error numbers m.stack rfl, bind,
      Except.bind]
  | ok xs =>
    apply items.token
    have length : xs.length = vs.length := by rw [eq_map_of_scalars numbers, List.length_map]
    simp only [Machine.step, if_neg high, popScalars_of_scalars numbers m.stack length, bind,
      Except.bind]

theorem runsTo_call {m : Machine} {p : List Token} {vs : List Value} {g : Random.Generator}
    (name : FunctionName) (args : RunsTo m p (.ok vs, g)) :
    RunsTo m (p ++ [.call name vs.length]) (single (applied name vs g)) := by
  have high : ¬ (vs.reverse ++ m.stack).length < vs.length := by simp
  have step : Machine.step ⟨vs.reverse ++ m.stack, g⟩ (.call name vs.length) =
      Machine.call ⟨vs.reverse ++ m.stack, g⟩ name.text vs.length := rfl
  cases known : Builtin.ofName? name.text with
  | none =>
    simp only [applied, known]
    apply args.token_error
    simp only [step, Machine.call, known]
  | some f =>
    simp only [applied, known]
    split
    · rename_i fewer
      apply args.token_error
      simp only [step, Machine.call, known, if_pos fewer]
    · rename_i fewer
      split
      · rename_i more
        apply args.token_error
        simp only [step, Machine.call, known, if_neg fewer, if_pos more]
      · rename_i more
        have called : Machine.call ⟨vs.reverse ++ m.stack, g⟩ name.text vs.length =
            (Machine.popScalars f.arity (vs.reverse ++ m.stack)).bind fun r =>
              .ok ⟨.scalar (f.apply r.1.1 r.1.2 g).1 :: r.2, (f.apply r.1.1 r.1.2 g).2⟩ := by
          simp only [Machine.call, known, if_neg fewer, if_neg more, if_neg high]
          rfl
        have exact : vs.length = f.arity := by omega
        split
        · rename_i e numbers
          apply args.token_error
          rw [step, called, popScalars_of_error numbers m.stack exact]
          rfl
        · rename_i xs numbers
          apply args.token
          have length : xs.length = f.arity := by
            rw [eq_map_of_scalars numbers, List.length_map] at exact
            exact exact
          rw [step, called, popScalars_of_scalars numbers m.stack length]
          rfl

theorem step_prefixOp (s : Sign) (v : Value) (stack : List Value) (g : Random.Generator) :
    Machine.step ⟨v :: stack, g⟩ (.prefixOp s.symbol) =
      (scalar v).map fun x => ⟨.scalar (s.apply x) :: stack, g⟩ := by
  simp only [Machine.step, Sign.signOfSymbol?_symbol]
  cases v with
  | scalar x => rfl
  | tuple xs => rfl

theorem step_binaryOp (op : Operator) (v w : Value) (stack : List Value) (g : Random.Generator) :
    Machine.step ⟨w :: v :: stack, g⟩ (.binaryOp op.symbol) =
      (scalar w).bind fun y => (scalar v).map fun x => ⟨.scalar (op.apply x y) :: stack, g⟩ := by
  simp only [Machine.step, Operator.ofSymbol?_symbol]
  cases w with
  | tuple ys => rfl
  | scalar y =>
    cases v with
    | tuple xs => rfl
    | scalar x => rfl

theorem length_evalAll (ts : List Tree) {g g' : Random.Generator} {vs : List Value}
    (h : evalAll ts g = (.ok vs, g')) : vs.length = ts.length := by
  induction ts generalizing g vs with
  | nil =>
    cases h
    rfl
  | cons t ts ih =>
    obtain ⟨v, g₁, _, h⟩ := exists_of_bind_apply h
    obtain ⟨ws, g₂, others, h⟩ := exists_of_bind_apply h
    cases h
    rw [List.length_cons, List.length_cons, ih others]

mutual

/-- The code of a tree does what the tree means, on top of any stack. -/
theorem runsTo_code (t : Tree) (m : Machine) : RunsTo m t.code (single (t.eval m.generator)) := by
  cases t with
  | number x =>
    simp only [code, eval, pure_apply]
    rfl
  | sign s t =>
    have operand := runsTo_code t m
    simp only [code, eval, bind_apply, pure_apply, lift_apply]
    cases first : t.eval m.generator with
    | mk r g =>
      rw [first] at operand
      cases r with
      | error e => exact operand.error _
      | ok v =>
        cases v with
        | tuple xs => exact operand.token_error (step_prefixOp s _ _ g)
        | scalar x => exact operand.token (step_prefixOp s _ _ g)
  | binary op l r =>
    have left := runsTo_code l m
    simp only [code, eval, bind_apply, pure_apply, lift_apply]
    cases first : l.eval m.generator with
    | mk result g =>
      rw [first] at left
      cases result with
      | error e => exact (left.error _).error _
      | ok v =>
        have right := runsTo_code r ⟨v :: m.stack, g⟩
        simp only at right ⊢
        cases second : r.eval g with
        | mk result g =>
          rw [second] at right
          cases result with
          | error e => exact (left.append_error right).error _
          | ok w =>
            have both : RunsTo m (l.code ++ r.code) (.ok [v, w], g) := left.append right
            have step := step_binaryOp op v w m.stack g
            -- The right operand is taken off first, so of two tuples it is the one refused.
            cases w with
            | tuple ys => exact both.token_error step
            | scalar y =>
              cases v with
              | tuple xs => exact both.token_error step
              | scalar x => exact both.token step
  | call name args =>
    have all := runsTo_codes args m
    simp only [code, eval, bind_apply]
    cases evaluated : evalAll args m.generator with
    | mk result g =>
      rw [evaluated] at all
      cases result with
      | error e => exact all.error _
      | ok vs =>
        rw [← length_evalAll args evaluated]
        exact runsTo_call name all
  | tuple items =>
    have all := runsTo_codes items m
    simp only [code, eval, bind_apply, pure_apply, lift_apply]
    cases evaluated : evalAll items m.generator with
    | mk result g =>
      rw [evaluated] at all
      cases result with
      | error e => exact all.error _
      | ok vs =>
        have packed := runsTo_tuple all
        rw [← length_evalAll items evaluated]
        simp only
        cases numbers : scalars vs with
        | error e => rw [numbers] at packed; exact packed
        | ok xs => rw [numbers] at packed; exact packed

theorem runsTo_codes (ts : List Tree) (m : Machine) :
    RunsTo m (codes ts) (evalAll ts m.generator) := by
  cases ts with
  | nil => rfl
  | cons t ts =>
    have head := runsTo_code t m
    simp only [codes, evalAll, bind_apply, pure_apply]
    cases first : t.eval m.generator with
    | mk r g =>
      rw [first] at head
      cases r with
      | error e => exact head.error _
      | ok v =>
        have tail := runsTo_codes ts ⟨v :: m.stack, g⟩
        simp only at tail ⊢
        cases others : evalAll ts g with
        | mk r g =>
          rw [others] at tail
          cases r with
          | error e => exact head.append_error tail
          | ok vs => exact head.append tail

end

/-- A tree's code has the tree's value or first error, and draws what the tree draws. -/
theorem evaluate_code (env : Environment) (t : Tree) :
    env.evaluate t.code =
      ((t.eval env.generator).1.map Value.components,
        { env with generator := (t.eval env.generator).2 }) := by
  have runs := runsTo_code t ⟨[], env.generator⟩
  simp only [Environment.evaluate, Code.evaluate, if_neg t.code_ne_nil]
  simp only at runs
  cases evaluated : t.eval env.generator with
  | mk result g =>
    rw [evaluated] at runs
    cases result with
    | error e =>
      obtain ⟨stack, broke⟩ := runs
      rw [broke]
      rfl
    | ok v =>
      have ended : Machine.run ⟨[], env.generator⟩ t.code = (.ok (), ⟨[v], g⟩) := runs
      rw [ended]
      rfl

theorem exists_of_run_code {t : Tree} {m n : Machine} (h : m.run t.code = (.ok (), n)) :
    ∃ v, t.eval m.generator = (.ok v, n.generator) ∧ n.stack = v :: m.stack := by
  have runs := runsTo_code t m
  cases evaluated : t.eval m.generator with
  | mk result g =>
    rw [evaluated] at runs
    cases result with
    | error e =>
      obtain ⟨stack, broke⟩ := runs
      rw [h] at broke
      cases broke
    | ok v =>
      have ended : m.run t.code = (.ok (), ⟨v :: m.stack, g⟩) := runs
      rw [h] at ended
      cases ended
      exact ⟨v, rfl, rfl⟩

theorem scalar_eq_ok {v : Value} {x : Float} (h : scalar v = .ok x) : v = .scalar x := by
  cases v with
  | scalar y => cases h; rfl
  | tuple ys => cases h

theorem exists_of_applied {name : FunctionName} {vs : List Value} {v : Value}
    {g g' : Random.Generator} (h : applied name vs g = (.ok v, g')) :
    ∃ (xs : List Float) (x : Float), scalars vs = .ok xs ∧ v = .scalar x := by
  unfold applied at h
  split at h
  · cases h
  · split at h
    · cases h
    · split at h
      · cases h
      · split at h
        · cases h
        · rename_i xs numbers
          cases h
          exact ⟨xs, _, numbers, rfl⟩

/-- A number comes from a tree without tuples, and a tuple from a tuple of such trees. -/
def HasShape (t : Tree) : Value → Prop
  | .scalar _ => t.tuples = 0
  | .tuple xs => ∃ items, t = .tuple items ∧ tuplesOfAll items = 0 ∧ xs.length = items.length

mutual

theorem hasShape_of_eval (t : Tree) {v : Value} {g g' : Random.Generator}
    (h : t.eval g = (.ok v, g')) : t.HasShape v := by
  cases t with
  | number x =>
    cases h
    rfl
  | sign s t =>
    obtain ⟨w, g₁, operand, h⟩ := exists_of_bind_apply h
    obtain ⟨x, g₂, number, h⟩ := exists_of_bind_apply h
    cases h
    cases scalar_eq_ok (congrArg Prod.fst number)
    exact hasShape_of_eval t operand
  | binary op l r =>
    obtain ⟨v, g₁, left, h⟩ := exists_of_bind_apply h
    obtain ⟨w, g₂, right, h⟩ := exists_of_bind_apply h
    obtain ⟨y, g₃, numberRight, h⟩ := exists_of_bind_apply h
    obtain ⟨x, g₄, numberLeft, h⟩ := exists_of_bind_apply h
    cases h
    cases scalar_eq_ok (congrArg Prod.fst numberRight)
    cases scalar_eq_ok (congrArg Prod.fst numberLeft)
    have noneLeft : l.tuples = 0 := hasShape_of_eval l left
    have noneRight : r.tuples = 0 := hasShape_of_eval r right
    simp only [HasShape, tuples, noneLeft, noneRight]
  | call name args =>
    obtain ⟨vs, g₁, evaluated, h⟩ := exists_of_bind_apply h
    obtain ⟨xs, x, numbers, rfl⟩ := exists_of_applied h
    exact tuplesOfAll_of_evalAll args evaluated numbers
  | tuple items =>
    obtain ⟨vs, g₁, evaluated, h⟩ := exists_of_bind_apply h
    obtain ⟨xs, g₂, numbers, h⟩ := exists_of_bind_apply h
    cases h
    have numbers : scalars vs = .ok xs := congrArg Prod.fst numbers
    refine ⟨items, rfl, tuplesOfAll_of_evalAll items evaluated numbers, ?_⟩
    rw [← length_evalAll items evaluated, eq_map_of_scalars numbers, List.length_map]

theorem tuplesOfAll_of_evalAll (ts : List Tree) {vs : List Value} {xs : List Float}
    {g g' : Random.Generator} (h : evalAll ts g = (.ok vs, g')) (numbers : scalars vs = .ok xs) :
    tuplesOfAll ts = 0 := by
  cases ts with
  | nil => rfl
  | cons t ts =>
    obtain ⟨v, g₁, first, h⟩ := exists_of_bind_apply h
    obtain ⟨ws, g₂, others, h⟩ := exists_of_bind_apply h
    cases h
    obtain ⟨ys, numbersRest, numbers⟩ := Code.Machine.exists_of_bind numbers
    obtain ⟨x, number, _⟩ := Code.Machine.exists_of_bind numbers
    cases scalar_eq_ok number
    have none : t.tuples = 0 := hasShape_of_eval t first
    rw [tuplesOfAll, none, tuplesOfAll_of_evalAll ts others numbersRest]

end

end Calculator.Tree
