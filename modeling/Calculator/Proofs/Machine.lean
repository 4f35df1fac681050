import Calculator.Formula
import Mathlib.Data.List.Induction

/-!
Laws of the machine. Code runs piece by piece, numbers come off the stack in source order, and a
run that succeeds changes the height of the stack by a sum that is read off the code.
-/

namespace Calculator.Code

namespace Machine

theorem run_cons (m : Machine) (t : Token) (rest : List Token) :
    m.run (t :: rest) =
      match m.step t with
      | .error e => (.error e, m)
      | .ok m => m.run rest := rfl

theorem run_append (m : Machine) (p q : List Token) :
    m.run (p ++ q) =
      match m.run p with
      | (.error e, m) => (.error e, m)
      | (.ok (), m) => m.run q := by
  induction p generalizing m with
  | nil => rfl
  | cons t p ih =>
    simp only [List.cons_append, run_cons]
    cases m.step t with
    | error e => rfl
    | ok m => exact ih m

theorem run_append_ok {m n : Machine} {p : List Token} (h : m.run p = (.ok (), n))
    (q : List Token) : m.run (p ++ q) = n.run q := by
  rw [run_append, h]

theorem run_append_error {m n : Machine} {p : List Token} {e : Error}
    (h : m.run p = (.error e, n)) (q : List Token) : m.run (p ++ q) = (.error e, n) := by
  rw [run_append, h]

theorem exists_of_run_append {m n : Machine} {p q : List Token}
    (h : m.run (p ++ q) = (.ok (), n)) :
    ∃ middle, m.run p = (.ok (), middle) ∧ middle.run q = (.ok (), n) := by
  rw [run_append] at h
  cases first : m.run p with
  | mk r middle =>
    rw [first] at h
    cases r with
    | error e => cases h
    | ok u => exact ⟨middle, rfl, h⟩

/-- The stack of some numbers, in source order. -/
def numbers (xs : List Float) : List Value := (xs.map .scalar).reverse

theorem length_numbers (xs : List Float) : (numbers xs).length = xs.length := by
  simp [numbers]

theorem numbers_append_singleton (xs : List Float) (x : Float) :
    numbers (xs ++ [x]) = .scalar x :: numbers xs := by
  simp [numbers]

theorem exists_of_numbers_eq_cons {xs : List Float} {v : Value} {stack : List Value}
    (h : numbers xs = v :: stack) :
    ∃ (ys : List Float) (y : Float), xs = ys ++ [y] ∧ v = .scalar y ∧ stack = numbers ys := by
  cases xs using List.reverseRecOn with
  | nil => cases h
  | append_singleton ys y =>
    rw [numbers_append_singleton] at h
    cases h
    exact ⟨ys, y, rfl, rfl, rfl⟩

theorem popScalars_numbers_append (xs : List Float) (stack : List Value) {n : Nat}
    (length : xs.length = n) :
    popScalars n (numbers xs ++ stack) = .ok (⟨xs, length⟩, stack) := by
  induction xs using List.reverseRecOn generalizing n with
  | nil => subst length; rfl
  | append_singleton xs x ih =>
    cases n with
    | zero => simp at length
    | succ n =>
      have shorter : xs.length = n := by simpa using length
      simp only [numbers_append_singleton, List.cons_append, popScalars, popScalar, bind,
        Except.bind, ih shorter]

/-- A tuple among the values that are asked for is refused when it is reached. -/
theorem popScalars_tuple (xs ys : List Float) (stack : List Value) {n : Nat}
    (short : xs.length < n) :
    popScalars n (numbers xs ++ .tuple ys :: stack) = .error (.operand (.tuple ys.length)) := by
  induction xs using List.reverseRecOn generalizing n with
  | nil =>
    cases n with
    | zero => simp at short
    | succ n => rfl
  | append_singleton xs x ih =>
    cases n with
    | zero => simp at short
    | succ n =>
      have shorter : xs.length < n := by simpa using short
      simp only [numbers_append_singleton, List.cons_append, popScalars, popScalar, bind,
        Except.bind, ih shorter]

theorem eq_of_popScalar {stack rest : List Value} {x : Float}
    (h : popScalar stack = .ok (x, rest)) : stack = .scalar x :: rest := by
  cases stack with
  | nil => cases h
  | cons v stack =>
    cases v with
    | scalar y => cases h; rfl
    | tuple ys => cases h

theorem exists_of_bind {α β : Type} {x : Except Error α} {f : α → Except Error β} {b : β}
    (h : x.bind f = .ok b) : ∃ a, x = .ok a ∧ f a = .ok b := by
  cases x with
  | error e => cases h
  | ok a => exact ⟨a, rfl, h⟩

theorem error_of_bind {α β : Type} {x : Except Error α} {f : α → Except Error β} {e : Error}
    (h : x.bind f = .error e) : x = .error e ∨ ∃ a, x = .ok a ∧ f a = .error e := by
  cases x with
  | error e' =>
    cases h
    exact .inl rfl
  | ok a => exact .inr ⟨a, rfl, h⟩

theorem eq_of_popScalars {n : Nat} {stack rest : List Value}
    {xs : { xs : List Float // xs.length = n }} (h : popScalars n stack = .ok (xs, rest)) :
    stack = numbers xs.1 ++ rest := by
  induction n generalizing stack rest with
  | zero =>
    cases h
    rfl
  | succ n ih =>
    obtain ⟨⟨x, middle⟩, first, h⟩ := exists_of_bind h
    obtain ⟨⟨ys, bottom⟩, others, h⟩ := exists_of_bind h
    cases h
    rw [eq_of_popScalar first, ih others, numbers_append_singleton]
    rfl

/-- A call that succeeds has the function's number of arguments and puts one number in the place of
theirs. -/
theorem exists_of_call {m n : Machine} {name : String} {arity : Nat}
    (h : m.call name arity = .ok n) :
    ∃ f, Builtin.ofName? name = some f ∧ arity = f.arity ∧
      ∃ (xs : List Float) (x : Float) (rest : List Value), xs.length = arity ∧
        m.stack = numbers xs ++ rest ∧ n.stack = .scalar x :: rest := by
  unfold call at h
  cases known : Builtin.ofName? name with
  | none => rw [known] at h; cases h
  | some f =>
    simp only [known] at h
    split at h
    · cases h
    split at h
    · cases h
    split at h
    · cases h
    · have exact : arity = f.arity := by omega
      obtain ⟨⟨args, rest⟩, popped, h⟩ := exists_of_bind h
      cases h
      refine ⟨f, rfl, exact, args.1, _, rest, args.2.trans exact.symm, ?_, rfl⟩
      exact eq_of_popScalars popped

/-- What a token adds to the height of the stack. -/
def rise : Token → Int
  | .number _ => 1
  | .binaryOp _ => -1
  | .call _ arity | .tuple arity => 1 - arity
  | _ => 0

def balance : List Token → Int
  | [] => 0
  | t :: code => rise t + balance code

theorem balance_append (p q : List Token) : balance (p ++ q) = balance p + balance q := by
  induction p with
  | nil => simp [balance]
  | cons t p ih =>
    simp only [List.cons_append, balance, ih]
    omega

theorem balance_eq_of_perm {p q : List Token} (perm : p.Perm q) : balance p = balance q := by
  induction perm with
  | nil => rfl
  | cons t _ ih => simp only [balance, ih]
  | swap t u p =>
    simp only [balance]
    omega
  | trans _ _ first second => exact first.trans second

/-- How many numbers a token takes off the stack. -/
def takes : Token → Nat
  | .prefixOp _ => 1
  | .binaryOp _ => 2
  | .call _ arity | .tuple arity => arity
  | _ => 0

/-- How many components the value has that a token leaves. -/
def leaves : Token → Nat
  | .tuple arity => arity
  | _ => 1

/-- A token that is carried out puts one value in the place of the numbers it takes. -/
theorem exists_of_step {m n : Machine} {t : Token} (h : m.step t = .ok n) :
    ∃ (xs : List Float) (v : Value) (rest : List Value), xs.length = takes t ∧
      m.stack = numbers xs ++ rest ∧ n.stack = v :: rest ∧ v.arity = leaves t ∧
      rise t = 1 - takes t := by
  cases t with
  | number x =>
    cases h
    exact ⟨[], .scalar x, m.stack, rfl, rfl, rfl, rfl, rfl⟩
  | prefixOp c =>
    simp only [step] at h
    split at h
    · obtain ⟨⟨x, rest⟩, popped, h⟩ := exists_of_bind h
      cases h
      exact ⟨[x], _, rest, rfl, eq_of_popScalar popped, rfl, rfl, rfl⟩
    · cases h
  | binaryOp c =>
    simp only [step] at h
    split at h
    · obtain ⟨⟨right, middle⟩, poppedRight, h⟩ := exists_of_bind h
      obtain ⟨⟨left, rest⟩, poppedLeft, h⟩ := exists_of_bind h
      cases h
      have below : middle = .scalar left :: rest := eq_of_popScalar poppedLeft
      have stack : m.stack = .scalar right :: middle := eq_of_popScalar poppedRight
      exact ⟨[left, right], _, rest, rfl, by rw [stack, below]; rfl, rfl, rfl, rfl⟩
    · cases h
  | call name arity =>
    obtain ⟨f, _, _, xs, x, rest, length, before, after⟩ := exists_of_call h
    exact ⟨xs, .scalar x, rest, length, before, after, rfl, rfl⟩
  | tuple arity =>
    simp only [step] at h
    split at h
    · cases h
    · obtain ⟨⟨xs, rest⟩, popped, h⟩ := exists_of_bind h
      cases h
      exact ⟨xs.1, .tuple xs.1, rest, xs.2, eq_of_popScalars popped, rfl, xs.2, rfl⟩
  | leftParen => cases h
  | rightParen => cases h
  | separator => cases h

theorem length_of_step {m n : Machine} {t : Token} (h : m.step t = .ok n) :
    (n.stack.length : Int) = m.stack.length + rise t := by
  obtain ⟨xs, v, rest, length, before, after, _, rise⟩ := exists_of_step h
  rw [before, after, rise, List.length_append, length_numbers, List.length_cons, length]
  omega

/-- Code that runs to its end has changed the height of the stack by its balance, and calls no
function with a number of arguments that is not the function's. -/
theorem length_of_run {m n : Machine} {code : List Token} (h : m.run code = (.ok (), n)) :
    (n.stack.length : Int) = m.stack.length + balance code ∧
      ∀ name arity, .call name arity ∈ code →
        ∃ f, Builtin.ofName? name.text = some f ∧ arity = f.arity := by
  induction code generalizing m with
  | nil =>
    cases h
    simp [balance]
  | cons t code ih =>
    rw [run_cons] at h
    cases stepped : m.step t with
    | error e => rw [stepped] at h; cases h
    | ok next =>
      rw [stepped] at h
      obtain ⟨height, calls⟩ := ih h
      refine ⟨?_, ?_⟩
      · rw [height, length_of_step stepped, balance, Int.add_assoc]
      · intro name arity mem
        rcases List.mem_cons.mp mem with rfl | mem
        · obtain ⟨f, known, exact, _⟩ := exists_of_call stepped
          exact ⟨f, known, exact⟩
        · exact calls name arity mem

theorem run_singleton_eq_ok_iff {m n : Machine} {t : Token} :
    m.run [t] = (.ok (), n) ↔ m.step t = .ok n := by
  rw [run_cons]
  cases m.step t with
  | error e => simp
  | ok next => simp [run]

section Numbers

variable {m n : Machine} {g : Random.Generator}

theorem popScalars_numbers (xs : List Float) {arity : Nat} (length : xs.length = arity) :
    popScalars arity (numbers xs) = .ok (⟨xs, length⟩, []) := by
  rw [← List.append_nil (numbers xs)]
  exact popScalars_numbers_append xs [] length

theorem step_tuple_numbers (xs : List Float) :
    step ⟨numbers xs, g⟩ (.tuple xs.length) = .ok ⟨[.tuple xs], g⟩ := by
  have high : ¬ (numbers xs).length < xs.length := by simp [length_numbers]
  simp only [step, if_neg high, popScalars_numbers xs rfl, bind, Except.bind]

theorem exists_of_step_call_numbers {f : Builtin} {xs : List Float} (exact : xs.length = f.arity) :
    ∃ x g', step ⟨numbers xs, g⟩ (.call f.name xs.length) = .ok ⟨[.scalar x], g'⟩ := by
  have high : ¬ (numbers xs).length < f.arity := by simp [length_numbers, exact]
  refine ⟨(f.apply xs exact g).1, (f.apply xs exact g).2, ?_⟩
  simp only [step, call, Builtin.ofName?_name, exact, Nat.lt_irrefl, if_false, if_neg high,
    popScalars_numbers xs exact, bind, Except.bind]

theorem eq_numbers_of_append {xs : List Float} {stack rest : List Value}
    (h : stack = numbers xs ++ rest) (length : stack.length = xs.length) : stack = numbers xs := by
  have none : rest = [] := by
    rw [h, List.length_append, length_numbers] at length
    exact List.length_eq_zero_iff.mp (by omega)
  rw [h, none, List.append_nil]

theorem exists_numbers_of_step_tuple {arity : Nat} (length : m.stack.length = arity)
    (h : m.step (.tuple arity) = .ok n) : ∃ xs : List Float, m.stack = numbers xs := by
  simp only [step] at h
  split at h
  · cases h
  · obtain ⟨⟨xs, rest⟩, popped, _⟩ := exists_of_bind h
    exact ⟨xs.1, eq_numbers_of_append (eq_of_popScalars popped) (length.trans xs.2.symm)⟩

theorem exists_numbers_of_step_call {name : FunctionName} {arity : Nat}
    (length : m.stack.length = arity) (h : m.step (.call name arity) = .ok n) :
    ∃ (f : Builtin) (xs : List Float), Builtin.ofName? name.text = some f ∧ f.arity = arity ∧
      m.stack = numbers xs := by
  obtain ⟨f, known, exact, xs, x, rest, count, stack, _⟩ := exists_of_call h
  exact ⟨f, xs, known, exact.symm, eq_numbers_of_append stack (length.trans count.symm)⟩

end Numbers

end Machine

theorem evaluate_eq_ok_iff {code : List Token} {xs : List Float} {g g' : Random.Generator} :
    evaluate code g = (.ok xs, g') ↔
      ∃ v : Value, Machine.run ⟨[], g⟩ code = (.ok (), ⟨[v], g'⟩) ∧ v.components = xs := by
  constructor
  · intro h
    unfold evaluate at h
    split at h
    · cases h
    · cases ran : Machine.run ⟨[], g⟩ code with
      | mk result m =>
        rw [ran] at h
        cases result with
        | error e => cases h
        | ok u =>
          obtain ⟨stack, generator⟩ := m
          simp only [Machine.result, Prod.mk.injEq] at h
          obtain ⟨single, rfl⟩ := h
          split at single
          · rename_i v
            cases single
            exact ⟨v, rfl, rfl⟩
          · cases single
  · rintro ⟨v, ran, rfl⟩
    have some : code ≠ [] := by
      rintro rfl
      cases ran
    simp only [evaluate, if_neg some, ran, Machine.result]

end Calculator.Code

namespace Calculator

theorem Environment.interpret_result (env : Environment) (text : String) :
    (env.interpret text).1 = (Token.ofText env text).bind fun tokens =>
      (Code.ofTokens tokens).bind fun code => (env.evaluate code).1 := by
  unfold Environment.interpret
  cases Token.ofText env text with
  | error e => rfl
  | ok tokens =>
    simp only [Except.bind]
    cases Code.ofTokens tokens with
    | error e => rfl
    | ok code => rfl

theorem Environment.interpret_eq_ok_iff {env env' : Environment} {text : String}
    {xs : List Float} :
    env.interpret text = (.ok xs, env') ↔
      ∃ tokens code, Token.ofText env text = .ok tokens ∧ Code.ofTokens tokens = .ok code ∧
        Code.evaluate code env.generator = (.ok xs, env'.generator) ∧
        env' = { env with generator := env'.generator } := by
  constructor
  · intro h
    unfold Environment.interpret at h
    cases read : Token.ofText env text with
    | error e => simp [read, Except.bind] at h
    | ok tokens =>
      cases compiled : Code.ofTokens tokens with
      | error e => simp [read, compiled, Except.bind] at h
      | ok code =>
        simp only [read, compiled, Except.bind, Environment.evaluate, Prod.mk.injEq] at h
        obtain ⟨value, rfl⟩ := h
        exact ⟨tokens, code, rfl, compiled, Prod.ext value rfl, rfl⟩
  · rintro ⟨tokens, code, read, compiled, value, env'_eq⟩
    rw [Environment.interpret, read, Except.bind, compiled]
    simp only [Environment.evaluate, value]
    rw [← env'_eq]

end Calculator
