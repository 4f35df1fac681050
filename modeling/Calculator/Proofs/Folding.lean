import Calculator.Proofs.Draws

/-!
Code that runs from an empty stack runs on top of any values just the same and never looks below its
own. So a part of code that leaves a number and draws nothing may be replaced by the number.
-/

namespace Calculator.Code

namespace Machine

variable {m n : Machine} {t : Token} {code : List Token}

/-- The machine on top of further values. -/
def above (m : Machine) (below : List Value) : Machine := { m with stack := m.stack ++ below }

theorem popScalar_append {stack rest : List Value} {x : Float}
    (h : popScalar stack = .ok (x, rest)) (below : List Value) :
    popScalar (stack ++ below) = .ok (x, rest ++ below) := by
  rw [eq_of_popScalar h]
  rfl

theorem popScalars_append {count : Nat} {stack rest : List Value}
    {xs : { xs : List Float // xs.length = count }} (h : popScalars count stack = .ok (xs, rest))
    (below : List Value) : popScalars count (stack ++ below) = .ok (xs, rest ++ below) := by
  rw [eq_of_popScalars h, List.append_assoc, popScalars_numbers_append xs.1 _ xs.2]

theorem call_above {name : String} {arity : Nat} (called : m.call name arity = .ok n)
    (below : List Value) : (m.above below).call name arity = .ok (n.above below) := by
  unfold call at called ⊢
  cases known : Builtin.ofName? name with
  | none => rw [known] at called; cases called
  | some f =>
    simp only [known] at called ⊢
    split at called
    · cases called
    split at called
    · cases called
    split at called
    · cases called
    · rename_i fewer more missing
      obtain ⟨⟨args, rest⟩, popped, called⟩ := exists_of_bind called
      cases called
      have enough : ¬ (m.stack ++ below).length < arity := by
        rw [List.length_append]
        omega
      rw [if_neg fewer, if_neg more]
      refine (if_neg enough).trans ?_
      simp only [above, popScalars_append popped, bind, Except.bind]
      rfl

theorem step_above (stepped : m.step t = .ok n) (below : List Value) :
    (m.above below).step t = .ok (n.above below) := by
  cases t with
  | number x => cases stepped; rfl
  | prefixOp c =>
    simp only [step] at stepped ⊢
    split at stepped
    · obtain ⟨⟨x, rest⟩, popped, stepped⟩ := exists_of_bind stepped
      cases stepped
      simp only [above, popScalar_append popped, bind, Except.bind]
      rfl
    · cases stepped
  | binaryOp c =>
    simp only [step] at stepped ⊢
    split at stepped
    · obtain ⟨⟨right, middle⟩, poppedRight, stepped⟩ := exists_of_bind stepped
      obtain ⟨⟨left, rest⟩, poppedLeft, stepped⟩ := exists_of_bind stepped
      cases stepped
      simp only [above, popScalar_append poppedRight, popScalar_append poppedLeft, bind,
        Except.bind]
      rfl
    · cases stepped
  | call name arity => exact call_above stepped below
  | tuple arity =>
    simp only [step] at stepped ⊢
    split at stepped
    · cases stepped
    · rename_i enough
      obtain ⟨⟨xs, rest⟩, popped, stepped⟩ := exists_of_bind stepped
      cases stepped
      have enough : ¬ (m.stack ++ below).length < arity := by
        rw [List.length_append]
        omega
      refine (if_neg enough).trans ?_
      simp only [above, popScalars_append popped, bind, Except.bind]
      rfl
  | leftParen => cases stepped
  | rightParen => cases stepped
  | separator => cases stepped

theorem run_above (ran : m.run code = (.ok (), n)) (below : List Value) :
    (m.above below).run code = (.ok (), n.above below) := by
  induction code generalizing m with
  | nil => cases ran; rfl
  | cons t code ih =>
    rw [run_cons] at ran ⊢
    cases stepped : m.step t with
    | error e => rw [stepped] at ran; cases ran
    | ok next =>
      rw [stepped] at ran
      rw [step_above stepped below]
      exact ih ran

/-- Only a tuple leaves anything but a number. -/
theorem exists_scalar_of_step (single : ∀ arity, t ≠ .tuple arity) (stepped : m.step t = .ok n) :
    ∃ x rest, n.stack = .scalar x :: rest := by
  cases t with
  | number x =>
    cases stepped
    exact ⟨x, m.stack, rfl⟩
  | prefixOp c =>
    simp only [step] at stepped
    split at stepped
    · obtain ⟨operand, _, stepped⟩ := exists_of_bind stepped
      cases stepped
      exact ⟨_, _, rfl⟩
    · cases stepped
  | binaryOp c =>
    simp only [step] at stepped
    split at stepped
    · obtain ⟨right, _, stepped⟩ := exists_of_bind stepped
      obtain ⟨left, _, stepped⟩ := exists_of_bind stepped
      cases stepped
      exact ⟨_, _, rfl⟩
    · cases stepped
  | call name arity =>
    obtain ⟨_, _, _, _, x, rest, _, _, stack⟩ := exists_of_call stepped
    exact ⟨x, rest, stack⟩
  | tuple arity => exact absurd rfl (single arity)
  | leftParen => cases stepped
  | rightParen => cases stepped
  | separator => cases stepped

/-- Code that evaluates to a number without drawing puts that number on top of any values. -/
theorem run_of_evaluate {g g' : Random.Generator} {v : Float} (none : randoms code = 0)
    (last : ∀ arity, code.getLast? ≠ some (.tuple arity)) (value : (evaluate code g).1 = .ok [v])
    (stack : List Value) : run ⟨stack, g'⟩ code = (.ok (), ⟨.scalar v :: stack, g'⟩) := by
  obtain ⟨w, ran, components⟩ := evaluate_eq_ok_iff.mp (Prod.ext value rfl)
  have number : w = .scalar v := by
    cases code using List.reverseRecOn with
    | nil => cases ran
    | append_singleton code t =>
      obtain ⟨middle, _, ends⟩ := exists_of_run_append ran
      have single : ∀ arity, t ≠ .tuple arity := by simpa using last
      obtain ⟨x, rest, stack⟩ :=
        exists_scalar_of_step single (run_singleton_eq_ok_iff.mp ends)
      cases stack
      cases components
      rfl
  have other := run_withGenerator none ⟨[], g⟩ g'
  rw [ran] at other
  rw [number] at other
  exact run_above other stack

end Machine

/-- A run goes on alike where it has come to the same machine. -/
theorem evaluate_congr {p q q' r : List Token} {g : Random.Generator} (some : q ≠ [])
    (some' : q' ≠ []) (same : ∀ m : Machine, m.run q = m.run q') :
    evaluate (p ++ q ++ r) g = evaluate (p ++ q' ++ r) g := by
  have ran : Machine.run ⟨[], g⟩ (p ++ q ++ r) = Machine.run ⟨[], g⟩ (p ++ q' ++ r) := by
    simp only [Machine.run_append, same]
  simp only [evaluate, ran, List.append_eq_nil_iff, some, some', and_false, false_and, if_false]

end Code

/-- Evaluation is compositional. A part of code that evaluates to a number, does not call `random`
and is not a tuple may be folded to the number: whatever the code around it, the components or the
error are the same, and so is the generator that is left. -/
theorem Environment.evaluate_folded (env : Environment) {q : List Token} {v : Float}
    (none : Code.randoms q = 0) (last : ∀ arity, q.getLast? ≠ some (.tuple arity))
    (value : (env.evaluate q).1 = .ok [v]) (user : Environment) (p r : List Token) :
    user.evaluate (p ++ q ++ r) = user.evaluate (p ++ [.number v] ++ r) := by
  have some : q ≠ [] := by
    rintro rfl
    cases value
  have same (m : Code.Machine) : m.run q = m.run [.number v] :=
    Code.Machine.run_of_evaluate none last value m.stack
  rw [evaluate, evaluate, Code.evaluate_congr some (List.cons_ne_nil _ _) same]

/-- The part that is folded is code by itself, but neither it nor the code around has to be that of
any formula. -/
theorem Environment.evaluate_folded_opposite :
    (initial.evaluate [.number 1, .prefixOp '-']).1 = .ok [-1] ∧
      initial.evaluate ([.number 3] ++ [.number 1, .prefixOp '-'] ++ [.tuple 3, .leftParen]) =
        initial.evaluate ([.number 3] ++ [.number (-1)] ++ [.tuple 3, .leftParen]) := by
  have value : (initial.evaluate [.number 1, .prefixOp '-']).1 = .ok [-1] := rfl
  exact ⟨value, evaluate_folded initial rfl (by simp) value initial _ _⟩

end Calculator
