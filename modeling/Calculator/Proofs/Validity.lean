import Calculator.Proofs.Faults
import Mathlib.Algebra.GroupWithZero.Nat

/-!
Code that can be evaluated, told by counting. Every token leaves one value in the place of its
operands, so how many values there are at any point is a number that is read off the code. What
evaluates is the code that never asks for more, ends with one and packs a tuple only at its end: a
tuple that is packed before is neither an operand nor the result.
-/

namespace Calculator.Code

open Machine (takes numbers)

/-- How many values the tokens leave: each adds one and takes its operands away. -/
def depth (code : List Token) : Int := code.length - (code.map takes).sum

/-- Code whose tokens are all known and find their operands. -/
structure Runnable (code : List Token) : Prop where
  executable : ∀ t ∈ code, t.Executable
  arity : ∀ name n, .call name n ∈ code → ∃ f, Builtin.ofName? name.text = some f ∧ n = f.arity
  operands : ∀ p t q, code = p ++ t :: q → takes t ≤ depth p

/-- Runnable code that leaves a single value and packs a tuple at its end if at all. -/
structure Valid (code : List Token) : Prop extends Runnable code where
  some : code ≠ []
  tuple_last : ∀ p n q, code = p ++ .tuple n :: q → q = []
  single : depth code = 1

theorem depth_append (p q : List Token) : depth (p ++ q) = depth p + depth q := by
  simp only [depth, List.length_append, List.map_append, List.sum_append]
  omega

theorem depth_singleton (t : Token) : depth [t] = 1 - takes t := by
  simp [depth]

theorem Runnable.of_append {p q : List Token} (runnable : Runnable (p ++ q)) : Runnable p where
  executable t mem := runnable.executable t (List.mem_append_left q mem)
  arity name n mem := runnable.arity name n (List.mem_append_left q mem)
  operands r t s split := runnable.operands r t (s ++ q) (by rw [split]; simp)

namespace Machine

variable {m n : Machine} {t : Token} {code : List Token}

theorem executable_of_step (h : m.step t = .ok n) : t.Executable := by
  cases t with
  | number x => trivial
  | tuple arity => trivial
  | prefixOp c =>
    simp only [step] at h
    split at h
    · rename_i rule known
      exact Option.isSome_of_mem known
    · cases h
  | binaryOp c =>
    simp only [step] at h
    split at h
    · rename_i op known
      exact Option.isSome_of_mem known
    · cases h
  | call name arity =>
    obtain ⟨f, known, _⟩ := exists_of_call h
    exact Option.isSome_of_mem known
  | leftParen => cases h
  | rightParen => cases h
  | separator => cases h

theorem depth_of_run (h : m.run code = (.ok (), n)) :
    (n.stack.length : Int) = m.stack.length + depth code := by
  induction code using List.reverseRecOn generalizing n with
  | nil =>
    cases h
    simp [depth]
  | append_singleton code t ih =>
    obtain ⟨middle, ran, last⟩ := exists_of_run_append h
    obtain ⟨xs, v, rest, count, before, after, _⟩ :=
      exists_of_step (run_singleton_eq_ok_iff.mp last)
    have height := ih ran
    rw [before, List.length_append, length_numbers, count] at height
    rw [after, List.length_cons, depth_append, depth_singleton]
    omega

/-- Code that runs from the empty stack finds all that it asks for. -/
theorem runnable_of_run {g : Random.Generator} (h : run ⟨[], g⟩ code = (.ok (), n)) :
    Runnable code := by
  have stepped (p : List Token) (t : Token) (q : List Token) (whole : code = p ++ t :: q) :
      ∃ m next : Machine, run ⟨[], g⟩ p = (.ok (), m) ∧ m.step t = .ok next := by
    rw [whole, ← List.singleton_append, ← List.append_assoc] at h
    obtain ⟨next, ran, _⟩ := exists_of_run_append h
    obtain ⟨m, first, last⟩ := exists_of_run_append ran
    exact ⟨m, next, first, run_singleton_eq_ok_iff.mp last⟩
  refine ⟨?_, (length_of_run h).2, ?_⟩
  · intro t mem
    obtain ⟨p, q, whole⟩ := List.append_of_mem mem
    obtain ⟨m, next, _, step⟩ := stepped p t q whole
    exact executable_of_step step
  · intro p t q whole
    obtain ⟨m, next, ran, step⟩ := stepped p t q whole
    obtain ⟨xs, v, rest, count, stack, _⟩ := exists_of_step step
    have height := depth_of_run ran
    rw [stack, List.length_append, length_numbers, count] at height
    simp only [List.length_nil] at height
    omega

theorem tuple_not_mem_numbers (xs ys : List Float) : .tuple ys ∉ numbers xs := by
  simp [numbers]

/-- A tuple is no operand: whatever is done on top of it leaves it where it is. -/
theorem tuple_mem_tail_of_step {ys : List Float} (packed : .tuple ys ∈ m.stack)
    (h : m.step t = .ok n) : .tuple ys ∈ n.stack.tail := by
  obtain ⟨xs, v, rest, _, before, after, _⟩ := exists_of_step h
  rw [before] at packed
  rw [after, List.tail_cons]
  exact (List.mem_append.mp packed).resolve_left (tuple_not_mem_numbers xs ys)

theorem tuple_mem_tail_of_run {ys : List Float} (packed : .tuple ys ∈ m.stack)
    (some : code ≠ []) (h : m.run code = (.ok (), n)) : .tuple ys ∈ n.stack.tail := by
  induction code using List.reverseRecOn generalizing n with
  | nil => exact absurd rfl some
  | append_singleton code t ih =>
    obtain ⟨middle, ran, last⟩ := exists_of_run_append h
    refine tuple_mem_tail_of_step ?_ (run_singleton_eq_ok_iff.mp last)
    by_cases first : code = []
    · subst first
      cases ran
      exact packed
    · exact List.mem_of_mem_tail (ih first ran)

theorem tuple_last_of_run {g : Random.Generator} {v : Value}
    (h : run ⟨[], g⟩ code = (.ok (), n)) (single : n.stack = [v]) {p q : List Token} {k : Nat}
    (whole : code = p ++ .tuple k :: q) : q = [] := by
  by_contra more
  rw [whole, ← List.singleton_append, ← List.append_assoc] at h
  obtain ⟨m, packed, ran⟩ := exists_of_run_append h
  obtain ⟨before, _, last⟩ := exists_of_run_append packed
  have step := run_singleton_eq_ok_iff.mp last
  simp only [Machine.step] at step
  split at step
  · cases step
  · obtain ⟨⟨xs, rest⟩, _, step⟩ := exists_of_bind step
    cases step
    have below := tuple_mem_tail_of_run List.mem_cons_self more ran
    rw [single] at below
    cases below

/-- A token that is known finds its operands among numbers, and leaves a number unless it packs a
tuple. -/
theorem exists_step_numbers (executable : t.Executable)
    (arity : ∀ name k, t = .call name k → ∃ f, Builtin.ofName? name.text = some f ∧ k = f.arity)
    (xs ys : List Float) (count : ys.length = takes t) (g : Random.Generator) :
    ∃ v g', step ⟨numbers (xs ++ ys), g⟩ t = .ok ⟨v :: numbers xs, g'⟩ ∧
      ((∀ k, t ≠ .tuple k) → ∃ x, v = .scalar x) := by
  have stack : numbers (xs ++ ys) = numbers ys ++ numbers xs := by simp [numbers]
  rw [stack]
  cases t with
  | number x =>
    have none : ys = [] := List.length_eq_zero_iff.mp count
    subst none
    exact ⟨.scalar x, g, rfl, fun _ => ⟨x, rfl⟩⟩
  | prefixOp c =>
    obtain ⟨y, rfl⟩ := List.length_eq_one_iff.mp count
    obtain ⟨rule, known⟩ := Option.isSome_iff_exists.mp executable
    refine ⟨.scalar (rule y), g, ?_, fun _ => ⟨_, rfl⟩⟩
    simp only [step, known]
    rfl
  | binaryOp c =>
    obtain ⟨left, right, rfl⟩ := List.length_eq_two.mp count
    obtain ⟨op, known⟩ := Option.isSome_iff_exists.mp executable
    refine ⟨.scalar (op.apply left right), g, ?_, fun _ => ⟨_, rfl⟩⟩
    simp only [step, known]
    rfl
  | call name k =>
    obtain ⟨f, known, exact⟩ := arity name k rfl
    subst exact
    have length : ys.length = f.arity := count
    have high : ¬ (numbers ys ++ numbers xs).length < f.arity := by
      rw [List.length_append, length_numbers]
      omega
    refine ⟨.scalar (f.apply ys length g).1, (f.apply ys length g).2, ?_, fun _ => ⟨_, rfl⟩⟩
    simp only [step, call, known, Nat.lt_irrefl, if_false, if_neg high,
      popScalars_numbers_append ys (numbers xs) length, bind, Except.bind]
  | tuple k =>
    have length : ys.length = k := count
    have high : ¬ (numbers ys ++ numbers xs).length < k := by
      rw [List.length_append, length_numbers]
      omega
    refine ⟨.tuple ys, g, ?_, fun plain => absurd rfl (plain k)⟩
    simp only [step, if_neg high, popScalars_numbers_append ys (numbers xs) length, bind,
      Except.bind]
  | leftParen => exact executable.elim
  | rightParen => exact executable.elim
  | separator => exact executable.elim

/-- The operands that runnable code asks for next are the last of the numbers that it has left. -/
theorem exists_step_of_runnable {xs : List Float} (runnable : Runnable (code ++ [t]))
    (height : (xs.length : Int) = depth code) (g : Random.Generator) :
    ∃ (ys : List Float) (v : Value) (g' : Random.Generator),
      step ⟨numbers xs, g⟩ t = .ok ⟨v :: numbers ys, g'⟩ ∧
        (ys.length : Int) + 1 = depth (code ++ [t]) ∧
        ((∀ k, t ≠ .tuple k) → ∃ x, v = .scalar x) := by
  have last : t ∈ code ++ [t] := by simp
  have enough := runnable.operands code t [] rfl
  have arity (name : FunctionName) (k : Nat) (same : t = .call name k) :
      ∃ f, Builtin.ofName? name.text = some f ∧ k = f.arity :=
    runnable.arity name k (same ▸ last)
  have count : (xs.drop (xs.length - takes t)).length = takes t := by
    rw [List.length_drop]
    omega
  obtain ⟨v, g', stepped, plain⟩ := exists_step_numbers (runnable.executable t last) arity
    (xs.take (xs.length - takes t)) _ count g
  rw [List.take_append_drop] at stepped
  refine ⟨_, v, g', stepped, ?_, plain⟩
  rw [List.length_take, depth_append, depth_singleton]
  omega

/-- Runnable code that packs no tuple runs to its end and leaves numbers. -/
theorem exists_numbers_of_runnable (runnable : Runnable code) (plain : ∀ k, .tuple k ∉ code)
    (g : Random.Generator) :
    ∃ (xs : List Float) (g' : Random.Generator),
      run ⟨[], g⟩ code = (.ok (), ⟨numbers xs, g'⟩) ∧ (xs.length : Int) = depth code := by
  induction code using List.reverseRecOn with
  | nil => exact ⟨[], g, rfl, rfl⟩
  | append_singleton code t ih =>
    have first : ∀ k, .tuple k ∉ code := fun k mem => plain k (List.mem_append_left [t] mem)
    obtain ⟨xs, g₁, ran, height⟩ := ih runnable.of_append first
    obtain ⟨ys, v, g₂, stepped, height, scalar⟩ := exists_step_of_runnable runnable height g₁
    obtain ⟨x, rfl⟩ := scalar fun k same => plain k (by simp [same])
    refine ⟨ys ++ [x], g₂, ?_, ?_⟩
    · rw [run_append_ok ran, numbers_append_singleton]
      exact run_singleton_eq_ok_iff.mpr stepped
    · rw [List.length_append, ← height]
      rfl

end Machine

theorem Valid.tuple_not_mem {code : List Token} {t : Token} (valid : Valid (code ++ [t]))
    (k : Nat) :
    .tuple k ∉ code := by
  intro mem
  obtain ⟨p, q, rfl⟩ := List.append_of_mem mem
  have last := valid.tuple_last p k (q ++ [t]) (by simp)
  simp at last

theorem exists_run_of_valid {code : List Token} (valid : Valid code) (g : Random.Generator) :
    ∃ (v : Value) (g' : Random.Generator), Machine.run ⟨[], g⟩ code = (.ok (), ⟨[v], g'⟩) := by
  cases code using List.reverseRecOn with
  | nil => exact absurd rfl valid.some
  | append_singleton code t =>
    obtain ⟨xs, g₁, ran, height⟩ :=
      Machine.exists_numbers_of_runnable valid.toRunnable.of_append valid.tuple_not_mem g
    obtain ⟨ys, v, g₂, stepped, height, _⟩ :=
      Machine.exists_step_of_runnable valid.toRunnable height g₁
    have none : ys = [] := by
      have single := valid.single
      exact List.length_eq_zero_iff.mp (by omega)
    subst none
    refine ⟨v, g₂, ?_⟩
    rw [Machine.run_append_ok ran]
    exact Machine.run_singleton_eq_ok_iff.mpr stepped

theorem valid_of_run {code : List Token} {v : Value} {g g' : Random.Generator}
    (h : Machine.run ⟨[], g⟩ code = (.ok (), ⟨[v], g'⟩)) : Valid code where
  toRunnable := Machine.runnable_of_run h
  some := by
    rintro rfl
    cases h
  tuple_last _ _ _ whole := Machine.tuple_last_of_run h rfl whole
  single := by simpa using (Machine.depth_of_run h).symm

end Calculator.Code

namespace Calculator

/-- Code has a value in one environment or another exactly when it is valid, which is a matter of
its tokens alone: no number in it matters and none that is drawn. -/
theorem Environment.exists_evaluate_iff_valid (env : Environment) (code : List Token) :
    (∃ xs, (env.evaluate code).1 = .ok xs) ↔ Code.Valid code := by
  constructor
  · rintro ⟨xs, value⟩
    obtain ⟨v, ran, _⟩ := Code.evaluate_eq_ok_iff.mp (Prod.ext value rfl)
    exact Code.valid_of_run ran
  · intro valid
    obtain ⟨v, g, ran⟩ := Code.exists_run_of_valid valid env.generator
    have value := Code.evaluate_eq_ok_iff.mpr ⟨v, ran, rfl⟩
    exact ⟨v.components, congrArg Prod.fst value⟩

end Calculator
