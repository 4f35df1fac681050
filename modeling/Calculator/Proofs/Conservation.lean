import Calculator.Proofs.Arity
import Calculator.Proofs.Remembrance

/-!
Compiling loses, repeats and makes up nothing. Each push sends on tokens that were waiting and emits
a number as it comes, a function when a group is bound to it, or a tuple for a group that has
several arguments and no function.
-/

namespace Calculator

namespace Token

def tuple? : Token → Option Nat
  | tuple n => some n
  | _ => none

/-- The sign, operator or function that a token is, whatever is bound to it. -/
def operation? : Token → Option Token
  | prefixOp c => some (prefixOp c)
  | binaryOp c => some (binaryOp c)
  | call f _ => some (call f 0)
  | _ => none

/-- The tuple for so many values: one value needs none. -/
def several (n : Nat) : List Nat := if 1 < n then [n] else []

/-- The tuples for the groups that close without a function in front to bind to. -/
def tuples : (read : List Token) → List Nat
  | [] => []
  | .rightParen :: read =>
    (if functionWaits 1 0 read then [] else several (valuedArguments read)) ++ tuples read
  | _ :: read => tuples read

end Token

namespace Code

open Token (functionWaits valuedArguments several tuples)

namespace Yard

variable {y z : Yard} {t : Token} {read emitted : List Token}

/-- What a token itself adds to the code, in view of what is in front of it. -/
inductive Emits (read : List Token) : Token → (emitted : List Token) → Prop
  | number (x : Float) : Emits read (.number x) [.number x]
  | call (f : FunctionName) (waits : functionWaits 1 0 read = true) :
    Emits read .rightParen [.call f (valuedArguments read)]
  | packed (none : functionWaits 1 0 read = false) :
    Emits read .rightParen (packed (valuedArguments read))
  | nothing {t : Token} (silent : t.value? = none) (opens : t ≠ .rightParen) : Emits read t []

theorem emits_bound {above below left inside before around : List Token} {g enclosing : Group}
    {outer : List Group} (encloses : Encloses below outer around)
    (describes : g.Describes above inside) (outside : enclosing.Describes left before) :
    Emits (inside ++ .leftParen :: (before ++ around)) .rightParen (bound left g.arity) := by
  have arity : valuedArguments (inside ++ .leftParen :: (before ++ around)) = g.arity := by
    rw [valuedArguments, describes.matched.arguments_opening]
    exact describes.arity
  have waits : functionWaits 1 0 (inside ++ .leftParen :: (before ++ around)) =
      decide (0 < Token.callsOnTop left) := by
    rw [describes.matched.functionWaits_append, functionWaits,
      outside.matched.functionWaits_bottom encloses.opening, outside.waits]
  rw [← arity]
  cases left with
  | nil => exact .packed waits
  | cons t left =>
    cases t with
    | call f claimed => exact .call f (waits.trans (decide_eq_true (Nat.succ_pos _)))
    | _ => exact .packed waits

theorem Remembers.emits (remembers : y.Remembers read) (pushed : y.push t = .ok z) :
    ∃ sent emitted : List Token, (∀ u ∈ sent, u.applies = true) ∧ Emits read t emitted ∧
      z.code = emitted ++ (sent.reverse ++ y.code) := by
  obtain @⟨code, above, below, inside, around, g, outer, encloses, describes, base⟩ := remembers
  cases t with
  | number x =>
    cases pushed
    exact ⟨[], _, by simp, .number x, rfl⟩
  | prefixOp c | call f claimed | leftParen =>
    cases pushed
    exact ⟨[], [], by simp, .nothing rfl (by simp), rfl⟩
  | binaryOp c =>
    obtain ⟨taken, left, rfl, rfl⟩ := exists_of_push_binaryOp encloses.bottom pushed
    have applied (u : Token) (mem : u ∈ taken) := describes.applied u (List.mem_append_left _ mem)
    exact ⟨taken, [], applied, .nothing rfl (by simp), rfl⟩
  | separator =>
    obtain ⟨_, rfl⟩ := of_push_separator base pushed
    exact ⟨above, [], describes.applied, .nothing rfl (by simp), rfl⟩
  | rightParen =>
    cases encloses with
    | formula => cases pushed
    | group encloses outside height =>
      rw [push_rightParen encloses.bottom base] at pushed
      cases pushed
      exact ⟨above, _, describes.applied, emits_bound encloses describes outside, rfl⟩
  | tuple n => cases pushed

theorem delimits_packed (arity : Nat) : ∀ t ∈ packed arity, t.delimits = false := by
  unfold packed
  split <;> simp [Token.delimits]

theorem values_packed (arity : Nat) : (packed arity).filterMap Token.value? = [] := by
  unfold packed
  split <;> rfl

theorem operations_packed (arity : Nat) : (packed arity).filterMap Token.operation? = [] := by
  unfold packed
  split <;> rfl

theorem tuples_packed (arity : Nat) : (packed arity).filterMap Token.tuple? = several arity := by
  unfold packed several
  split <;> rfl

namespace Emits

theorem delimits (emits : Emits read t emitted) : ∀ u ∈ emitted, u.delimits = false := by
  cases emits with
  | number | call | nothing => simp [Token.delimits]
  | packed => exact delimits_packed _

theorem values (emits : Emits read t emitted) :
    emitted.filterMap Token.value? = [t].filterMap Token.value? := by
  cases emits with
  | number => rfl
  | call => rfl
  | packed => exact values_packed _
  | nothing silent => simp [silent]

theorem tuples (emits : Emits read t emitted) :
    emitted.filterMap Token.tuple? ++ tuples read = tuples (t :: read) := by
  cases emits with
  | number => rfl
  | call f waits => simp [Token.tuples, waits, Token.tuple?]
  | packed none =>
    simp only [Token.tuples, none, Bool.false_eq_true, if_false, tuples_packed]
  | nothing _ closes => cases t <;> first | rfl | contradiction

end Emits

theorem filterMap_cons_eq_append {α : Type} (f : Token → Option α) (t : Token) (ts : List Token) :
    (t :: ts).filterMap f = [t].filterMap f ++ ts.filterMap f := by
  rw [← List.filterMap_append, List.singleton_append]

theorem filterMap_eq_nil_of_applies {α : Type} {f : Token → Option α} {waiting : List Token}
    (applied : ∀ t ∈ waiting, t.applies = true) (silent : ∀ t, t.applies = true → f t = none) :
    waiting.filterMap f = [] :=
  List.filterMap_eq_nil_iff.mpr fun t mem => silent t (applied t mem)

theorem value?_of_applies (t : Token) (applies : t.applies = true) : t.value? = none := by
  cases t with
  | prefixOp | binaryOp | call => rfl
  | _ => cases applies

theorem tuple?_of_applies (t : Token) (applies : t.applies = true) : t.tuple? = none := by
  cases t with
  | prefixOp | binaryOp | call => rfl
  | _ => cases applies

theorem operations_of_replaces {dropped waits : List Token}
    (replaces : Replaces t dropped emitted waits) :
    emitted.filterMap Token.operation? ++ waits.filterMap Token.operation? =
      [t].filterMap Token.operation? ++ dropped.filterMap Token.operation? := by
  cases replaces <;> rfl

open List in
/-- Operations are in the code or wait, and none of them gets lost on the way. -/
theorem operations_of_push (pushed : y.push t = .ok z) :
    (z.code ++ z.waiting).filterMap Token.operation? ~
      [t].filterMap Token.operation? ++ (y.code ++ y.waiting).filterMap Token.operation? := by
  obtain ⟨sent, dropped, left, emitted, waits, replaces, before, code, waiting⟩ :=
    exists_of_push pushed
  have same := operations_of_replaces replaces
  rw [code, waiting, before, perm_iff_count]
  intro u
  have count := congrArg (count u) same
  simp only [filterMap_append, filterMap_reverse, count_append, count_reverse] at count ⊢
  omega

/-- The code is that of the tokens so far: no delimiter, the same numbers and the tuples that are
told from the groups, and the same operations together with those that wait. -/
structure Emitted (y : Yard) (read : List Token) : Prop where
  delimits : ∀ t ∈ y.code, t.delimits = false
  values : y.code.filterMap Token.value? = read.filterMap Token.value?
  tuples : y.code.filterMap Token.tuple? = tuples read
  operations :
    ((y.code ++ y.waiting).filterMap Token.operation?).Perm (read.filterMap Token.operation?)

theorem Emitted.push (emitted : y.Emitted read) (remembers : y.Remembers read)
    (pushed : y.push t = .ok z) : z.Emitted (t :: read) := by
  obtain ⟨sent, own, applied, emits, code⟩ := remembers.emits pushed
  constructor
  · simp only [code, List.forall_mem_append]
    refine ⟨emits.delimits, fun u mem => ?_, emitted.delimits⟩
    exact (Token.plain_of_applies (applied u (List.mem_reverse.mp mem))).1
  · rw [code, List.filterMap_append, List.filterMap_append, List.filterMap_reverse,
      filterMap_eq_nil_of_applies applied value?_of_applies, emitted.values, emits.values,
      filterMap_cons_eq_append _ t read]
    rfl
  · rw [code, List.filterMap_append, List.filterMap_append, List.filterMap_reverse,
      filterMap_eq_nil_of_applies applied tuple?_of_applies, emitted.tuples, ← emits.tuples]
    rfl
  · rw [filterMap_cons_eq_append]
    exact (operations_of_push pushed).trans (emitted.operations.append_left _)

theorem emitted_of_run {tokens : List Token} (ran : initial.run tokens = .ok y) :
    y.Remembers tokens.reverse ∧ y.Emitted tokens.reverse := by
  have start : initial.Emitted [] := ⟨by simp [initial], rfl, rfl, .refl _⟩
  refine initial_run_induction (motive := fun y read => y.Remembers read ∧ y.Emitted read)
    ?_ ⟨remembers_initial, start⟩ ran
  intro y z t read both pushed
  exact ⟨both.1.push pushed, both.2.push both.1 pushed⟩

end Yard

open Yard in
/-- What compiles is conserved: the code has no parenthesis and no separator, the numbers are the
same in the same order, and the signs, operators and functions are the same ones. All else that is
in it are tuples, one for each group of several values that is not bound to a function and one for
the formula itself if it has several, each of the size of its group. -/
theorem conserved_of_ofTokens {tokens code : List Token} (compiled : ofTokens tokens = .ok code) :
    (∀ t ∈ code, t ≠ .leftParen ∧ t ≠ .rightParen ∧ t ≠ .separator) ∧
      code.filterMap Token.value? = tokens.filterMap Token.value? ∧
      (code.filterMap Token.operation?).Perm (tokens.filterMap Token.operation?) ∧
      code.filterMap Token.tuple? =
        (tuples tokens.reverse).reverse ++ several (valuedArguments tokens.reverse) ∧
      ∀ n, .tuple n ∈ code → 2 ≤ n := by
  obtain ⟨y, ran, finished⟩ := ofTokens_eq_ok_iff.mp compiled
  obtain ⟨closed, _, rfl, _⟩ := finish_eq_ok_iff.mp finished
  obtain ⟨remembers, emitted⟩ := emitted_of_run ran
  have applied := remembers.applies closed
  have delimits : ∀ t ∈ y.code.reverse ++ y.waiting ++ packed y.group.arity,
      t.delimits = false := by
    simp only [List.forall_mem_append, List.mem_reverse]
    exact ⟨⟨emitted.delimits, fun t mem => (Token.plain_of_applies (applied t mem)).1⟩,
      delimits_packed _⟩
  have sizes : (y.code.reverse ++ y.waiting ++ packed y.group.arity).filterMap Token.tuple? =
      (tuples tokens.reverse).reverse ++ several (valuedArguments tokens.reverse) := by
    rw [List.filterMap_append, List.filterMap_append, List.filterMap_reverse, emitted.tuples,
      filterMap_eq_nil_of_applies applied tuple?_of_applies, tuples_packed, remembers.arity,
      List.append_nil]
  refine ⟨?_, ?_, ?_, sizes, ?_⟩
  · intro t mem
    have plain := delimits t mem
    cases t with
    | leftParen | rightParen | separator => cases plain
    | _ => simp
  · rw [List.filterMap_append, List.filterMap_append, List.filterMap_reverse, emitted.values,
      filterMap_eq_nil_of_applies applied value?_of_applies, values_packed, List.append_nil,
      List.append_nil, List.filterMap_reverse, List.reverse_reverse]
  · have operations := emitted.operations
    rw [List.filterMap_reverse, List.perm_iff_count] at operations
    rw [List.perm_iff_count]
    intro u
    have count := operations u
    simp only [List.filterMap_append, List.filterMap_reverse, List.count_append,
      List.count_reverse, operations_packed, List.count_nil] at count ⊢
    omega
  · intro n mem
    exact one_lt_of_mem_ofTokens compiled mem

-- In `sin 2 (3)` the group is bound to the function, though there is a number in between.
example : ofTokens [.call Builtin.sin.name 0, .number 2, .leftParen, .number 3, .rightParen] =
    .ok [.number 2, .number 3, .call Builtin.sin.name 1] := rfl

section Nested

/-- The tokens of `max((1, 2), -3), 4`. -/
def nested : List Token :=
  [.call Builtin.max.name 0, .leftParen, .leftParen, .number 1, .separator, .number 2, .rightParen,
    .separator, .prefixOp '-', .number 3, .rightParen, .separator, .number 4]

/-- The group in the arguments and the formula itself are tuples, the arguments are not. -/
theorem conserved_of_ofTokens_nested :
    ∃ code, ofTokens nested = .ok code ∧ code.filterMap Token.value? = [1, 2, 3, 4] ∧
      code.filterMap Token.tuple? = [2, 2] ∧
      (code.filterMap Token.operation?).Perm [.call Builtin.max.name 0, .prefixOp '-'] := by
  have compiled : ofTokens nested = .ok
      [.number 1, .number 2, .tuple 2, .number 3, .prefixOp '-', .call Builtin.max.name 2,
        .number 4, .tuple 2] := rfl
  obtain ⟨_, values, operations, sizes, _⟩ := conserved_of_ofTokens compiled
  exact ⟨_, compiled, values, sizes, operations⟩

end Nested

end Code

end Calculator
