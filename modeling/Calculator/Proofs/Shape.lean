import Calculator.Proofs.Machine
import Calculator.Proofs.Reading
import Calculator.Proofs.Yard

/-!
What does not depend on numbers. A shape is what is left of tokens, code or values without their
numbers. Reading, compiling and running take inputs of one shape to outputs of one shape, or fail
with one error; of the variables only the names matter.
-/

namespace Calculator

section Agree

variable {α β γ : Type} {x : Except Error α} {y : Except Error β} {f : α → γ} {g : β → γ}
  (same : x.map f = y.map g)

include same

theorem eq_error_of_map_eq {e : Error} (h : x = .error e) : y = .error e := by
  subst h
  cases y with
  | error e' =>
    cases same
    rfl
  | ok b => cases same

theorem exists_ok_of_map_eq {a : α} (h : x = .ok a) : ∃ b, y = .ok b ∧ f a = g b := by
  subst h
  cases y with
  | error e => cases same
  | ok b => exact ⟨b, rfl, Except.ok.inj same⟩

/-- Results that agree up to what two functions forget: one error, or two values. -/
theorem error_or_ok_of_map_eq :
    (∃ e, x = .error e ∧ y = .error e) ∨ ∃ a b, x = .ok a ∧ y = .ok b ∧ f a = g b := by
  cases result : x with
  | error e => exact .inl ⟨e, rfl, eq_error_of_map_eq same result⟩
  | ok a =>
    obtain ⟨b, result', agree⟩ := exists_ok_of_map_eq same result
    exact .inr ⟨a, b, rfl, result', agree⟩

/-- Two computations go on alike from results that agree, if what follows does. -/
theorem map_bind_eq {α' β' γ' : Type} {h : α → Except Error α'} {k : β → Except Error β'}
    {f' : α' → γ'} {g' : β' → γ'} (after : ∀ a b, f a = g b → (h a).map f' = (k b).map g') :
    (x.bind h).map f' = (y.bind k).map g' := by
  rcases error_or_ok_of_map_eq same with ⟨e, rfl, rfl⟩ | ⟨a, b, rfl, rfl, agree⟩
  · rfl
  · exact after a b agree

end Agree

/-- Variables of the same names, with whatever values. -/
def Environment.SameNames (env env' : Environment) : Prop :=
  ∀ name, (env.lookup name).isSome = (env'.lookup name).isSome

/-- A variable that is there can be given another value. -/
theorem Environment.sameNames_of_set {env env' : Environment} {name : String} {value : Float}
    {before : Option Float} (known : (env.lookup name).isSome)
    (h : env.set name value = .ok (before, env')) : env.SameNames env' := by
  unfold set at h
  split at h
  · cases h
    intro other
    simp only [lookup, Std.TreeMap.getElem?_insert]
    split
    · rename_i same
      rw [← Std.LawfulEqCmp.eq_of_compare same]
      exact known
    · rfl
  · cases h

namespace Token

/-- The token without its number. -/
def shape : Token → Token
  | number _ => number 0
  | t => t

def shapes (tokens : List Token) : List Token := tokens.map shape

theorem eq_or_number_of_shape_eq {t u : Token} (same : t.shape = u.shape) :
    t = u ∨ ∃ x y, t = number x ∧ u = number y := by
  cases t with
  | number x =>
    cases u with
    | number y => exact .inr ⟨x, y, rfl, rfl⟩
    | _ => cases same
  | _ =>
    cases u with
    | number y => cases same
    | _ => exact .inl same

section Reading

variable {env env' : Environment} {emitted emitted' : Emitted}

theorem kind_shape (t : Token) : t.shape.kind = t.kind := by
  cases t <;> rfl

theorem endsValue_shapes (tokens : List Token) :
    endsValue (shapes tokens).head? = endsValue tokens.head? := by
  cases tokens with
  | nil => rfl
  | cons t rest => exact congrArg TokenKind.endsValue (kind_shape t)

theorem expectsOperand_shapes (tokens : List Token) :
    expectsOperand (shapes tokens).head? = expectsOperand tokens.head? := by
  cases tokens with
  | nil => rfl
  | cons t rest => exact congrArg TokenKind.expectsOperand (kind_shape t)

theorem shapes_emit (emitted : Emitted) (t : Token) :
    shapes (emit emitted t) = emit (shapes emitted) t.shape := by
  -- Signs and products depend on the kind of the token before, which its shape keeps.
  by_cases operator : ∃ c, t = binaryOp c
  · obtain ⟨c, rfl⟩ := operator
    have sign : isSign (shapes emitted) c = isSign emitted c := by
      rw [Bool.eq_iff_iff, isSign_iff, isSign_iff, expectsOperand_shapes]
    simp only [shape, emit_binaryOp, sign]
    split
    · rfl
    · rfl
  · have other : ∀ c, t ≠ binaryOp c := fun c hc => operator ⟨c, hc⟩
    have other' : ∀ c, t.shape ≠ binaryOp c := by
      intro c
      cases t with
      | binaryOp d => exact absurd rfl (other d)
      | _ => simp [shape]
    rw [emit_of_ne_binaryOp other, emit_of_ne_binaryOp other', endsValue_shapes, kind_shape]
    split
    · rfl
    · rfl

theorem shapes_emit_eq (same : shapes emitted = shapes emitted') {t t' : Token}
    (token : t.shape = t'.shape) : shapes (emit emitted t) = shapes (emit emitted' t') := by
  rw [shapes_emit, shapes_emit, same, token]

variable (names : env.SameNames env')

include names

theorem shape_ofName (name : String) :
    (ofName env name).map shape = (ofName env' name).map shape := by
  have bound := names name
  unfold ofName
  cases value : env.lookup name with
  | none =>
    cases value' : env'.lookup name with
    | none => rfl
    | some x => rw [value, value'] at bound; cases bound
  | some x =>
    cases value' : env'.lookup name with
    | none => rw [value, value'] at bound; cases bound
    | some y => rfl

theorem shapes_emitRun (run : List Char) (same : shapes emitted = shapes emitted') :
    (emitRun env emitted run).map shapes = (emitRun env' emitted' run).map shapes := by
  fun_induction emitRun env emitted run generalizing emitted' with
  | case1 =>
    rw [emitRun_nil]
    exact congrArg Except.ok same
  | case2 emitted run _ literal rest found ih =>
    rw [emitRun_literal found]
    exact ih (shapes_emit_eq same rfl)
  | case3 emitted run some unread letters =>
    rw [emitRun_unreadable some unread letters]
  | case4 emitted run _ unread c cs letters e unknown =>
    rw [emitRun_letters unread letters, eq_error_of_map_eq (shape_ofName names _) unknown]
  | case5 emitted run _ unread c cs letters t known ih =>
    obtain ⟨t', known', token⟩ := exists_ok_of_map_eq (shape_ofName names _) known
    rw [emitRun_letters unread letters, known']
    exact ih (shapes_emit_eq same token)

omit names in
theorem shapes_emitBoundary (c : Char) (same : shapes emitted = shapes emitted') :
    shapes (emitBoundary emitted c) = shapes (emitBoundary emitted' c) := by
  unfold emitBoundary
  split
  · exact shapes_emit_eq same rfl
  split
  · exact shapes_emit_eq same rfl
  split
  · exact shapes_emit_eq same rfl
  split
  · exact same
  · exact shapes_emit_eq same rfl

theorem shapes_scan (run rest : List Char) (same : shapes emitted = shapes emitted') :
    (scan env emitted run rest).map shapes = (scan env' emitted' run rest).map shapes := by
  induction rest generalizing emitted emitted' run with
  | nil => exact shapes_emitRun names run.reverse same
  | cons c rest ih =>
    simp only [scan]
    split
    · rcases error_or_ok_of_map_eq (shapes_emitRun names run.reverse same) with
        ⟨e, left, right⟩ | ⟨flushed, flushed', left, right, same⟩
      · rw [left, right]
      · rw [left, right]
        exact ih [] (shapes_emitBoundary c same)
    · exact ih (c :: run) same

theorem shapes_ofText (text : String) :
    (ofText env text).map shapes = (ofText env' text).map shapes := by
  have start : shapes ([] : Emitted) = shapes [] := rfl
  unfold ofText
  rcases error_or_ok_of_map_eq (shapes_scan names [] text.toList start) with
    ⟨e, left, right⟩ | ⟨last, last', left, right, same⟩
  · rw [left, right]
  · rw [left, right]
    have reversed := congrArg List.reverse same
    simpa [Except.map, shapes] using reversed

end Reading

end Token

namespace Code

open Token (shapes)

namespace Yard

/-- The yard without the numbers in it. -/
def shape (y : Yard) : Yard := { y with code := shapes y.code, waiting := shapes y.waiting }

theorem shape_drain (y : Yard) (base : Nat) : (y.drain base).shape = y.shape.drain base := by
  simp [drain, shape, shapes, List.map_take, List.map_drop]

theorem yields_shape (op : Operator) (t : Token) : yields op t.shape = yields op t := by
  cases t <;> rfl

/-- What a group comes to depends on the token under its parenthesis only by whether that is the name
of a function. -/
theorem shape_close (y : Yard) : y.shape.close = y.close.map shape := by
  obtain ⟨code, waiting, group, outer⟩ := y
  cases outer with
  | nil => rfl
  | cons enclosing outer =>
    simp only [close, shape, drain, shapes, List.length_map, ← List.map_drop, ← List.map_take,
      ← List.map_reverse, ← List.map_append]
    cases waiting.drop (waiting.length - group.base) with
    | nil => rfl
    | cons top below =>
      cases top with
      | leftParen =>
        by_cases several : 1 < group.arity
        · simp only [if_pos several]
          rcases below with _ | ⟨_ | _, below⟩ <;> rfl
        · by_cases none : group.arity = 0
          · simp only [if_neg several, if_pos none]
            rcases below with _ | ⟨_ | _, below⟩ <;> rfl
          · simp only [if_neg several, if_neg none]
            rcases below with _ | ⟨_ | _, below⟩ <;> rfl
      | _ => rfl

theorem shape_push (y : Yard) (t : Token) : y.shape.push t.shape = (y.push t).map shape := by
  cases t with
  | number x => rfl
  | prefixOp c => rfl
  | call f claimed => rfl
  | tuple n => rfl
  | leftParen => simp [push, shape, shapes, Token.shape, Except.map]
  | rightParen => exact shape_close y
  | separator =>
    simp only [push, separate, Token.shape]
    split
    · rename_i value
      rw [if_pos (by exact value)]
      have drained := shape_drain y y.group.base
      simp only [Except.map, shape] at drained ⊢
      rw [← drained]
    · rename_i value
      rw [if_neg (by exact value)]
      rfl
  | binaryOp c =>
    simp only [push, binary, Token.shape]
    cases Operator.ofSymbol? c with
    | none => rfl
    | some op =>
      have same : yields op ∘ Token.shape = yields op := funext (yields_shape op)
      simp only [shape, shapes, List.takeWhile_map, List.dropWhile_map, same, Except.map,
        List.map_append, List.map_reverse, List.map_cons]
      rfl

theorem shape_run (y : Yard) (ts : List Token) :
    y.shape.run (shapes ts) = (y.run ts).map shape := by
  induction ts generalizing y with
  | nil => rfl
  | cons t ts ih =>
    simp only [shapes, List.map_cons, run_cons, shape_push]
    cases y.push t with
    | error e => rfl
    | ok z => exact ih z

theorem shape_finish (y : Yard) : y.shape.finish = y.finish.map shapes := by
  have parens : (shapes y.waiting).any isParen = y.waiting.any isParen := by
    have same : isParen ∘ Token.shape = isParen := by
      funext t
      cases t <;> rfl
    simp only [shapes, List.any_map, same]
  have drained : (shapes y.waiting).reverse ++ shapes y.code =
      shapes (y.waiting.reverse ++ y.code) := by
    simp only [shapes, List.map_append, List.map_reverse]
  simp only [finish, shape, parens, drained]
  split
  · rfl
  split
  · rfl
  · by_cases several : 1 < y.group.arity
    · simp [several, shapes, Except.map, Token.shape]
    · cases y.waiting.reverse ++ y.code with
      | nil => simp [several, shapes, Except.map]
      | cons t code => simp [several, shapes, Except.map]

end Yard

theorem shapes_ofTokens (tokens : List Token) :
    ofTokens (shapes tokens) = (ofTokens tokens).map shapes := by
  cases tokens with
  | nil => rfl
  | cons t rest =>
    have ran := Yard.shape_run .initial (t :: rest)
    have some : shapes (t :: rest) ≠ [] := by simp [shapes]
    have start : Yard.initial.shape = .initial := rfl
    rw [start] at ran
    rw [ofTokens, if_neg some, ran, ofTokens, if_neg (List.cons_ne_nil t rest)]
    cases Yard.initial.run (t :: rest) with
    | error e => rfl
    | ok y => exact y.shape_finish

theorem resultArity_shapes (code : List Token) : resultArity (shapes code) = resultArity code := by
  simp only [resultArity, shapes, List.getLast?_map]
  cases code.getLast? with
  | none => rfl
  | some t => cases t <;> rfl

theorem shapes_ofTokens_eq {tokens tokens' : List Token} (same : shapes tokens = shapes tokens') :
    (ofTokens tokens).map shapes = (ofTokens tokens').map shapes := by
  rw [← shapes_ofTokens, ← shapes_ofTokens, same]

theorem resultArity_eq_of_shapes_eq {p q : List Token} (same : shapes p = shapes q) :
    resultArity p = resultArity q := by
  rw [← resultArity_shapes, ← resultArity_shapes q, same]

/-- What a value shows to the checks for operands: for a tuple the number of its components. -/
def Value.shape : Value → Option Nat
  | scalar _ => none
  | tuple xs => some xs.length

theorem Value.arity_eq_of_shape_eq {v w : Value} (same : v.shape = w.shape) : v.arity = w.arity := by
  cases v with
  | scalar x =>
    cases w with
    | scalar y => rfl
    | tuple ys => cases same
  | tuple xs =>
    cases w with
    | scalar y => cases same
    | tuple ys => exact Option.some.inj same

namespace Machine

def shapes (stack : List Value) : List (Option Nat) := stack.map Value.shape

def shape (m : Machine) : List (Option Nat) := shapes m.stack

section Stack

variable {stack stack' : List Value} (same : shapes stack = shapes stack')

include same

theorem shapes_popScalar :
    (popScalar stack).map (fun popped => shapes popped.2) =
      (popScalar stack').map fun popped => shapes popped.2 := by
  cases stack with
  | nil =>
    cases stack' with
    | nil => rfl
    | cons w rest' => cases same
  | cons v rest =>
    cases stack' with
    | nil => cases same
    | cons w rest' =>
      obtain ⟨value, others⟩ := List.cons.inj same
      cases v with
      | scalar x =>
        cases w with
        | scalar y => exact congrArg Except.ok others
        | tuple ys => cases value
      | tuple xs =>
        cases w with
        | scalar y => cases value
        | tuple ys =>
          have length : xs.length = ys.length := Option.some.inj value
          simp only [popScalar, length, Except.map]

theorem shapes_popScalars (count : Nat) :
    (popScalars count stack).map (fun popped => shapes popped.2) =
      (popScalars count stack').map fun popped => shapes popped.2 := by
  induction count generalizing stack stack' with
  | zero => exact congrArg Except.ok same
  | succ count ih =>
    refine map_bind_eq (shapes_popScalar same) ?_
    intro popped popped' below
    refine map_bind_eq (ih below) ?_
    intro others others' below
    exact congrArg Except.ok below

theorem length_eq_of_shapes_eq : stack.length = stack'.length := by
  have length := congrArg List.length same
  simpa [shapes] using length

end Stack

section Run

variable {m n : Machine}

theorem shape_scalar {x y : Float} {g g' : Random.Generator} {stack stack' : List Value}
    (below : shapes stack = shapes stack') :
    shape ⟨.scalar x :: stack, g⟩ = shape ⟨.scalar y :: stack', g'⟩ :=
  congrArg (none :: ·) below

theorem shape_call (name : String) (arity : Nat) (same : m.shape = n.shape) :
    (m.call name arity).map shape = (n.call name arity).map shape := by
  simp only [call]
  cases Builtin.ofName? name with
  | none => rfl
  | some f =>
    simp only [length_eq_of_shapes_eq same]
    split
    · rfl
    split
    · rfl
    split
    · rfl
    · refine map_bind_eq (shapes_popScalars same f.arity) ?_
      intro args args' below
      exact congrArg Except.ok (shape_scalar below)

theorem shape_step {t u : Token} (same : m.shape = n.shape) (token : t.shape = u.shape) :
    (m.step t).map shape = (n.step u).map shape := by
  rcases Token.eq_or_number_of_shape_eq token with rfl | ⟨x, y, rfl, rfl⟩
  · cases t with
    | number x => exact congrArg Except.ok (shape_scalar same)
    | prefixOp c =>
      simp only [step]
      cases Operator.signOfSymbol? c with
      | none => rfl
      | some rule =>
        refine map_bind_eq (shapes_popScalar same) ?_
        intro operand operand' below
        exact congrArg Except.ok (shape_scalar below)
    | binaryOp c =>
      simp only [step]
      cases Operator.ofSymbol? c with
      | none => rfl
      | some op =>
        refine map_bind_eq (shapes_popScalar same) ?_
        intro right right' below
        refine map_bind_eq (shapes_popScalar below) ?_
        intro left left' below
        exact congrArg Except.ok (shape_scalar below)
    | call name arity => exact shape_call name.text arity same
    | tuple arity =>
      simp only [step, length_eq_of_shapes_eq same]
      split
      · rfl
      · refine map_bind_eq (shapes_popScalars same arity) ?_
        intro components components' below
        have lengths : components.1.1.length = components'.1.1.length :=
          components.1.2.trans components'.1.2.symm
        have tops : (Value.tuple components.1).shape = (Value.tuple components'.1).shape :=
          congrArg some lengths
        exact congrArg Except.ok (congrArg₂ List.cons tops below)
    | leftParen => rfl
    | rightParen => rfl
    | separator => rfl
  · exact congrArg Except.ok (shape_scalar same)

theorem shape_run {p q : List Token} (same : m.shape = n.shape)
    (code : Token.shapes p = Token.shapes q) :
    (m.run p).1 = (n.run q).1 ∧ (m.run p).2.shape = (n.run q).2.shape := by
  induction p generalizing m n q with
  | nil =>
    cases q with
    | nil => exact ⟨rfl, same⟩
    | cons u q => cases code
  | cons t p ih =>
    cases q with
    | nil => cases code
    | cons u q =>
      obtain ⟨token, rest⟩ := List.cons.inj code
      rw [run_cons, run_cons]
      rcases error_or_ok_of_map_eq (shape_step same token) with
        ⟨e, left, right⟩ | ⟨next, next', left, right, after⟩
      · -- A step that fails leaves both machines as they are.
        rw [left, right]
        exact ⟨rfl, same⟩
      · rw [left, right]
        exact ih after rest

theorem length_result (same : m.shape = n.shape) :
    m.result.map List.length = n.result.map List.length := by
  obtain ⟨stack, g⟩ := m
  obtain ⟨stack', g'⟩ := n
  have length := length_eq_of_shapes_eq same
  match stack, stack' with
  | [], [] => rfl
  | [v], [w] =>
    have value : v.shape = w.shape := (List.cons.inj same).1
    exact congrArg Except.ok (Value.arity_eq_of_shape_eq value)
  | v :: v' :: rest, w :: w' :: rest' => simp only [result, length]

end Run

end Machine

/-- Code that differs in numbers fails with one error or has results of one size. -/
theorem length_evaluate {p q : List Token} (same : shapes p = shapes q)
    (g g' : Random.Generator) :
    (evaluate p g).1.map List.length = (evaluate q g').1.map List.length := by
  have start : Machine.shape ⟨[], g⟩ = Machine.shape ⟨[], g'⟩ := rfl
  cases p with
  | nil =>
    cases q with
    | nil => rfl
    | cons u q => cases same
  | cons t p =>
    cases q with
    | nil => cases same
    | cons u q =>
      obtain ⟨outcome, left⟩ := Machine.shape_run start same
      simp only [evaluate, if_neg (List.cons_ne_nil _ _)]
      cases ran : Machine.run ⟨[], g⟩ (t :: p) with
      | mk r m =>
        cases ran' : Machine.run ⟨[], g'⟩ (u :: q) with
        | mk r' m' =>
          rw [ran, ran'] at outcome left
          cases outcome
          cases r with
          | error e => rfl
          | ok _ => exact Machine.length_result left

end Code

end Calculator
