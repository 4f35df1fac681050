import Calculator.Code.Machine

/-!
Formulas as trees: their code, which has the operands in source order before what is done with
them, and their meaning, which evaluates subtrees from left to right and ends with the first error.
The meaning knows no code and no stack.
-/

namespace Calculator

/-- A plus or a minus in front of an operand. -/
inductive Sign
  | plus | minus
deriving DecidableEq

namespace Sign

def symbol : Sign → Char
  | plus => '+'
  | minus => '-'

def apply : Sign → Float → Float
  | plus, x => x
  | minus, x => -x

theorem signOfSymbol?_symbol (s : Sign) : Operator.signOfSymbol? s.symbol = some s.apply := by
  cases s <;> rfl

theorem exists_symbol {c : Char} (h : (Operator.signOfSymbol? c).isSome) :
    ∃ s : Sign, s.symbol = c := by
  cases found : Operator.ofSymbol? c with
  | none => simp [Operator.signOfSymbol?, found] at h
  | some op =>
    have same := Operator.symbol_of_ofSymbol? found
    simp only [Operator.signOfSymbol?, found, Option.bind_some] at h
    cases op with
    | add => exact ⟨.plus, same⟩
    | sub => exact ⟨.minus, same⟩
    | mul => cases h
    | div => cases h
    | pow => cases h

end Sign

inductive Tree
  | number (x : Float)
  | sign (s : Sign) (operand : Tree)
  | binary (op : Operator) (left right : Tree)
  | call (name : FunctionName) (args : List Tree)
  | tuple (items : List Tree)

namespace Tree

mutual

def code : Tree → List Token
  | number x => [.number x]
  | sign s t => t.code ++ [.prefixOp s.symbol]
  | binary op l r => l.code ++ r.code ++ [.binaryOp op.symbol]
  | call name args => codes args ++ [.call name args.length]
  | tuple items => codes items ++ [.tuple items.length]

def codes : List Tree → List Token
  | [] => []
  | t :: ts => t.code ++ codes ts

end

mutual

def calls : Tree → List (FunctionName × Nat)
  | number _ => []
  | sign _ t => t.calls
  | binary _ l r => l.calls ++ r.calls
  | call name args => (name, args.length) :: callsOfAll args
  | tuple items => callsOfAll items

def callsOfAll : List Tree → List (FunctionName × Nat)
  | [] => []
  | t :: ts => t.calls ++ callsOfAll ts

end

mutual

def tuples : Tree → Nat
  | number _ => 0
  | sign _ t => t.tuples
  | binary _ l r => l.tuples + r.tuples
  | call _ args => tuplesOfAll args
  | tuple items => tuplesOfAll items + 1

def tuplesOfAll : List Tree → Nat
  | [] => 0
  | t :: ts => t.tuples + tuplesOfAll ts

end

mutual

theorem mem_code_of_mem_calls (t : Tree) {name : FunctionName} {n : Nat}
    (h : (name, n) ∈ t.calls) : .call name n ∈ t.code := by
  cases t with
  | number x => cases h
  | sign s t =>
    have operand := mem_code_of_mem_calls t h
    simp [code, operand]
  | binary op l r =>
    rcases List.mem_append.mp h with h | h
    · have left := mem_code_of_mem_calls l h
      simp [code, left]
    · have right := mem_code_of_mem_calls r h
      simp [code, right]
  | call f args =>
    rcases List.mem_cons.mp h with same | h
    · cases same
      simp [code]
    · have others := mem_codes_of_mem_callsOfAll args h
      simp [code, others]
  | tuple items =>
    have others := mem_codes_of_mem_callsOfAll items h
    simp [code, others]

theorem mem_codes_of_mem_callsOfAll (ts : List Tree) {name : FunctionName} {n : Nat}
    (h : (name, n) ∈ callsOfAll ts) : .call name n ∈ codes ts := by
  cases ts with
  | nil => cases h
  | cons t ts =>
    rcases List.mem_append.mp h with h | h
    · exact List.mem_append_left _ (mem_code_of_mem_calls t h)
    · exact List.mem_append_right _ (mem_codes_of_mem_callsOfAll ts h)

end

theorem code_ne_nil (t : Tree) : t.code ≠ [] := by
  cases t <;> simp [code]

/-- A computation that draws random numbers and may break off. The draws made before it breaks off
stay made. -/
abbrev Evaluation := ExceptT Error (StateM Random.Generator)

open Code (Value)

/-- The number that a value is. A tuple cannot be an operand. -/
def scalar : Value → Except Error Float
  | .scalar x => .ok x
  | .tuple xs => .error (.operand (.tuple xs.length))

/-- The numbers that values are. Of the tuples among them the last one is refused. -/
def scalars : List Value → Except Error (List Float)
  | [] => .ok []
  | v :: vs => do
    let xs ← scalars vs
    let x ← scalar v
    .ok (x :: xs)

theorem scalars_map_scalar (xs : List Float) : scalars (xs.map .scalar) = .ok xs := by
  induction xs with
  | nil => rfl
  | cons x xs ih => simp only [List.map_cons, scalars, ih, scalar, bind, Except.bind]

theorem scalars_tuple (us : List Value) (ys xs : List Float) :
    scalars (us ++ .tuple ys :: xs.map .scalar) = .error (.operand (.tuple ys.length)) := by
  induction us with
  | nil => simp only [List.nil_append, scalars, scalars_map_scalar, scalar, bind, Except.bind]
  | cons u us ih => simp only [List.cons_append, scalars, ih, bind, Except.bind]

theorem scalars_or_last_tuple (vs : List Value) :
    (∃ xs : List Float, vs = xs.map .scalar) ∨
      ∃ us ys, ∃ xs : List Float, vs = us ++ .tuple ys :: xs.map .scalar := by
  induction vs with
  | nil => exact .inl ⟨[], rfl⟩
  | cons v vs ih =>
    rcases ih with ⟨xs, rfl⟩ | ⟨us, ys, xs, rfl⟩
    · cases v with
      | scalar x => exact .inl ⟨x :: xs, rfl⟩
      | tuple ys => exact .inr ⟨[], ys, xs, rfl⟩
    · exact .inr ⟨v :: us, ys, xs, rfl⟩

theorem eq_map_of_scalars {vs : List Value} {xs : List Float} (h : scalars vs = .ok xs) :
    vs = xs.map .scalar := by
  rcases scalars_or_last_tuple vs with ⟨ys, rfl⟩ | ⟨us, ys, zs, rfl⟩
  · rw [scalars_map_scalar] at h
    cases h
    rfl
  · rw [scalars_tuple] at h
    cases h

/-- A function of arguments that have been evaluated: first their number is compared with the one
that the function takes, then tuples are refused, then the function draws what it draws. -/
def applied (name : FunctionName) (vs : List Value) : Evaluation Value := fun g =>
  match Builtin.ofName? name.text with
  | none => (.error (.function name.text), g)
  | some f =>
    if fewer : vs.length < f.arity then
      (.error (.tooFewArguments name.text f.arity vs.length), g)
    else if more : f.arity < vs.length then
      (.error (.tooManyArguments name.text f.arity vs.length), g)
    else
      match numbers : scalars vs with
      | .error e => (.error e, g)
      | .ok xs =>
        have length : xs.length = f.arity := by
          rw [eq_map_of_scalars numbers, List.length_map] at fewer more
          omega
        let (x, g) := f.apply xs length g
        (.ok (.scalar x), g)

mutual

def eval : Tree → Evaluation Value
  | number x => pure (.scalar x)
  | sign s t => do
    let v ← t.eval
    let x ← scalar v
    pure (.scalar (s.apply x))
  | binary op l r => do
    let v ← l.eval
    let w ← r.eval
    let y ← scalar w
    let x ← scalar v
    pure (.scalar (op.apply x y))
  | call name args => do
    let vs ← evalAll args
    applied name vs
  | tuple items => do
    let vs ← evalAll items
    let xs ← scalars vs
    pure (.tuple xs)

def evalAll : List Tree → Evaluation (List Value)
  | [] => pure []
  | t :: ts => do
    let v ← t.eval
    let vs ← evalAll ts
    pure (v :: vs)

end

end Tree

end Calculator
