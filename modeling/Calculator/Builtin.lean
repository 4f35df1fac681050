import Calculator.Error
import Calculator.Random.Generator

/-!
The functions: their names, how many arguments they take and what they compute. Only `random`
draws from the generator.
-/

namespace Calculator

structure FunctionName where
  text : String
  size_le : text.utf8ByteSize ≤ 16
deriving DecidableEq

namespace FunctionName

def parse (text : String) : Except Error FunctionName :=
  if h : text.utf8ByteSize ≤ 16 then .ok ⟨text, h⟩ else .error (.function text)

theorem parse_text (name : FunctionName) : parse name.text = .ok name := by
  simp [parse, name.size_le]

theorem text_of_parse {text : String} {name : FunctionName} (h : parse text = .ok name) :
    name.text = text := by
  unfold parse at h
  split at h
  · cases h; rfl
  · contradiction

end FunctionName

inductive Builtin
  | sin | cos | tan | asin | acos | atan | abs | ceil | floor | min | max | random | lerp
deriving DecidableEq

namespace Builtin

def all : List Builtin :=
  [abs, acos, asin, atan, ceil, cos, floor, lerp, max, min, random, sin, tan]

def name : Builtin → FunctionName
  | sin => ⟨"sin", by decide⟩
  | cos => ⟨"cos", by decide⟩
  | tan => ⟨"tan", by decide⟩
  | asin => ⟨"asin", by decide⟩
  | acos => ⟨"acos", by decide⟩
  | atan => ⟨"atan", by decide⟩
  | abs => ⟨"abs", by decide⟩
  | ceil => ⟨"ceil", by decide⟩
  | floor => ⟨"floor", by decide⟩
  | min => ⟨"min", by decide⟩
  | max => ⟨"max", by decide⟩
  | random => ⟨"random", by decide⟩
  | lerp => ⟨"lerp", by decide⟩

def ofName? (text : String) : Option Builtin := all.find? (·.name.text = text)

def arity : Builtin → Nat
  | min | max | random => 2
  | lerp => 3
  | _ => 1

def nan : Float := 0 / 0

/-- An inverse of sine or cosine, which has no value outside `[-1, 1]`. -/
def inverse (f : Float → Float) (x : Float) : Float := if -1 ≤ x ∧ x ≤ 1 then f x else nan

/-- The value at the arguments in source order, and the generator that is left. -/
def apply : (f : Builtin) → (args : List Float) → args.length = f.arity → Random.Generator →
    Float × Random.Generator
  | sin, [x], _, g => (x.sin, g)
  | cos, [x], _, g => (x.cos, g)
  | tan, [x], _, g => (x.tan, g)
  | asin, [x], _, g => (inverse Float.asin x, g)
  | acos, [x], _, g => (inverse Float.acos x, g)
  | atan, [x], _, g => (x.atan, g)
  | abs, [x], _, g => (x.abs, g)
  | ceil, [x], _, g => (x.ceil, g)
  | floor, [x], _, g => (x.floor, g)
  | min, [a, b], _, g => (if a < b then a else b, g)
  | max, [a, b], _, g => (if a > b then a else b, g)
  | random, [low, high], _, g => (low + (high - low) * g.next.1, g.next.2)
  | lerp, [a, b, t], _, g => (a + (b - a) * t, g)

theorem arity_pos (f : Builtin) : 0 < f.arity := by cases f <;> decide

theorem mem_all (f : Builtin) : f ∈ all := by cases f <;> decide

theorem name_of_ofName? {text : String} {f : Builtin} (h : ofName? text = some f) :
    f.name.text = text := by
  simpa using List.find?_some h

theorem ofName?_name (f : Builtin) : ofName? f.name.text = some f := by cases f <;> rfl

theorem eq_name_iff {name : FunctionName} {f g : Builtin} (known : ofName? name.text = some f) :
    name = g.name ↔ f = g := by
  constructor
  · rintro rfl
    rw [ofName?_name] at known
    exact (Option.some.inj known).symm
  · rintro rfl
    obtain ⟨text, size⟩ := name
    have same := name_of_ofName? known
    subst same
    rfl

/-- Every function but `random` leaves the generator as it is. -/
theorem apply_generator {f : Builtin} {args : List Float} (h : args.length = f.arity)
    (g : Random.Generator) :
    (f.apply args h g).2 = if f = random then g.next.2 else g := by
  unfold apply
  split <;> rfl

end Builtin

end Calculator
