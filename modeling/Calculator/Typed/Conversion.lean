import Calculator.Formula
import Calculator.Typed.Quaternion

/-!
Results converted into the type that is asked for. The number of components is known from the
code, so a formula of the wrong shape is refused before it is evaluated and draws no random
numbers. A text is not evaluated at all: the formula itself is its value.
-/

namespace Calculator

inductive Typed
  | single (x : Float32)
  | double (x : Float)
  | int32 (n : Int32)
  | int64 (n : Int64)
  | uint32 (n : UInt32)
  | uint64 (n : UInt64)
  | vec2 (x y : Float32)
  | vec3 (x y z : Float32)
  | vec4 (x y z w : Float32)
  | quaternion (q : Quaternion)
  | text (s : String)
deriving DecidableEq

namespace Target

def refuse (t : Target) (found : Nat) : Error := .resultType found t

def ofSingle (t : Target) (f : Float → Typed) : List Float → Except Error Typed
  | [x] => .ok (f x)
  | xs => .error (t.refuse xs.length)

/-- Builds the value from components. Whole numbers are cut off toward zero and held within their
bounds, one that is undefined becomes zero; vectors are of single precision. -/
def convert : Target → List Float → Except Error Typed
  | single, xs => ofSingle single (.single ·.toFloat32) xs
  | double, xs => ofSingle double .double xs
  | int32, xs => ofSingle int32 (.int32 ·.toInt32) xs
  | int64, xs => ofSingle int64 (.int64 ·.toInt64) xs
  | uint32, xs => ofSingle uint32 (.uint32 ·.toUInt32) xs
  | uint64, xs => ofSingle uint64 (.uint64 ·.toUInt64) xs
  | vec2, [x] => .ok (.vec2 x.toFloat32 x.toFloat32)
  | vec2, [x, y] => .ok (.vec2 x.toFloat32 y.toFloat32)
  | vec3, [x] => .ok (.vec3 x.toFloat32 x.toFloat32 x.toFloat32)
  | vec3, [x, y, z] => .ok (.vec3 x.toFloat32 y.toFloat32 z.toFloat32)
  | vec4, [x] => .ok (.vec4 x.toFloat32 x.toFloat32 x.toFloat32 x.toFloat32)
  | vec4, [x, y, z, w] => .ok (.vec4 x.toFloat32 y.toFloat32 z.toFloat32 w.toFloat32)
  | quaternion, [x] =>
    .ok (.quaternion ⟨x.toFloat32, x.toFloat32, x.toFloat32, x.toFloat32⟩)
  | quaternion, [x, y, z] =>
    .ok (.quaternion (.ofAngles x.toFloat32 y.toFloat32 z.toFloat32))
  | quaternion, [x, y, z, w] =>
    .ok (.quaternion ⟨x.toFloat32, y.toFloat32, z.toFloat32, w.toFloat32⟩)
  | t, xs => .error (t.refuse xs.length)

end Target

namespace Formula

/-- The formula's value, unless its shape is wrong for the target. -/
def convert (f : Formula) (env : Environment) (t : Target) : Except Error Typed × Environment :=
  if t = .text then (.ok (.text f.source), env)
  else if t.accepts f.arity then
    let (result, env) := f.evaluate env
    (result.bind t.convert, env)
  else (.error (t.refuse f.arity), env)

def adapt (f : Formula) (env : Environment) (t : Target) : Except AdaptError Typed × Environment :=
  let (result, env) := f.convert env t
  (result.mapError (⟨f.source, ·⟩), env)

end Formula

/-- The value of a text in the type that is asked for. -/
def Environment.adapt (env : Environment) (t : Target) (source : String) :
    Except AdaptError Typed × Environment :=
  if t = .text then (.ok (.text source), env)
  else
    match Formula.compile env source with
    | .error e => (.error ⟨source, e⟩, env)
    | .ok f => f.adapt env t

end Calculator
