/-!
The types that a result can be converted into.
-/

namespace Calculator

inductive Target
  | single | double | int32 | int64 | uint32 | uint64 | vec2 | vec3 | vec4 | quaternion | text
deriving DecidableEq

namespace Target

def all : List Target :=
  [single, double, int32, int64, uint32, uint64, vec2, vec3, vec4, quaternion, text]

def name : Target → String
  | single => "f32"
  | double => "f64"
  | int32 => "i32"
  | int64 => "i64"
  | uint32 => "u32"
  | uint64 => "u64"
  | vec2 => "Vec2"
  | vec3 => "Vec3"
  | vec4 => "Vec4"
  | quaternion => "Quat"
  | text => "String"

def ofName? (name : String) : Option Target := all.find? (·.name = name)

/-- Can a result with so many components become this type? One component fills a whole vector, and
three are the angles of a quaternion. -/
def accepts : Target → Nat → Bool
  | vec2, n => n = 1 || n = 2
  | vec3, n => n = 1 || n = 3
  | vec4, n => n = 1 || n = 4
  | quaternion, n => n = 1 || n = 3 || n = 4
  | text, _ => true
  | _, n => n = 1

theorem mem_all (t : Target) : t ∈ all := by cases t <;> decide

theorem ofName?_name (t : Target) : ofName? t.name = some t := by cases t <;> rfl

end Target

end Calculator
