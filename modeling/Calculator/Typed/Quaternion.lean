/-!
Quaternions of single precision, as they come from three angles.
-/

namespace Calculator

structure Quaternion where
  x : Float32
  y : Float32
  z : Float32
  w : Float32
deriving DecidableEq

namespace Quaternion

/-- The product `l * r`. The terms are added in pairs, an order that rounding shows. -/
def mul (l r : Quaternion) : Quaternion where
  x := (l.w * r.x + l.x * r.w) + (l.y * r.z + -(l.z * r.y))
  y := (l.w * r.y + -(l.x * r.z)) + (l.y * r.w + l.z * r.x)
  z := (l.w * r.z + l.x * r.y) + (-(l.y * r.x) + l.z * r.w)
  w := (l.w * r.w + -(l.x * r.x)) + (-(l.y * r.y) + -(l.z * r.z))

def length (q : Quaternion) : Float32 :=
  ((q.x * q.x + q.z * q.z) + (q.y * q.y + q.w * q.w)).sqrt

def normalize (q : Quaternion) : Quaternion :=
  ⟨q.x / q.length, q.y / q.length, q.z / q.length, q.w / q.length⟩

/-- The turn by an angle about the first, the second and the third axis. -/
def aboutX (angle : Float32) : Quaternion := ⟨(angle * 0.5).sin, 0, 0, (angle * 0.5).cos⟩

def aboutY (angle : Float32) : Quaternion := ⟨0, (angle * 0.5).sin, 0, (angle * 0.5).cos⟩

def aboutZ (angle : Float32) : Quaternion := ⟨0, 0, (angle * 0.5).sin, (angle * 0.5).cos⟩

/-- The turns about the three axes, the third one applied first. -/
def ofAngles (x y z : Float32) : Quaternion :=
  (mul (mul (aboutX x) (aboutY y)) (aboutZ z)).normalize

end Quaternion

end Calculator
