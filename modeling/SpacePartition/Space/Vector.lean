import SpacePartition.Space.Basic

/-!
Points and vectors given by their coordinates.
-/

namespace SpacePartition

variable {R : Type}

@[ext]
structure Vec2 (R : Type) where
  x : R
  y : R
  deriving BEq, Repr

@[ext]
structure Vec3 (R : Type) where
  x : R
  y : R
  z : R
  deriving BEq, Repr

variable [Scalar R]

-- A point of the line is its abscissa.
instance lineCoordinates : Coordinates R R where
  dimension := 1
  toList x  := [x]
  ofList?   := fun | [x] => some x | _ => none
  fill x    := x
  combine a p b q := p * a + q * b

namespace Vec2

def toList (p : Vec2 R) : List R :=
  [p.x, p.y]

instance : Coordinates (Vec2 R) R where
  dimension := 2
  toList    := toList
  ofList?   := fun | [x, y] => some ⟨x, y⟩ | _ => none
  fill x    := ⟨x, x⟩
  combine a p b q := ⟨p.x * a + q.x * b, p.y * a + q.y * b⟩

def sub (p q : Vec2 R) : Vec2 R :=
  ⟨p.x - q.x, p.y - q.y⟩

end Vec2

namespace Vec3

def toList (p : Vec3 R) : List R :=
  [p.x, p.y, p.z]

instance : Coordinates (Vec3 R) R where
  dimension := 3
  toList    := toList
  ofList?   := fun | [x, y, z] => some ⟨x, y, z⟩ | _ => none
  fill x    := ⟨x, x, x⟩
  combine a p b q := ⟨p.x * a + q.x * b, p.y * a + q.y * b, p.z * a + q.z * b⟩

def add (p q : Vec3 R) : Vec3 R :=
  ⟨p.x + q.x, p.y + q.y, p.z + q.z⟩

def sub (p q : Vec3 R) : Vec3 R :=
  ⟨p.x - q.x, p.y - q.y, p.z - q.z⟩

def neg (p : Vec3 R) : Vec3 R :=
  ⟨-p.x, -p.y, -p.z⟩

def scale (p : Vec3 R) (a : R) : Vec3 R :=
  ⟨p.x * a, p.y * a, p.z * a⟩

def divide (p : Vec3 R) (a : R) : Vec3 R :=
  ⟨p.x / a, p.y / a, p.z / a⟩

def dot (p q : Vec3 R) : R :=
  p.x * q.x + p.y * q.y + p.z * q.z

def cross (p q : Vec3 R) : Vec3 R :=
  ⟨p.y * q.z - p.z * q.y, p.z * q.x - p.x * q.z, p.x * q.y - p.y * q.x⟩

end Vec3
end SpacePartition
