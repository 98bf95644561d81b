import JavaMinus.Error

/-!
# Stack depth

The operand stack of a method while its code is laid out: the present depth and the greatest depth so
far, which is the stack limit of the method.
-/

namespace JavaMinus.Assembly

structure StackDepth where
  depth : Nat := 0
  peak : Nat := 0
deriving DecidableEq, Inhabited

namespace StackDepth

def push (s : StackDepth) (n : Nat) : StackDepth :=
  { depth := s.depth + n, peak := max s.peak (s.depth + n) }

/-- Take values off the stack of `method`; there must be enough of them. -/
def pop (method : String) (s : StackDepth) (n : Nat) : Except Error StackDepth :=
  if n ≤ s.depth then .ok { s with depth := s.depth - n } else .error (.stackUnderflow method)

theorem depth_push_le_peak (s : StackDepth) (n : Nat) : (s.push n).depth ≤ (s.push n).peak := by
  simp only [push]
  omega

end StackDepth

end JavaMinus.Assembly
