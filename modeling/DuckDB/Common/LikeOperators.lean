import Mathlib.Data.List.Infix

/-!
# The operator `LIKE`

`Like::Operation` (`common/operator/like_operators.cpp`). A string is the list of its bytes without
the terminator, so that `*p` is the terminator where the list ends.
-/

namespace DuckDB.Like

/-- `'%'`. -/
def percent : UInt8 := 0x25

/-- `'_'`. -/
def underscore : UInt8 := 0x5F

/-- `Like::Operation`, where `s` and `pattern` are what `t` and `p` point to. -/
def operation (escape : Option UInt8) (s pattern : List UInt8) : Bool :=
  match pattern, s with
  | [], t => t.isEmpty
  | c :: p, [] => c = percent && p.isEmpty
  | c :: p, x :: t =>
    if escape = some c then
      match p with
      | [] => false
      | d :: p => if d ≠ x then false else operation escape t p
    else if c = underscore then operation escape t p
    else if c = percent then
      if p.dropWhile (· = percent) = [] then true
      else
        -- the loop ends at the end of the string, where the pattern is not at its end
        (x :: t).tails.any fun t =>
          !t.isEmpty && operation escape t (p.dropWhile (· = percent))
    else if c = x then operation escape t p
    else false
termination_by pattern.length
decreasing_by
  · simp only [List.length_cons]
    omega
  · simp
  · exact Nat.lt_succ_of_le (List.dropWhile_sublist _).length_le
  · simp

end DuckDB.Like
