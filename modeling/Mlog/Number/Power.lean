/-!
# Powers of two and ten

The scales of binary and decimal numbers.
-/
set_option autoImplicit false

namespace Mlog.Number

/-- Two to the power `n`. -/
def twoTo (n : Nat) : Nat := Nat.pow 2 n

/-- Ten to the power `n`. -/
def tenTo (n : Nat) : Nat := Nat.pow 10 n

theorem twoTo_pos (n : Nat) : 0 < twoTo n := Nat.pow_pos (Nat.zero_lt_succ 1)

theorem tenTo_pos (n : Nat) : 0 < tenTo n := Nat.pow_pos (Nat.zero_lt_succ 9)

end Mlog.Number
