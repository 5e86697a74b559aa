import Mathlib.Algebra.Group.Int.Defs
import Mathlib.Algebra.Group.Nat.Defs

/-!
# The capacity of the bounded queues

Both queues assert that `N` is a power of two above one, and index their buffers with `& MASK`.
-/

namespace Dwhbll.Concurrency

/-- The template argument `N = 2^log`, a `std::size_t`. -/
structure Capacity where
  log : Nat
  one_le : 1 ≤ log
  lt : log < 64

namespace Capacity

def N (c : Capacity) : Nat := 2 ^ c.log

def MASK (c : Capacity) : Nat := c.N - 1

theorem two_le_N (c : Capacity) : 2 ≤ c.N :=
  Nat.pow_le_pow_right (n := 2) (by decide) c.one_le

theorem N_le (c : Capacity) : c.N ≤ 2 ^ 63 :=
  Nat.pow_le_pow_right (n := 2) (by decide) (Nat.le_of_lt_succ c.lt)

theorem and_MASK (c : Capacity) (x : Nat) : x &&& c.MASK = x % c.N :=
  Nat.and_two_pow_sub_one_eq_mod x c.log

theorem mod_lt (c : Capacity) (x : Nat) : x % c.N < c.N :=
  Nat.mod_lt _ (Nat.lt_of_lt_of_le (by decide) c.two_le_N)

end Capacity

end Dwhbll.Concurrency
