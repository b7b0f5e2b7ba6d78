import Mathlib.Data.List.FinRange
import Mathlib.Data.List.Sort

set_option autoImplicit false

namespace HexBench

theorem filter_order {n : Nat} {order : List (Fin n)} (hperm : order.Perm (List.finRange n))
    (p : Fin n → Bool) (hkeeps : order.Pairwise fun i j => p i = true → p j = true → i < j) :
    order.filter p = (List.finRange n).filter p := by
  have hsorted : (order.filter p).Pairwise (· < ·) := by
    refine List.Pairwise.imp_of_mem (fun {i j} hi hj hkept => ?_) (hkeeps.filter p)
    exact hkept (List.mem_filter.mp hi).2 (List.mem_filter.mp hj).2
  exact List.Perm.eq_of_pairwise (fun _ _ _ _ hij hji => absurd hij (lt_asymm hji)) hsorted
    ((List.pairwise_lt_finRange n).filter p) (hperm.filter p)

end HexBench
