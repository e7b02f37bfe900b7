import Mathlib.Algebra.Order.Ring.Int

/-!
# Fee fractions

`FeeFrac` of `util/feefrac.h` with the comparison by ratio.  Fees and sizes are integers in
the range of `int64_t` and `int32_t`; a sum outside of it, undefined in the source, wraps.
The products of a comparison are exact.
-/

namespace HcsCoin

structure FeeFrac where
  fee : Int
  size : Int
  deriving DecidableEq

namespace FeeFrac

def empty : FeeFrac := ⟨0, 0⟩

instance : Inhabited FeeFrac := ⟨empty⟩

instance : Add FeeFrac :=
  ⟨fun a b => ⟨(a.fee + b.fee).bmod (2 ^ 64), (a.size + b.size).bmod (2 ^ 32)⟩⟩

@[simp] theorem add_fee (a b : FeeFrac) : (a + b).fee = (a.fee + b.fee).bmod (2 ^ 64) := rfl
@[simp] theorem add_size (a b : FeeFrac) : (a + b).size = (a.size + b.size).bmod (2 ^ 32) := rfl

@[ext] theorem ext {a b : FeeFrac} (hfee : a.fee = b.fee) (hsize : a.size = b.size) : a = b := by
  cases a
  cases b
  simp_all

def ratioGt (a b : FeeFrac) : Bool := a.fee * b.size > b.fee * a.size

end FeeFrac

end HcsCoin
