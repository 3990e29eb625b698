import Negacyclic.Lanes.Basic
import Negacyclic.Word.Halves

/-!
# Eight lanes

A machine with registers of eight words that multiplies 32-bit halves only: its high products are
assembled from those of the halves. It also picks words out of a pair of registers by an index
vector, which is how the layers of small stride bring the two operands of a butterfly into the
same lane.
-/

namespace Negacyclic.Lanes

/-- Eight words to a register, high products from halves. -/
def eight : Lanes 8 :=
  { portable 8 with mulHigh := fun p x y => Vector.zipWith (Word.mulHighByHalves p) x y }

/-- Eight places in a pair of registers: those of the first are 0 to 7, of the second 8 to 15. -/
abbrev Selection := Vector (Fin (8 + 8)) 8

/-- The words of `u` and `v` at the selected places. -/
def pick (s : Selection) (u v : Register 8) : Register 8 :=
  Vector.ofFn fun i => (u ++ v)[s[i]]

end Negacyclic.Lanes
