import Negacyclic.Word.Basic

/-!
# High products from 32-bit halves

A machine without a 64-by-64 high product has one of 32-bit halves. `Word.mulHighByHalves`
assembles the high product at any `Precision` from the four products of the halves of its
operands. The sums in between stay below `2^64`, so nothing is lost; the two shifts of the last
line put the bits above the scale into one word.
-/

namespace Negacyclic.Word

/-- The low 32 bits. -/
def lowHalf (x : Word) : Word :=
  x &&& 0xffffffff

/-- The high 32 bits. -/
def highHalf (x : Word) : Word :=
  x >>> 32

/-- The four products of the halves of two words and the sum of the three terms of weight
`2^32`. -/
structure HalfProducts where
  /-- Low by low. -/
  ll : Word
  /-- Low by high. -/
  lh : Word
  /-- High by low. -/
  hl : Word
  /-- High by high. -/
  hh : Word
  /-- What the low parts carry into the middle: below `3 * 2^32`. -/
  mid : Word

/-- The products of the halves of `x` and `y`. -/
def halfProducts (x y : Word) : HalfProducts :=
  let ll := lowHalf x * lowHalf y
  let lh := lowHalf x * highHalf y
  let hl := highHalf x * lowHalf y
  let hh := highHalf x * highHalf y
  ⟨ll, lh, hl, hh, highHalf ll + lowHalf lh + lowHalf hl⟩

namespace HalfProducts

/-- The high word of the product. -/
def high (h : HalfProducts) : Word :=
  h.hh + highHalf h.lh + (highHalf h.hl + highHalf h.mid)

/-- The low word of the product. -/
def low (h : HalfProducts) : Word :=
  (h.mid <<< 32) ||| lowHalf h.ll

end HalfProducts

/-- The low 64 bits of `⌊x * y / 2^p⌋`, from the products of halves. -/
def mulHighByHalves (p : Precision) (x y : Word) : Word :=
  let h := halfProducts x y
  match p with
  | .bits64 => h.high
  | .bits52 => (h.high <<< 12) ||| (h.low >>> 52)
  | .bits32 => (h.high <<< 32) ||| (h.low >>> 32)

end Negacyclic.Word
