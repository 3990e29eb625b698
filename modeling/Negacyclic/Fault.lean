import Negacyclic.Word.Basic

/-!
# Faults

Why an operation refuses its arguments. A `Fault` is a cause with the values that show it;
`Fault.message` is the one place that words it. Bounds are natural numbers, since a factor times a
modulus need not fit a word. A `Stop` tells a refusal apart from a run that breaks down.
-/

namespace Negacyclic

/-! ### What a fault is about -/

/-- An argument of an operation. -/
inductive Operand where
  /-- The buffer that receives the answer. -/
  | result
  /-- The first operand of a sum, difference or product. -/
  | left
  /-- The second operand of a sum, difference or product. -/
  | right
  /-- The one word that is combined with every element. -/
  | scalar
  /-- The array that a multiply-add multiplies. -/
  | multiplicand
  /-- The word by which a multiply-add multiplies. -/
  | multiplier
  /-- The array that a multiply-add adds. -/
  | addend
  /-- The operand of an operation that has one only. -/
  | sole
  deriving DecidableEq, Repr

/-- The name of an argument in messages. -/
def Operand.name : Operand → String
  | result => "result"
  | left => "a"
  | right => "b"
  | scalar => "scalar"
  | multiplicand => "arg1"
  | multiplier => "arg2"
  | addend => "arg3"
  | sole => "operand"

/-- Which of the two mod factors of an operation is meant. -/
inductive FactorSide where
  | input
  | output
  deriving DecidableEq, Repr

/-- The name of a mod factor in messages. -/
def FactorSide.name : FactorSide → String
  | input => "input_mod_factor"
  | output => "output_mod_factor"

/-- What a conditional kernel asks of the difference it applies. -/
inductive DiffRule where
  | nonZero
  | insideModulus
  deriving DecidableEq, Repr

/-- The wording of the rule. -/
def DiffRule.text : DiffRule → String
  | nonZero => "must be non-zero"
  | insideModulus => "must be in (0, modulus)"

/-! ### Faults and their texts -/

/-- A reason to refuse the arguments of an operation. -/
inductive Fault where
  /-- An operand without elements. -/
  | empty
  /-- An array whose size is not the one that the others call for. -/
  | sizeMismatch (who : Operand) (found expected : Nat)
  /-- A modulus that is not in `(1, 2^maxBits)`. -/
  | modulusOutOfRange (modulus : Word) (maxBits : Nat)
  /-- An element that is not below the bound declared for its array. -/
  | elementOutOfBound (who : Operand) (index : Nat) (value : Word) (bound : Nat)
  /-- A scalar that is not below its bound. -/
  | scalarOutOfBound (who : Operand) (value : Word) (bound : Nat)
  /-- A mod factor that the operation does not have. -/
  | unsupportedFactor (side : FactorSide) (factor : Word)
  /-- A reduction from a factor to the same factor. -/
  | equalFactors (factor : Word)
  /-- A transform size that is not a power of two from 2 to `2^20`. -/
  | invalidDegree (degree : Nat)
  /-- A modulus that has no room for the roots of unity of a transform. -/
  | notCongruent (modulus : Word) (degree : Nat)
  /-- A composite modulus where a prime is called for. -/
  | notPrime (modulus : Word)
  /-- A residue without an inverse. -/
  | notInvertible (value modulus : Word)
  /-- A word that is not a primitive root of unity of the order asked for. -/
  | notPrimitiveRoot (root : Word) (order : Nat) (modulus : Word)
  /-- A modulus for which no primitive root of unity was found. -/
  | noPrimitiveRoot (order : Nat) (modulus : Word)
  /-- A scale other than the three of `Precision`. -/
  | unsupportedPrecision (bits : Nat)
  /-- A difference that breaks the rule of a conditional kernel. -/
  | invalidDiff (diff : Word) (rule : DiffRule)
  /-- A search that ended with fewer primes than asked for, or that could not start. -/
  | tooFewPrimes (count bitSize size : Nat)
  deriving DecidableEq, Repr

/-- The text of a fault. -/
def Fault.message : Fault → String
  | empty => "empty input"
  | sizeMismatch who found expected => s!"{who.name} has {found} elements, expected {expected}"
  | modulusOutOfRange modulus maxBits =>
      s!"invalid modulus {modulus}: must be greater than 1 and below 2^{maxBits}"
  | elementOutOfBound who index value bound =>
      s!"{who.name}[{index}] = {value} is not below {bound}"
  | scalarOutOfBound who value bound => s!"{who.name} = {value} is not below {bound}"
  | unsupportedFactor side factor => s!"unsupported {side.name} {factor}"
  | equalFactors factor => s!"input and output mod factors are both {factor}"
  | invalidDegree degree => s!"invalid degree {degree}: must be a power of two in [2, 2^20]"
  | notCongruent modulus degree => s!"modulus {modulus} is not congruent to 1 mod 2*{degree}"
  | notPrime modulus => s!"modulus {modulus} is not prime"
  | notInvertible value modulus => s!"{value} has no inverse mod {modulus}"
  | notPrimitiveRoot root order modulus =>
      s!"{root} is not a primitive {order}-th root of unity mod {modulus}"
  | noPrimitiveRoot order modulus => s!"no primitive {order}-th root of unity mod {modulus}"
  | unsupportedPrecision bits => s!"unsupported bit shift {bits}, expected 32, 52 or 64"
  | invalidDiff diff rule => s!"invalid diff {diff}: {rule.text}"
  | tooFewPrimes count bitSize size =>
      s!"could not find {count} primes of {bitSize} bits congruent to 1 mod 2*{size}"

/-! ### Ways to end without an answer -/

/-- Why an operation gives no answer: it refuses its arguments, or a condition that it takes for
granted fails while it runs. -/
inductive Stop where
  | refused (fault : Fault)
  | broken
  deriving DecidableEq, Repr

end Negacyclic
