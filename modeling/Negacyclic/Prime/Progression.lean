import Negacyclic.Fault
import Negacyclic.Word.Bits
import Negacyclic.Word.Storage

/-!
# Primes in a progression

A transform of a given size needs a prime that is 1 modulo twice the size. `generatePrimes` lists
the first such primes of an exact bit size, either upward from the least number of that size or
downward from the greatest.

The test for primality is an argument, `isPrime`. Nothing here depends on how it works; that the
lists are the primes of the progression is true of a test that is right about the candidates, and is
shown under that assumption.

The two scans start at the first number of the progression inside the interval, seen from their
end, and take one step of the progression at a time until they have enough primes or leave the
interval. Candidates are natural numbers. Two things break the run before a scan starts, once the
arguments are known to be valid: a step that does not fit a word, and a number of primes that no
array can hold, even where the interval has fewer.
-/

namespace Negacyclic.Prime

variable (isPrime : Word → Bool)

/-- Put `c` behind `found` if it passes the test. -/
def keepPrime (found : Array Word) (c : Nat) : Array Word :=
  if isPrime (.ofNat c) then found.push (.ofNat c) else found

/-- The first number that is 1 modulo `step` and at least `lower`, where the interval starts. -/
def firstUpward (step lower : Nat) : Nat :=
  let c := lower - lower % step + 1
  if c < lower then c + step else c

/-- The last number that is 1 modulo `step` and below `upper`, where the interval ends; zero if
there is none. -/
def firstDownward (step upper : Nat) : Nat :=
  let c := upper - 1 - (upper - 1) % step + 1
  if upper ≤ c then c - step else c

/-- Collect primes from `c` upward until there are `count` of them or `upper` is reached. -/
def collectUpward (step upper count c : Nat) (found : Array Word) : Array Word :=
  if c < upper ∧ found.size < count ∧ 0 < step then
    collectUpward step upper count (c + step) (keepPrime isPrime found c)
  else
    found
termination_by upper - c

/-- Collect primes from `c` downward until there are `count` of them or what is left is below
`lower`. -/
def collectDownward (step lower count c : Nat) (found : Array Word) : Array Word :=
  if lower ≤ c ∧ found.size < count then
    if step ≤ c ∧ 0 < step then
      collectDownward step lower count (c - step) (keepPrime isPrime found c)
    else
      keepPrime isPrime found c
  else
    found
termination_by c

/-- `count` primes of exactly `bitSize` bits that are 1 modulo `2 * size`: the least in increasing
order, or else the greatest in decreasing order. -/
def generatePrimes (count bitSize : Nat) (preferSmall : Bool) (size : Nat) :
    Except Stop (Array Word) :=
  let fault := Fault.tooFewPrimes count bitSize size
  if count = 0 ∨ bitSize < 2 ∨ 62 < bitSize ∨ !isPowerOfTwo size then
    .error (.refused fault)
  else if 2 ^ (64 : Nat) ≤ 2 * size ∨ maxWords < count then
    .error .broken
  else
    let step := 2 * size
    let lower := 2 ^ (bitSize - 1)
    let upper := 2 ^ bitSize
    let found :=
      if preferSmall then collectUpward isPrime step upper count (firstUpward step lower) #[]
      else collectDownward isPrime step lower count (firstDownward step upper) #[]
    if found.size < count then .error (.refused fault) else .ok found

end Negacyclic.Prime
