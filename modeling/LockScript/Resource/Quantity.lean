/-! # Quantities

Resource bounds are sums and maxima of small numbers. They are kept in 64-bit words, whose sums wrap
around; the same rules over natural numbers give the exact bounds.
-/

namespace LockScript

/-- Numbers that resources can be counted in. -/
class Quantity (ν : Type) extends Add ν, Max ν where
  /-- A natural number; words take its remainder modulo 2^64. -/
  amount : Nat → ν
  /-- How much the first number exceeds the second, or zero if it does not. -/
  excess : ν → ν → ν
  /-- Whether the first number is at most the second. -/
  atMost : ν → ν → Bool

/-- A machine word. -/
abbrev Word := UInt64

instance : Quantity Nat where
  amount := id
  excess a b := a - b
  atMost a b := a ≤ b

instance : Quantity Word where
  amount := UInt64.ofNat
  excess a b := if b ≤ a then a - b else 0
  atMost a b := a ≤ b

namespace Quantity

variable {ν : Type} [Quantity ν]

/-- The sum of listed numbers. -/
def total (numbers : List ν) : ν :=
  numbers.foldr (· + ·) (amount 0)

/-- The largest of listed numbers, or zero. -/
def largest (numbers : List ν) : ν :=
  numbers.foldr max (amount 0)

/-- The sum of the `count` largest of listed numbers. -/
def totalOfLargest (count : Nat) (numbers : List ν) : ν :=
  total ((numbers.mergeSort fun a b => atMost b a).take count)

end Quantity

end LockScript
