namespace NestedPoly

/-- Tries `divisor` and every second number after it, as long as the square, taken in 64 bits, is
not above `n`. The divisors neither wrap around nor pass `n`, so the search ends. -/
def hasNoDivisorFrom (n divisor : UInt64) : Bool :=
  if divisor * divisor ≤ n then
    if n % divisor = 0 then false
    else if _ : divisor < divisor + 2 ∧ divisor < n then hasNoDivisorFrom n (divisor + 2)
    else true
  else true
termination_by n.toNat - divisor.toNat
decreasing_by grind [UInt64.lt_iff_toNat_lt]

def isPrime (n : UInt64) : Bool :=
  if n < 2 then false
  else if n % 2 = 0 then n = 2
  else hasNoDivisorFrom n 3

/-- Adds the primes from `candidate` on to those found, until there are `count` of them. After two,
only odd numbers are looked at. The last 64-bit number ends the search in any case. -/
def collectPrimes (count : Nat) (candidate : UInt64) (found : Array UInt64) : Array UInt64 :=
  if found.size < count then
    let found := if isPrime candidate then found.push candidate else found
    let next := candidate + (if candidate = 2 then 1 else 2)
    if _ : candidate < next then collectPrimes count next found else found
  else found
termination_by UInt64.size - candidate.toNat
decreasing_by
  have := next.toNat_lt_size
  grind [UInt64.lt_iff_toNat_lt]

def smallestPrimes (count : Nat) : Array UInt64 := collectPrimes count 2 #[]

end NestedPoly
