import StatBounds.Interval.Basic

/-!
# Interval arithmetic with outward rounding

Each operation computes its bounds in binary64 and moves them one number outward. A correctly rounded
result is at most half a step off, so the moved bounds enclose the exact ones. Where no useful
enclosure exists, as for a quotient by an interval around zero, the result is the whole line.
-/

namespace StatBounds.Interval

open Binary64 (infinity larger smaller next previous)

/-- The interval one number outside the given bounds. A bound that is no number gives no information
    and becomes the infinity of its side. -/
def outward (lo hi : Float) : Interval :=
  { lo := if lo.isNaN then -infinity else previous lo
    hi := if hi.isNaN then infinity else next hi }

protected def neg (i : Interval) : Interval :=
  if i.isEmpty then empty else { lo := -i.hi, hi := -i.lo }

protected def add (i j : Interval) : Interval :=
  if i.isEmpty || j.isEmpty then empty else outward (i.lo + j.lo) (i.hi + j.hi)

protected def sub (i j : Interval) : Interval :=
  i.add j.neg

/-- The product of two bounds. An infinite bound stands for arbitrarily large reals, none of which
    differs from zero when multiplied by zero. -/
def boundProduct (x y : Float) : Float :=
  if x == 0.0 || y == 0.0 then 0.0 else x * y

/-- Enclosure of the products: the extremes are among the products of the bounds. -/
protected def mul (i j : Interval) : Interval :=
  if i.isEmpty || j.isEmpty then
    empty
  else
    let products := [boundProduct i.lo j.lo, boundProduct i.lo j.hi,
      boundProduct i.hi j.lo, boundProduct i.hi j.hi]
    outward (products.foldl smaller infinity) (products.foldl larger (-infinity))

/-- Enclosure of the quotients, the whole line if the divisor may be zero. -/
protected def div (i j : Interval) : Interval :=
  if i.isEmpty || j.isEmpty then empty
  else if j.containsZero then entire
  else i.mul (outward (1.0 / j.hi) (1.0 / j.lo))

instance : Neg Interval := ⟨Interval.neg⟩
instance : Add Interval := ⟨Interval.add⟩
instance : Sub Interval := ⟨Interval.sub⟩
instance : Mul Interval := ⟨Interval.mul⟩
instance : Div Interval := ⟨Interval.div⟩

/-- Enclosure of the squares. They grow away from zero; an interval around zero has the least square
    zero. -/
def sqr (i : Interval) : Interval :=
  if i.isEmpty then empty
  else if i.lo ≥ 0.0 then outward (i.lo * i.lo) (i.hi * i.hi)
  else if i.hi ≤ 0.0 then outward (i.hi * i.hi) (i.lo * i.lo)
  else ofBounds 0.0 (next (larger (i.lo * i.lo) (i.hi * i.hi)))

/-- Enclosure of the square roots of the numbers that have one. -/
def sqrt (i : Interval) : Interval :=
  let roots := i.intersect nonNegative
  if roots.isEmpty then
    empty
  else
    ofBounds (larger (previous roots.lo.sqrt) 0.0) (next roots.hi.sqrt)

/-- Enclosure of the numbers in `i` whose square lies in `image`: those near a positive or a negative
    root. -/
def sqrPreimage (i image : Interval) : Interval :=
  let root := image.sqrt
  if root.isEmpty then empty else (i.intersect root).hull (i.intersect (-root))

def sum (parts : List Interval) : Interval :=
  parts.foldl (· + ·) (point 0.0)

/-- For each part the sum of the parts before it, each added on the right of the sum so far. -/
def sumsBefore : Interval → List Interval → List Interval
  | _, [] => []
  | acc, part :: parts => acc :: sumsBefore (acc + part) parts

/-- For each part the sum of the parts after it, added from the right end. -/
def sumsAfter (parts : List Interval) : List Interval :=
  (parts.foldr (fun part (sums, acc) => (acc :: sums, acc + part)) ([], point 0.0)).1

/-- For each part an enclosure of the sum of all the others. -/
def sumsOfOthers (parts : List Interval) : List Interval :=
  List.zipWith (· + ·) (sumsBefore (point 0.0) parts) (sumsAfter parts)

end StatBounds.Interval
