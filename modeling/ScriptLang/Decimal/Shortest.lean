import ScriptLang.Decimal

/-!
# The shortest decimal that reads back

A binary fraction `m · 2 ^ q` with a significand of 53 bits stands for an interval of reals: those
that are nearer to it than to its neighbours, with the ends of the interval if `m` is even.  On the
grid of multiples of `10 ^ k`, the two grid points around the value are tested in exact arithmetic.
The coarsest grid with a point inside the interval gives the fewest digits; of two such points the
nearer is taken, and of two equally near ones the larger.

Everything is measured in quarters of the last binary place: the value is `4 m`, the interval ends
at `4 m + 2` above and, below, at `4 m - 2`, or at `4 m - 1` where `m` is the smallest significand
and the neighbour below is nearer.
-/

namespace ScriptLang.Decimal

/-- The smallest significand with all its bits. -/
def leastSignificand : Nat := Nat.pow 2 52

/-- A binary fraction measured against the grid of multiples of a power of ten. -/
structure Grid where
  significand : Nat
  /-- What a quarter of the last binary place is multiplied with. -/
  unit : Nat
  /-- The distance of neighbouring grid points on the same scale. -/
  step : Nat

namespace Grid

/-- The fraction `m · 2 ^ q` against multiples of `10 ^ k`, scaled to whole numbers. -/
def of (m : Nat) (q k : Int) : Grid where
  significand := m
  unit := Nat.pow 2 (q - 2).toNat * Nat.pow 10 (-k).toNat
  step := Nat.pow 10 k.toNat * Nat.pow 2 (2 - q).toNat

/-- The value itself. -/
def value (g : Grid) : Nat := 4 * g.significand * g.unit

/-- The lower end of the interval. -/
def low (g : Grid) : Nat :=
  (4 * g.significand - if g.significand = leastSignificand then 1 else 2) * g.unit

/-- The upper end of the interval. -/
def high (g : Grid) : Nat := (4 * g.significand + 2) * g.unit

/-- Whether the `n`-th grid point lies in the interval. -/
def inside (g : Grid) (n : Nat) : Bool :=
  let x := n * g.step
  if g.significand % 2 = 0 then g.low ≤ x && x ≤ g.high else g.low < x && x < g.high

/-- The number of a grid point in the interval, the nearest if there is one. -/
def point? (g : Grid) : Option Nat :=
  let below := g.value / g.step
  let nearerBelow := 2 * (g.value % g.step) < g.step
  match g.inside below, g.inside (below + 1) with
  | true, true => some (if nearerBelow then below else below + 1)
  | true, false => some below
  | false, true => some (below + 1)
  | false, false => none

end Grid

/-- The first grid with a point in the interval, from the multiples of `10 ^ k` on to finer
ones. -/
def firstPoint (m : Nat) (q : Int) : Nat → Int → Decimal
  | 0, k => { digits := (Grid.of m q k).value / (Grid.of m q k).step, exponent := k }
  | n + 1, k =>
    match (Grid.of m q k).point? with
    | some digits => { digits := digits, exponent := k }
    | none => firstPoint m q n (k - 1)

/-- How many grids below the multiples of one a fraction may need. -/
def finestGrid : Nat := 345

/-- The decimal with the fewest digits that reads back as `m · 2 ^ q`. -/
def shortest (m : Nat) (q : Int) : Decimal :=
  let length := (toString (m * Nat.pow 2 q.toNat / Nat.pow 2 (-q).toNat)).length
  firstPoint m q (length + finestGrid) length

end ScriptLang.Decimal
