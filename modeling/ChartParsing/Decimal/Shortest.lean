import ChartParsing.Decimal.Basic

/-!
# The shortest decimal of a double

Among the decimals that read back as a given double, the shortest one lies on the coarsest grid of
powers of ten. On a grid only the two neighbours of the double can be nearest to it, so each grid
needs two tests; where both neighbours read back, the nearer one is taken, and the greater one from
halfway. On the grid of `10 ^ -1074` every finite double is itself a point, which ends the search.
-/

namespace ChartParsing.Decimal

/-- How many points of the finest grid, `10 ^ -1074`, make one of the units of a double. -/
def pointsPerUnit : Nat := Nat.pow 5 Binary64.unitPower

/-- The point number `n` of the grid of `10 ^ (k - 1074)`. -/
def gridPoint (n k : Nat) : Decimal :=
  ⟨n, (k : Int) - Binary64.unitPower⟩

/-- The decimal of the double with magnitude `bits` on the coarsest grid up to number `k` that has
one; `scaled` is the double in points of the finest grid. -/
def coarsest (bits scaled : Nat) : Nat → Decimal
  | 0 => gridPoint scaled 0
  | k + 1 =>
    let step := Nat.pow 10 (k + 1)
    let below := gridPoint (scaled / step) (k + 1)
    let above := gridPoint (scaled / step + 1) (k + 1)
    match below.toBits == bits, above.toBits == bits with
    | true, true => if 2 * (scaled % step) < step then below else above
    | true, false => below
    | false, true => above
    | false, false => coarsest bits scaled k

/-- The number of a grid coarser than `scaled`: as `2 ^ 100000 < 10 ^ 30103`, so many steps
suffice. -/
def firstGrid (scaled : Nat) : Nat :=
  (scaled.log2 + 1) * 30103 / 100000 + 1

/-- The shortest decimal that reads back as the positive double with magnitude `bits`. -/
def shortest (bits : Nat) : Decimal :=
  let scaled := Binary64.unitsOfBits bits * pointsPerUnit
  coarsest bits scaled (firstGrid scaled)

end ChartParsing.Decimal
