import TensorToolchain.Report

/-!
# Fast convolution by interpolation

The matrices `A`, `B` and `G` of the algorithm that computes `n` outputs of a convolution with `r`
weights by `n + r - 1` products: with `*` taken entry by entry, the outputs are `Aᵀ ((G g) * (Bᵀ
d))`. They are built from distinct interpolation points.
-/

namespace TensorToolchain.Winograd

open List

structure Numbers (α : Type) where
  (zero one : α)
  (add sub mul div : α → α → α)
  negative : α → Bool

variable {α : Type}

namespace Numbers

variable (k : Numbers α)

def neg (a : α) : α := k.sub k.zero a

def pow (k : Numbers α) (a : α) : Nat → α
  | 0 => k.one
  | n + 1 => k.mul (k.pow a n) a

def product (xs : List α) : α := xs.foldl k.mul k.one

def sum (xs : List α) : α := xs.foldl k.add k.zero

def timesRoot (p : List α) (a : α) : List α :=
  let shifted := k.zero :: p
  let scaled := p.map (k.mul a) ++ [k.zero]
  .zipWith k.sub shifted scaled

def fromRoots (points : List α) : List α := points.foldl k.timesRoot [k.one]

end Numbers

def others (points : List α) (i : Nat) : List α := points.eraseIdx i

variable [Inhabited α] (k : Numbers α) (points : List α)

def difference (i : Nat) : α := k.product ((others points i).map (k.sub (points.getD i default) ·))

/-- The scale of each row: the product of differences, made positive in the first row, and one for
the point at infinity. -/
def scales : List α :=
  ((range points.length).map fun i =>
    let f := difference k points i
    if i == 0 && k.negative f then k.neg f else f) ++ [k.one]

/-- The powers of each point, and a row that picks the leading coefficient. -/
def evaluation (columns : Nat) : List (List α) :=
  (points.map fun a => (range columns).map (k.pow a)) ++
    [(range columns).map fun j => if j + 1 == columns then k.one else k.zero]

def basis (i power : Nat) : α := k.div ((k.fromRoots (others points i)).getD power k.zero) (difference k points i)

def interpolation : List (List α) :=
  let m := points.length
  ((range m).map fun row =>
    ((range m).map (basis k points · row)) ++ [k.sum ((range m).map fun i =>
        k.mul (basis k points i row) (k.neg (k.pow (points.getD i default) m)))]) ++
    [(range (m + 1)).map fun j => if j == m then k.one else k.zero]

structure Matrices (α : Type) where (a b g : List (List α))

/-- The matrices for `n` outputs and `r` weights, from the first `n + r - 2` points. -/
def matrices (n r : Nat) : Matrices α :=
  let points := points.take (n + r - 2)
  let f := scales k points
  { a := evaluation k points n
    b := (interpolation k points).map (.zipWith k.mul · f)
    g := .zipWith (fun row s => row.map (k.mul · (k.div k.one s))) (evaluation k points r) f }

/-! ### Interpolation points -/

/-- The interpolation points as ratios that the larger degrees start with. -/
def commonPoints : List (Int × Nat) := [(0, 1), (-1, 1), (1, 1), (1, 2), (-1, 2), (2, 1), (-2, 1), (-1, 4)]

def pointTable : List (List (Int × Nat)) :=
  [commonPoints.take 3, commonPoints.take 4, commonPoints.take 4 ++ [(-2, 1)],
    commonPoints.take 4 ++ [(-2, 1), (-1, 2)], commonPoints.take 7] ++ .map (commonPoints ++ ·) [
  [],
  [(4, 1)],
  [(3, 4), (-4, 3)],
  [(4, 1), (3, 4), (-4, 3)],
  [(4, 1), (3, 4), (-4, 3), (1, 4)],
  [(4, 1), (1, 4), (-3, 4), (4, 3), (-4, 1)],
  [(4, 1), (1, 4), (-3, 4), (4, 3), (3, 4), (-4, 3)],
  [(4, 1), (1, 4), (-3, 4), (4, 3), (-4, 1), (3, 4), (-4, 3)],
  [(4, 1), (1, 4), (-3, 4), (4, 3), (-4, 1), (2, 3), (-3, 2), (3, 2)],
  [(4, 1), (1, 4), (-3, 4), (4, 3), (-4, 1), (2, 3), (-3, 2), (-2, 3), (3, 2)]]

def pointsFor (degree : Int) : Result (List Float) := do
  require (decide (2 < degree ∧ degree < 18)) .failedCheck ""
  return (pointTable.getD (degree.toNat - 3) []).map fun (n, d) => Number.ofRatio n d

def realNumbers : Numbers Float where
  zero := 0.0
  one := 1.0
  add := (· + ·)
  sub := (· - ·)
  mul := (· * ·)
  div := (· / ·)
  negative := (· < 0.0)

def matricesFor (tile kernel : Int) : Result (Matrices Float) := do
  require (decide (1 < tile ∧ tile < 9)) .badValue ("Unsupported tile size for Winograd: " ++ toString tile)
  require (decide (2 < kernel ∧ kernel < 8)) .badValue ("Unsupported kernel size for Winograd: " ++ toString kernel)
  let points ← pointsFor (tile + kernel - 2)
  return matrices realNumbers points tile.toNat kernel.toNat

/-- The report of a matrix in which magnitudes below a billionth count as zero. -/
def matrixReport (rows : List (List Float)) : Report :=
  let cells := rows.flatten.map fun x => .float (if x.abs < 1e-9 then 0.0 else x)
  .array [rows.length, (rows.headD []).length] "float64" cells

def Matrices.report (m : Matrices Float) : Report := .list [matrixReport m.a, matrixReport m.b, matrixReport m.g]

end TensorToolchain.Winograd
