import TensorToolchain.Tensor.Argument

/-!
# Curves of tuning quality

How a run of trials got better: the best score so far, the mean score, the share of top trials that
have been found, and the share of an unbroken run of ranks.
-/

namespace TensorToolchain.Tuning

open Number (Scalar)

def worstScore : Scalar := .float (-1e9)

def maxCurve : Scalar → List Scalar → List Scalar
  | _, [] => []
  | best, s :: rest =>
    let best := if best.less s then s else best
    best :: maxCurve best rest

def runningSums : Scalar → List Scalar → List Scalar
  | _, [] => []
  | total, s :: rest =>
    let total := total.combine (· + ·) (· + ·) s
    total :: runningSums total rest

def meanCurve (scores : List Scalar) : List Float :=
  (runningSums (.int 0) scores).zipIdx.map fun (s, i) => s.approx / .ofNat (i + 1)

variable (ranks : List Scalar)

def recallHits (i : Nat) : Nat := (ranks.take i).countP fun r => r.less (.int i) || r.equal (.int i)

def topHits (top : Scalar) (i : Nat) : Nat := (ranks.take i).countP (·.less top)

def recallShares (top : Option Scalar) : List (Nat × Scalar) :=
  (List.range ranks.length).map fun (i : Nat) =>
    match top with
    | none => (recallHits ranks i, .int (i + 1))
    | some t => (topHits ranks t i, t)

def recallCurve (top : Option Scalar) : List Float :=
  (recallShares ranks top).map fun (hits, whole) => .ofNat hits / whole.approx

/-- Extend an unbroken run `0, 1, …, covered - 1` of ranks by those that were seen. -/
def extendRun (seen : List Scalar) : Nat → Nat → Nat
  | 0, covered => covered
  | fuel + 1, covered => if seen.any fun r => r.equal (.int covered) then extendRun seen fuel (covered + 1) else covered

def coverCounts : List Scalar → Nat → List Scalar → List Nat
  | _, _, [] => []
  | seen, covered, r :: rest =>
    let seen := r :: seen
    let covered := extendRun seen seen.length covered
    covered :: coverCounts seen covered rest

def coverCurve : List Float := (coverCounts [] 0 ranks).map (.ofNat · / .ofNat ranks.length)

def sortedPositions (xs : List Scalar) : List Nat := (xs.zipIdx.mergeSort fun a b => !b.1.less a.1).map Prod.snd

def ranksOf (xs : List Scalar) : List Nat :=
  let order := sortedPositions (xs.map .neg)
  (List.range xs.length).map order.idxOf

/-- The mean recall of the first trials, taken in the order of their predicted scores. -/
def averageRecall (predicted labels : List Scalar) (n : Int) : Result Float := do
  let trials := (sortedPositions predicted).reverse
  let chosen ← trials.mapM fun i => orFail .badIndex labels[i]?
  let curve := recallCurve ((ranksOf chosen).map fun (r : Nat) => .int r) none
  let count := if n < 0 then (curve.length + n).toNat else n.toNat
  let sum := TypedTensor.total (.float 64) ((curve.take count).map .float)
  return sum.approx / Number.ofInt n

def curve (name : String) (values labels : List Scalar) (top : Option Scalar) (n : Int) : Result Report := do
  let floats := fun xs => .array [xs.length] "float64" (xs.map .float)
  match name with
  | "get_rank" => return .array [values.length] "int64" ((ranksOf values).map fun (r : Nat) => .int r)
  | "max_curve" | "ms_max_curve" => return floats ((maxCurve worstScore values).map Scalar.approx)
  | "mean_curve" => return floats (meanCurve values)
  | "recall_curve" => return floats (recallCurve values top)
  | "cover_curve" => return floats (coverCurve values)
  | "average_recall" => return .float (← averageRecall values labels n)
  | _ => fail .missingAttribute

end TensorToolchain.Tuning
