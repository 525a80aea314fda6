import TensorToolchain.Tensor.Argument

/-!
# Matrix, pooling and normalisation operators

Matrix products, dense layers, replaced diagonals, and recurrent layers.
-/

namespace TensorToolchain.Operator

open Tensor List ElementType TypedTensor

open Number (Scalar)

def matrixProduct (type : ElementType) (a b : Tensor Scalar) : Result (Tensor Scalar) :=
  match a.shape, b.shape with
  | [m, k], [k', n] =>
    if k == k' then
      .ok (ofFn [m, n] fun i => type.arithmetic.sum ((range k).map fun l =>
        type.mul (a.get [i.getD 0 0, l]) (b.get [l, i.getD 1 0])))
    else fail .badValue
  | _, _ => fail .badValue

def exchanged (a : Tensor Scalar) : Tensor Scalar := a.permute [1, 0]

def batchMatmul (x y : TypedTensor) (type transposeX transposeY : Argument) : Result TypedTensor := do
  demand (x.rank == 3 && y.rank == 3) .badValue
  let nx := x.dim 0
  let ny := y.dim 0
  let tx := transposeX.truthy
  let ty := transposeY.truthy
  let m := x.dim (if tx then 2 else 1)
  let n := y.dim (if ty then 1 else 2)
  let batch := max nx ny
  let type ← type.elementType x.type
  demand ((nx == batch || nx == 1) && (ny == batch || ny == 1)) .badIndex
  let a := x.cast type
  let b := y.cast type
  let parts ← (range batch).mapM fun i =>
    let p := a.body.sub [if nx == 1 then 0 else i]
    let q := b.body.sub [if ny == 1 then 0 else i]
    matrixProduct type (if tx then exchanged p else p) (if ty then exchanged q else q)
  return ⟨type, .stack [m, n] parts⟩

def dense (x y : TypedTensor) (bias useBias useCut type : Argument) : Result TypedTensor := do
  let type ← type.elementType x.type
  demand (y.rank == 2 && 1 ≤ x.rank) .badValue
  let lead := x.shape.dropLast
  let rows := { x.body with shape := volume lead :: x.shape.drop (x.rank - 1) }
  let p ← matrixProduct type (rows.map type.store) ((exchanged y.body).map type.store)
  let p : TypedTensor := ⟨type, { p with shape := lead ++ p.shape.drop 1 }⟩
  let p ← if useBias.truthy then
      match bias with
      | .tensor b => p.add b
      | .none => fail .badType
      | b => do return p.withScalar add (← b.scalar)
    else pure p
  return if useCut.truthy then
      { p with body := p.body.map (greater · p.type.zero) }
    else p

/-! ### Diagonals -/

/-- A write to the last two axes: row, column, and the index of its value. -/
structure DiagonalWrite where
  (row column : Int)
  value : List Int

def singleDiagonal (k : Int) (length : Nat) : List DiagonalWrite :=
  (range length).map fun (i : Nat) => if 0 ≤ k then ⟨i, i + k, [(i : Int)]⟩ else ⟨i - k, i, [(i : Int)]⟩

def diagonalBand (low high : Int) (rows cols length : Nat) (align : String) : List DiagonalWrite :=
  (range (high + 1 - low).toNat).flatMap fun (d : Nat) =>
    let k := low + d
    let count := min ((cols : Int) - max k 0) ((rows : Int) + min k 0)
    let right := if 0 ≤ k then align.startsWith "RIGHT" else align.endsWith "RIGHT"
    let shift := if right then (length : Int) - count else 0
    (range count.toNat).map fun (i : Nat) =>
      if 0 ≤ k then ⟨i, i + k, [high - k, i + shift]⟩ else ⟨i - k, i, [high - k, i + shift]⟩

def writeDiagonal (t v : Tensor Scalar) (type : ElementType) (writes : List DiagonalWrite) :
    Result (Tensor Scalar) := do
  let lead := t.shape.take (t.rank - 2)
  writes.foldlM (fun acc w => do
    let place ← positions (t.shape.drop (t.rank - 2)) [w.row, w.column]
    let source ← positions (v.shape.drop (v.rank - w.value.length)) w.value
    let vlead := v.shape.take (v.rank - w.value.length)
    let part := ofFn vlead fun i => type.store (v.get (i ++ source))
    let part ← part.spreadInto lead
    return .ofFn t.shape fun i =>
      if i.drop (t.rank - 2) == place then part.get (i.take (t.rank - 2)) else acc.get i) t

def setDiagonal (t v : TypedTensor) (k align : Argument) : Result TypedTensor := do
  demand (2 ≤ t.rank) .badIndex
  let cols := t.dim (t.rank - 1)
  let rows := t.dim (t.rank - 2)
  let length ← orFail .badIndex v.shape.getLast?
  let band : Sum Int (Int × Int) ← match k.items? with
    | none => do pure (.inl (← k.integer))
    | some [] => fail .badIndex
    | some [a] => do pure (.inl (← a.integer))
    | some (a :: b :: _) => do
      let a ← a.integer
      let b ← b.integer
      pure (if a == b then .inl a else .inr (a, b))
  let writes ← match band with
    | .inl k => pure (singleDiagonal k length)
    | .inr (a, b) =>
      match align with
      | .text s => pure (diagonalBand a b rows cols length s)
      | _ => fail .badType
  return ⟨t.type, ← writeDiagonal t.body v.body t.type writes⟩

/-! ### Recurrent layers -/

variable (w : PoolWindow) (x : TypedTensor)

def sigmoid : TypedTensor := ((x.mapReal fun v => .exp (-v)).mapReal (1.0 + ·)).mapReal (1.0 / ·)

def activation (a : Argument) : Result (TypedTensor → TypedTensor) :=
  match a with
  | .text "sigmoid" => .ok sigmoid
  | .text "tanh" => .ok (·.mapReal .tanh)
  | _ => fail .missingKey

/-- The place of a gate in the order of the weights; a missing gate means the last. -/
def gateAt (order : String) (gate : Char) : Nat :=
  let i := order.toList.idxOf gate
  if i < order.length then i else 3

def timesTransposed (a b : TypedTensor) : Result TypedTensor := do
  let type := a.type.join b.type
  return ⟨type, ← matrixProduct type a.body (exchanged b.body)⟩

def partAt (t : TypedTensor) (i : Nat) : TypedTensor := ⟨t.type, t.body.sub [i]⟩

def addOptional (a : TypedTensor) (b : Option TypedTensor) : Result TypedTensor :=
  match b with
  | some b => a.add b
  | none => .ok a

structure Recurrent where
  inputWeights : TypedTensor
  hiddenWeights : TypedTensor
  inputBias : Option TypedTensor
  (hiddenBias projection peepInput peepForget peepOutput : Option TypedTensor)
  (gate cell : TypedTensor → TypedTensor)
  hidden : TypedTensor → TypedTensor
  order : String

def Recurrent.gateSum (r : Recurrent) (x h : TypedTensor) (g : Nat) : Result TypedTensor := do
  let a ← addOptional (← timesTransposed x (partAt r.inputWeights g)) (r.inputBias.map (partAt · g))
  let b ← addOptional (← timesTransposed h (partAt r.hiddenWeights g)) (r.hiddenBias.map (partAt · g))
  a.add b

def withPeephole (sum cell : TypedTensor) (weights : Option TypedTensor) : Result TypedTensor :=
  match weights with
  | some p => do sum.add (← p.mul cell)
  | none => .ok sum

def Recurrent.step (r : Recurrent) (x h c : TypedTensor) : Result (TypedTensor × TypedTensor) := do
  let sums ← (range 4).mapM (r.gateSum x h)
  let sum := fun gate => sums.getD (gateAt r.order gate) default
  let both := r.peepInput.isSome && r.peepForget.isSome
  let i ← withPeephole (sum 'I') c (if both then r.peepInput else none)
  let f ← withPeephole (sum 'F') c (if both then r.peepForget else none)
  let g := r.cell (sum 'G')
  let next ← (← (r.gate f).mul c).add (← (r.gate i).mul g)
  let o ← withPeephole (sum 'O') next r.peepOutput
  let hidden ← (r.gate o).mul (r.hidden next)
  match r.projection with
  | some p => return (← timesTransposed hidden p, next)
  | none => return (hidden, next)

def stackTyped (parts : List TypedTensor) : Result TypedTensor :=
  match parts with
  | [] => fail .badValue
  | p :: _ =>
    let type := parts.foldl (fun t q => t.join q.type) p.type
    .ok ⟨type, .stack p.shape (parts.map (·.body.map type.store))⟩

def Recurrent.run (r : Recurrent) (inputs : List TypedTensor) (h c : TypedTensor) :
    Result (TypedTensor × TypedTensor) := do
  let (_, _, hs, cs) ← inputs.foldlM (fun (h, c, hs, cs) x => do
    let (h, c) ← r.step x h c
    return (h, c, hs ++ [h], cs ++ [c])) (h, c, [], [])
  return (← stackTyped hs, ← stackTyped cs)

def recurrent : List Argument → Result (TypedTensor × TypedTensor)
  | [xs, wi, wh, bi, bh, hInit, cInit, proj, pi, pf, po, fAct, gAct, hAct, reverse, order] => do
    let order ← match order with
      | .text s => pure s
      | _ => fail .missingAttribute
    let gate ← activation fAct
    let cell ← activation gAct
    let hidden ← activation hAct
    let xs ← xs.asTensor
    demand (xs.rank == 3) .badValue
    let wi ← wi.asTensor
    let wh ← wh.asTensor
    let (s, b, f) := (xs.dim 0, xs.dim 1, xs.dim 2)
    let size := wi.dim 0 / 4
    demand (1 < wh.rank && 0 < wi.rank) .badIndex
    let out := wh.dim 1
    let wi ← wi.reshape [4, size, f]
    let wh ← wh.reshape [4, size, out]
    let bi ← (← bi.asTensor?).mapM (·.reshape [4, size])
    let bh ← (← bh.asTensor?).mapM (·.reshape [4, size])
    let single : ElementType := .float 32
    let h ← hInit.asTensor?
    let c ← cInit.asTensor?
    let layer : Recurrent := ⟨wi, wh, bi, bh, ← proj.asTensor?, ← pi.asTensor?, ← pf.asTensor?,
      ← po.asTensor?, gate, cell, hidden, order⟩
    let steps := (range s).map (partAt xs)
    layer.run (if reverse.truthy then steps.reverse else steps) (h.getD (.constant single [b, out] (.int 0)))
      (c.getD (.constant single [b, size] (.int 0)))
  | _ => fail .badType

/-! ### Pooling and normalisation operators

Pooling to a given output size, and the gradient of pooling with a window.
-/

def startIndex (i m n : Nat) : Nat := i * n / m

def endIndex (i m n : Nat) : Nat := ((i + 1) * n + m - 1) / m

/-- Reduce the box of the input that belongs to each output position. `at'` gives the element of
one image at a spatial index. -/
def adaptiveBox (type : ElementType) (average : Bool) (sizes outs : List Nat)
    (at' : List Nat → Scalar) (o : List Nat) : Result Scalar :=
  let ranges := (sizes.zipIdx).map fun (n, a) =>
    match outs[a]? with
    | some m =>
      let s := startIndex (o.getD a 0) m n
      (s, min (endIndex (o.getD a 0) m n) n - s)
    | none => (0, n)
  let box := (indices (ranges.map (·.2))).map fun i => at' ((ranges.zip i).map fun ((s, _), p) => s + p)
  if average then
    let real := type.real
    .ok (type.store (TypedTensor.average real (total real) box))
  else greatest box

def adaptivePool (size kind layout : Argument) : Result TypedTensor := do
  let (outs, isTuple) ← match size with
    | .tuple xs => do pure (← xs.mapM Argument.integer, true)
    | .list xs => do pure (← xs.mapM Argument.integer, false)
    | a => do pure ([← a.integer], true)
  require (outs.length == 1 || outs.length == 2 || outs.length == 3) .failedCheck ""
  let average := kind.isText "avg"
  let first := ["NCW", "NCHW", "NCDHW"].any layout.isText
  let last := ["NWC", "NHWC", "NDHWC"].any layout.isText
  require (first || last) .failedCheck ""
  demand isTuple .badType
  demand (outs.all (0 ≤ ·)) .badValue
  demand (2 ≤ x.rank) .badValue
  demand (outs.length + 2 ≤ x.rank) .badIndex
  let outs := outs.map Int.toNat
  let n := x.dim 0
  if first then
    let sizes := x.shape.drop 2
    let body ← ofFnM (n :: x.dim 1 :: outs) fun i =>
      adaptiveBox x.type average sizes outs (fun s => x.body.get (i.take 2 ++ s)) (i.drop 2)
    return ⟨x.type, body⟩
  else
    let sizes := (x.shape.drop 1).dropLast
    let c := x.shape.getLastD 0
    let body ← ofFnM (n :: outs ++ [c]) fun i =>
      let channel := i.getLastD 0
      adaptiveBox x.type average sizes outs (fun s => x.body.get (i.take 1 ++ s ++ [channel])) ((i.drop 1).dropLast)
    return ⟨x.type, body⟩

/-! ### Gradient of pooling -/

structure PoolWindow where
  (kernel strides : Nat × Nat)
  /-- Padding before height and width. -/
  before : Nat × Nat
  /-- Height and width of the padded input. -/
  padded : Nat × Nat

/-- The rows and columns of the padded input in the window at an output position. -/
def PoolWindow.cells (i j : Nat) : List (Nat × Nat) :=
  let places := fun count start bound => ((range count).map (start + ·)).filter (· < bound)
  (places w.kernel.1 (i * w.strides.1) w.padded.1).flatMap fun p =>
    (places w.kernel.2 (j * w.strides.2) w.padded.2).map fun q => (p, q)

def PoolWindow.input (n c p q : Nat) : Scalar :=
  let (t, l) := w.before
  if t ≤ p && p - t < x.dim 2 && l ≤ q && q - l < x.dim 3 then
    x.body.get [n, c, p - t, q - l]
  else x.type.zero

def firstGreatest (xs : List Scalar) : Nat :=
  (xs.zipIdx.foldl (fun best (s, i) =>
    match best with
    | none => some (s, i)
    | some (b, k) => if less b s then some (s, i) else some (b, k)) none).elim 0 (·.2)

/-- Where the gradient of an output position goes when the greatest element is pooled. -/
def PoolWindow.target (n c i j : Nat) : Result (Nat × Nat) := do
  let cells := w.cells i j
  if cells.isEmpty then fail .badValue
  let best := firstGreatest (cells.map fun (p, q) => w.input x n c p q)
  let row := best / w.kernel.2
  let col := best % w.kernel.2
  let rows := min w.kernel.1 (w.padded.1 - i * w.strides.1)
  let cols := min w.kernel.2 (w.padded.2 - j * w.strides.2)
  if row < rows && col < cols then return (i * w.strides.1 + row, j * w.strides.2 + col)
  else fail .badIndex

/-- The amounts that flow back: image, channel, padded row and column, and the amount, in order. -/
abbrev Flow := List ((Nat × Nat × Nat × Nat) × Scalar)

def averageFlow (x grad : TypedTensor) (countPadding : Bool) : Flow :=
  (indices (grad.shape.drop 2)).flatMap fun o =>
    let (i, j) := (o.getD 0 0, o.getD 1 0)
    let cells := w.cells i j
    let count := if countPadding then cells.length
      else (cells.filter fun (p, q) => less x.type.zero (w.input x 0 0 p q)).length
    (indices (x.shape.take 2)).flatMap fun nc =>
      let (n, c) := (nc.getD 0 0, nc.getD 1 0)
      let share := double.div (grad.body.get [n, c, i, j]) (.int (max count 1))
      cells.map fun (p, q) => ((n, c, p, q), share)

def maxFlow (x grad : TypedTensor) : Result Flow := do
  let parts ← (indices (grad.shape.drop 2)).mapM fun o => do
    let (i, j) := (o.getD 0 0, o.getD 1 0)
    (indices (x.shape.take 2)).mapM fun nc => do
      let (n, c) := (nc.getD 0 0, nc.getD 1 0)
      let (p, q) ← w.target x n c i j
      return ((n, c, p, q), grad.body.get [n, c, i, j])
  return parts.flatten

def poolGradient (x grad : TypedTensor) (size strides padding kind countPadding : Argument) : Result TypedTensor := do
  demand (x.rank == 4) .badValue
  match ← size.unpack 2, ← strides.unpack 2, ← padding.unpack 4 with
  | [kh, kw], [sh, sw], [pt, pl, pb, pr] =>
    demand (grad.rank == 4) .badValue
    demand ([kh, kw, sh, sw, pt, pl, pb, pr].all (0 ≤ ·)) .badValue
    let (h, w) := (x.dim 2, x.dim 3)
    let window : PoolWindow := ⟨(kh.toNat, kw.toNat), (sh.toNat, sw.toNat), (pt.toNat, pl.toNat),
      (h + pt.toNat + pb.toNat, w + pl.toNat + pr.toNat)⟩
    demand (grad.shape.take 2 == x.shape.take 2) .badValue
    let flow ←
      if kind.isText "avg" then pure (averageFlow window x grad countPadding.truthy)
      else if kind.isText "max" then maxFlow window x grad
      else pure []
    return ⟨double, .ofFn x.shape fun i =>
      let key := (i.getD 0 0, i.getD 1 0, i.getD 2 0 + window.before.1, i.getD 3 0 + window.before.2)
      (flow.filterMap fun (k, s) => if k == key then some s else none).foldl double.add double.zero⟩
  | _, _, _ => fail .badValue

/-! ### Normalisation operators

Normalisation by batch statistics, by the statistics along axes, by length and by neighbouring
channels, and the soft maximum.
-/

/-- The axes that an argument names: one of them, or a tuple; none means all. -/
def axesArgument (rank : Nat) (a : Argument) : Result (List Nat) :=
  match a with
  | .none => .ok (.range rank)
  | .tuple _ => do axesOf rank (← a.integers)
  | _ => do axesOf rank [← a.integer]

def batchNorm (x mean var : TypedTensor) (gamma beta axis epsilon center scale : Argument) :
    Result (List TypedTensor) := do
  let ones := replicate x.rank 1
  let a ← position x.rank (← axis.integer)
  let shape := replaceAt ones a (x.dim a)
  let m ← mean.reshape shape
  let v ← var.reshape shape
  let deviation := (v.withScalar add (← epsilon.scalar)).mapReal .sqrt
  let out ← (← x.sub m).div deviation
  let out ← if scale.truthy then do out.mul (← (← gamma.asTensor).reshape shape) else pure out
  let out ← if center.truthy then do out.add (← (← beta.asTensor).reshape shape) else pure out
  return [out, mean, var]

def variance (axes : List Nat) : Result TypedTensor := do
  let d ← x.sub (← x.meanAlong axes)
  (← d.mul d).meanAlong axes

def layerNorm (x gamma : TypedTensor) (beta axis epsilon : Argument) : Result TypedTensor := do
  let axes ← axesArgument x.rank axis
  let mean ← x.meanAlong axes
  let var ← variance x axes
  let deviation := (var.withScalar add (← epsilon.scalar)).mapReal .sqrt
  let r ← (← x.sub mean).div deviation
  let inPlace := fun op r g => do
    let spread ← g.body.spread r.shape
    return ⟨r.type, ← r.body.zipWith (op r.type) spread⟩
  let r ← inPlace ElementType.mul r gamma
  match ← beta.asTensor? with
  | some b => inPlace add r b
  | none => return r

def lengthNormalize (eps axis : Argument) : Result TypedTensor := do
  let eps ← eps.real
  let squares := x.mapReal fun v => v * v
  let axes ← axesArgument x.rank axis
  let sums ← squares.sumAlong axes
  let floor := fun v => (greater (.float v) (.float eps)).approx
  let lengths := sums.mapReal fun v => .sqrt (roundFloat
    (match sums.type with | .float b => b | _ => 64) (floor v))
  x.div lengths

/-- The elements less the greatest along an axis, and their exponentials' sums. -/
def softParts (axis : Argument) : Result (TypedTensor × TypedTensor × TypedTensor) := do
  let axes ← axesArgument x.rank axis
  let shifted ← x.sub (← x.maxAlong axes)
  let e := shifted.mapReal .exp
  return (shifted, e, ← e.sumAlong axes)

def softmax (axis : Argument) : Result TypedTensor := do
  let (_, e, sums) ← softParts x axis
  e.div sums

def logSoftmax (axis : Argument) : Result TypedTensor := do
  let (shifted, _, sums) ← softParts x axis
  shifted.sub (sums.mapReal .log)

def localResponse (size axis bias alpha beta : Argument) : Result TypedTensor := do
  let n ← size.integer
  let radius := n.fdiv 2
  demand (x.rank == 4 || volume x.shape == 0) .badValue
  let axis ← axis.integer
  let length ← if volume x.shape == 0 then pure 0
    else do pure (x.shape.getD (← position x.rank axis) 0)
  let sums := ofFn x.shape fun i =>
    if axis == 1 || axis == 3 then
      let a := axis.toNat
      let j : Int := i.getD a 0
      let start := max (j - radius) 0
      let stop := min (j + radius + 1) length
      let squares := (range (stop - start).toNat).map fun d =>
        let v := x.body.get (replaceAt i a (start.toNat + d))
        x.type.mul v v
      x.type.store (squares.foldl (x.type.join (.int 64)).add (.int 0))
    else x.type.zero
  let bias ← bias.scalar
  let alpha ← alpha.scalar
  let beta ← beta.real
  let scaled := (⟨x.type, sums⟩ : TypedTensor).withScalar mul alpha
  let shared := scaled.mapReal (· / Number.ofInt n)
  let base := shared.withScalar add bias
  x.div (base.mapReal (.pow · beta))

end TensorToolchain.Operator
