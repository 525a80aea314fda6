import TensorToolchain.Tensor.Argument

/-!
# Arrangement and selection operators

Operators that only move elements: blocks of space, batch and depth, dilation and reorganisation.
-/

namespace TensorToolchain.Operator

open Tensor List Int

open Number (Scalar)

def naturals (ns : List Int) : Result (List Nat) := if ns.all (0 ≤ ·) then .ok (ns.map toNat) else fail .badValue

def spaceToBatch (x : TypedTensor) (block before after fill : Argument) : Result TypedTensor := do
  let block ← naturals (← block.integers)
  let before ← naturals (← before.integers)
  let after ← naturals (← after.integers)
  let fill ← fill.scalar
  x.arrange (Tensor.spaceToBatch (x.type.store fill) · block before after)

def batchToSpace (x : TypedTensor) (block cropBefore cropAfter : Argument) : Result TypedTensor := do
  let block ← naturals (← block.integers)
  let before ← cropBefore.integers
  let after ← cropAfter.integers
  x.arrange (Tensor.batchToSpace · block before after)

def natural (n : Int) : Result Nat := if 0 ≤ n then .ok n.toNat else fail .badValue

def spaceToDepth (x : TypedTensor) (block : Argument) : Result TypedTensor := do
  let b ← natural (← block.integer)
  x.arrange (Tensor.spaceToDepth · b)

def depthToSpace (x : TypedTensor) (block mode : Argument) : Result TypedTensor := do
  let b ← natural (← block.integer)
  x.arrange (Tensor.depthToSpace · b (mode.isText "DCR"))

def dilate (x : TypedTensor) (strides fill type : Argument) : Result TypedTensor := do
  let strides ← strides.integers
  require (x.rank == strides.length) .failedCheck
    ("Input dimension and strides size dismatch : " ++ toString x.rank ++ " vs " ++ toString strides.length)
  let type ← type.elementType x.type
  let sizes : List Int := (x.shape.zip strides).map fun (n, s) => ((n : Int) - 1) * s + 1
  demand (strides.all (· != 0)) .badValue
  demand (sizes.all (0 ≤ ·)) .badValue
  let fill := type.store (← fill.scalar)
  if strides.all (0 < ·) && x.shape.all (0 < ·) then
    return ⟨type, (x.body.map type.store).dilate fill (strides.map toNat)⟩
  else if (x.shape.zip strides).all fun (n, s) => 0 < s || n ≤ 1 then
    return ⟨type, .full (sizes.map toNat) fill⟩
  else fail .badValue

def reorganize (x : TypedTensor) (stride : Argument) : Result TypedTensor := do
  demand (x.rank == 4) .badValue
  let s ← stride.integer
  demand (s != 0) .zeroDivision
  demand (0 < s) .badValue
  let s := s.toNat
  let (n, c, h, w) := (x.dim 0, x.dim 1, x.dim 2, x.dim 3)
  let groups := c / (s * s)
  let count := n * c * h * w
  if 0 < count then demand (groups != 0) .zeroDivision
  let shape := [n, c * s * s, h / s, w / s]
  let places := (indices [n, c, h, w]).map fun i =>
    let (b, k, j, p) := (i.getD 0 0, i.getD 1 0, i.getD 2 0, i.getD 3 0)
    let part := k / groups
    let column := p * s + part % s
    let row := (j * s * s + part) / s
    column + w * s * (row + h * s * (k % groups + groups * b))
  demand (places.all (· < count)) .badIndex
  demand (count ≤ volume shape) .badIndex
  let data := places.map (x.body.data.getD · default)
  let rest := replicate (volume shape - count) (.int 0)
  return (⟨x.type, ⟨shape, (data ++ rest).toArray⟩⟩ : TypedTensor).cast (.float 64)

/-! ### Selection operators

Operators that pick elements by index, by range or by comparison.
-/

def indexOf (type : ElementType) (s : Scalar) : Result Int :=
  match type, s with
  | .float _, _ => fail .badIndex
  | _, .int n => .ok n
  | _, .float _ => fail .badIndex

def gather (data : TypedTensor) (axis : Argument) (indices : TypedTensor) : Result TypedTensor := do
  let a ← axis.integer
  let body ← ofFnM indices.shape fun i => do
    let place ← position i.length a
    let p ← indexOf indices.type (indices.body.get i)
    let index := replaceAt (i.map .ofNat) place p
    let found ← positions data.shape index
    if found.length == data.rank then return data.body.get found else fail .badValue
  return ⟨data.type, body⟩

def gatherParts (data indices : TypedTensor) : Result TypedTensor := do
  let indices := indices.cast (.int 32)
  require (1 < indices.rank) .failedCheck ""
  let depth := indices.dim 0
  require (depth ≤ data.rank) .failedCheck ""
  let lead := indices.shape.drop 1
  let body ← ofFnM (lead ++ data.shape.drop depth) fun i => do
    let at' := i.take lead.length
    let place ← (List.range depth).mapM fun k => indexOf indices.type (indices.body.get (k :: at'))
    let found ← positions data.shape place
    return data.body.get (found ++ i.drop lead.length)
  return (⟨data.type, body⟩ : TypedTensor).cast (.float 64)

def oneHot (indices : TypedTensor) (on off depth axis type : Argument) : Result TypedTensor := do
  let rank := indices.rank + 1
  let a ← axis.integer
  let place := if a == -1 then (indices.rank : Int) else a
  let depth ← depth.integer
  if place < 0 || rank ≤ place then fail .badIndex
  let p := place.toNat
  demand (0 ≤ depth) .badValue
  let shape := indices.shape.take p ++ [depth.toNat] ++ indices.shape.drop p
  let type ← match type with
    | .none => pure (.float 64)
    | t => t.elementType (.float 64)
  let on ← on.scalar
  let off ← off.scalar
  let body := .ofFn shape fun i =>
    let k : Int := i.getD p 0
    let s := indices.body.get (i.eraseIdx p)
    let hit := match s with
      | .int n => n == k
      | .float x => x == Number.ofInt k
    type.store (.float (if hit then on else off).approx)
  return ⟨type, body⟩

def negativeLogLikelihood (predictions targets weights : TypedTensor) (reduction ignored : Argument) :
    Result Report := do
  let ty := predictions.type.join weights.type
  let cells ← (indices targets.shape).mapM fun i => do
    let s := targets.body.get i
    let skip := match s, ignored.scalar? with
      | .int m, some (.int n) => m == n
      | s, some t => s.approx == t.approx
      | _, none => false
    if skip then return (.float 0.0, none)
    else
      let c ← indexOf targets.type s
      let index := (i.take 1).map .ofNat ++ [c] ++ (i.drop 1).map .ofNat
      let found ← positions predictions.shape index
      demand (found.length == predictions.rank) .badValue
      let p := predictions.body.get found
      let w ← weights.body.at? [c]
      return (ty.mul (predictions.type.store p.neg) w, some w)
  let values := cells.map fun (v, _) => double.store v
  let sum := TypedTensor.total double values
  if reduction.isText "mean" then
    let weight := (cells.filterMap (·.2)).foldl double.add double.zero
    return .float (sum.approx / weight.approx)
  else if reduction.isText "sum" then return .float sum.approx
  else return toReport (⟨double, ⟨targets.shape, values.toArray⟩⟩ : TypedTensor)

/-- The number of leading elements of a sorted row that a value comes after. -/
def insertionPoint (row : List Scalar) (v : Scalar) (right : Bool) : Nat :=
  (row.takeWhile fun r => if right then !ElementType.less v r else ElementType.less r v).length

def searchSorted (sorted values : TypedTensor) (right type : Argument) : Result TypedTensor := do
  let n ← orFail .badIndex values.shape.getLast?
  let shared := sorted.rank == 1 && 1 < values.rank
  let m ← orFail .badIndex sorted.shape.getLast?
  let type ← type.elementType (.float 64)
  let rows := if m == 0 then 0 else sorted.body.data.size / m
  demand (n == 0 || shared || values.body.data.size / n ≤ rows) .badIndex
  return ⟨type, ⟨values.shape, (((List.range values.body.data.size).map fun k =>
    let row := if shared then 0 else k / n
    let line := (List.range m).map fun j => sorted.body.data.getD (row * m + j) default
    type.store (.int (insertionPoint line (values.body.data.getD k default) right.truthy)))).toArray⟩⟩

def sequenceMask (data lengths : TypedTensor) (value axis : Argument) : Result TypedTensor := do
  let a ← position data.rank (← axis.integer)
  let other ← position data.rank (1 - (← axis.integer))
  let ones := replicate data.rank 1
  let lengths ← lengths.reshape (replaceAt ones other (data.dim other))
  let value ← value.scalar
  let kept := data.type.join (.int 64)
  let type := kept.join (match value with | .int _ => .int 64 | .float _ => .float 64)
  let body := .ofFn data.shape fun i =>
    let masked := !ElementType.less (.int (i.getD a 0)) (lengths.body.spreadGet i)
    let m : Scalar := .int (if masked then 1 else 0)
    type.add (kept.mul (data.body.get i) (.int (if masked then 0 else 1)))
      (type.store (value.combine (· * ·) (· * ·) m))
  return ⟨type, body⟩

def sliceAxis (data : TypedTensor) (axis begin stop : Argument) : Result TypedTensor := do
  let a ← axis.integer
  let a := if a < 0 then a + data.rank else a
  let b ← begin.integer
  let e ← stop.integer
  let p ← position data.rank a
  let n : Int := data.dim p
  let b := if b < 0 then b + n else b
  let e := if e ≤ 0 then e + n else e
  let slices : List AxisSlice := (List.range data.rank).map fun i => if i == p then ⟨some b, some e, none⟩ else {}
  data.arrange (·.slice slices)

def integersOrNone (a : Argument) : Result (List Int) :=
  match a with
  | .none => .ok []
  | _ => a.integers

/-- The part that begins, ends or sizes and strides select, for all axes or for given ones. -/
def stridedSlice (data : TypedTensor) (begin stop strides mode axes : Argument) : Result TypedTensor := do
  let strides ← integersOrNone strides
  let begins ← begin.integers
  let ends ← stop.integers
  let (begins, ends, strides) ← match axes with
    | .none => pure (begins, ends, strides)
    | _ => do
      let axes ← axes.integers
      pure (← overAxes (replicate data.rank 0) begins axes true,
        ← overAxes (data.shape.map .ofNat) ends axes true,
        ← overAxes (.replicate data.rank 1) strides axes false)
  let mode := if mode.isText "end" then .stop else if mode.isText "size" then .size else .unknown
  data.arrange (·.stridedSlice begins ends strides mode)

def stridedSet (data : TypedTensor) (value begin stop strides : Argument) : Result TypedTensor := do
  let strides ← integersOrNone strides
  let begins ← begin.integers
  let ends ← stop.integers
  let v ← match value with
    | .tensor v => pure (v.cast data.type).body
    | v => do pure (.full [] (data.type.store (← v.scalar)))
  data.arrange (·.stridedSet v begins ends strides)

/-! ### Convolution operators

Convolutions of typed tensors with strides, paddings, dilations and groups, in the usual layouts,
their transposes, and the gradient with respect to the weights.
-/

structure ConvStyle where
  /-- The number of spatial axes. -/
  axes : Nat
  /-- Whether the result is stored in double precision. -/
  wideResult : Bool
  /-- Whether a padded input is stored in double precision. -/
  widePadding : Bool
  /-- Whether the input is always copied into the padded one. -/
  alwaysPads : Bool := false
  /-- Whether windows that are smaller than the kernel along some axes only are accepted. -/
  acceptsMixed : Bool := false

variable (x w : TypedTensor) (stride padding groups : Argument)

def requireRank (rank : Nat) : Result Unit := do
  demand (x.rank == rank) .badValue
  demand (w.rank == rank) .badValue

def spatial (t : TypedTensor) : List Int := (t.shape.drop 2).map .ofNat

def outputSizes (sizes kernel padding strides : List Int) : Result (List Int) :=
  (sizes.zip (kernel.zip (padding.zip strides))).mapM fun (n, k, p, s) =>
    if s == 0 then fail .zeroDivision else .ok ((n - k + p).fdiv s + 1)

/-- Check that the window counts of a convolution fit into its result. Along each axis there are
the size of the padded input, the size of the kernel, the stride and the count of the result. -/
def checkWindows (acceptsMixed : Bool) (axes : List (Int × Int × Int × Int)) : Result Unit :=
  if axes.all fun (p, k, _, _) => k ≤ p then
    demand (axes.all fun (p, k, s, out) => let n := (p - k).fdiv s + 1; n == out || n == 1) .badValue
  else if axes.all fun (p, k, _, _) => p ≤ k then
    demand (axes.all fun (p, k, s, _) => p == k || k - p + 1 ≤ s) .badValue
  else demand (acceptsMixed && axes.all fun (p, k, _, _) => k ≤ p + 1) .badValue

def convolution (style : ConvStyle) (x w : TypedTensor) (strides : List Int)
    (before after : List Int) : Result TypedTensor := do
  let sizes := spatial x
  let kernel := spatial w
  let totals := zipWith (· + ·) before after
  let outs ← outputSizes sizes kernel totals strides
  let result := if style.wideResult then double else x.type
  demand (outs.all (0 ≤ ·)) .badValue
  let pads := style.alwaysPads || totals.any (0 < ·)
  if pads then
    demand ((before ++ after).all (0 ≤ ·)) .badValue
  demand (strides.all (0 < ·)) .badValue
  let runs := 0 < x.dim 0 && 0 < x.dim 1 && 0 < w.dim 0
  if runs then
    demand (x.dim 1 ≤ w.dim 1) .badIndex
    let padded := if pads then zipWith (· + ·) sizes totals else sizes
    checkWindows style.acceptsMixed (padded.zip (kernel.zip (strides.zip outs)))
  let source := if style.alwaysPads || (pads && style.widePadding) then double else x.type
  let inner := (source.join w.type).arithmetic
  let first := if pads then before.map (- ·) else before.map fun _ => 0
  return ⟨result, .convolve inner result.arithmetic x.body w.body ⟨outs.map toNat, first, strides⟩⟩

def grouped (groups : Argument) (f : TypedTensor → TypedTensor → Result TypedTensor) : Result TypedTensor := do
  demand (1 < x.rank && 0 < w.rank) .badIndex
  let groups ← groups.integer
  demand (0 < groups) .badValue
  let g := groups.toNat
  let parts ← ((x.body.splitAlong 1 g).zip (w.body.splitAlong 0 g)).mapM fun (a, b) => f ⟨x.type, a⟩ ⟨w.type, b⟩
  match parts with
  | [] => fail .badValue
  | p :: _ => return ⟨p.type, ← concat (parts.map (·.body)) 1⟩

def requireSplit (axis rank : Nat) : Result Unit := do
  demand (axis < x.rank && axis < w.rank) .badIndex
  requireRank x w rank

def firstOrSelf (a : Argument) : Result Int :=
  match a.items? with
  | some (x :: _) => x.integer
  | some [] => fail .badIndex
  | none => a.integer

def conv1d (stride padding dilation : Argument) : Result TypedTensor := do
  requireRank x w 3
  let s ← firstOrSelf stride
  let d ← firstOrSelf dilation
  let kernel := ((w.dim 2 : Int) - 1) * d + 1
  let (before, after) ← (← padding.padding).forAxes 1 [kernel]
  demand (0 < d || w.dim 2 ≤ 1) .badValue
  let wide := w.body.dilate (w.type.zero) [1, 1, d.toNat]
  convolution ⟨1, true, true, true, false⟩ x ⟨w.type, wide⟩ [s] before after

def groupConv1d (stride padding dilation groups : Argument) : Result TypedTensor := do
  grouped x w groups fun a b => conv1d a b stride padding dilation

def convChannelsFirst (style : ConvStyle) (x w : TypedTensor) (stride padding : Argument) : Result TypedTensor := do
  let strides ← stride.perAxis style.axes
  let (before, after) ← (← padding.padding).forAxes style.axes (spatial w)
  convolution style x w strides before after

def conv2dChannelsFirst : Result TypedTensor := do
  grouped x w groups fun a b => do
    requireRank a b 4
    convChannelsFirst ⟨2, false, false, false, true⟩ a b stride padding

def conv2dChannelsLast : Result TypedTensor := do
  requireSplit x w 3 4
  let r ← grouped (← x.transpose [0, 3, 1, 2]) (← w.transpose [3, 2, 0, 1]) groups
    fun a b => convChannelsFirst ⟨2, true, true, false, false⟩ a b stride padding
  r.transpose [0, 2, 3, 1]

def conv2dBatchLast (stride padding : Argument) : Result TypedTensor := do
  requireRank x w 4
  let r ← convChannelsFirst ⟨2, true, true, false, false⟩ (← x.transpose [3, 2, 0, 1])
    (← w.transpose [3, 2, 0, 1]) stride padding
  r.transpose [2, 3, 1, 0]

def conv3dChannelsFirst : Result TypedTensor := do
  grouped x w groups fun a b => do
    requireRank a b 5
    convChannelsFirst ⟨3, true, true, false, false⟩ a b stride padding

def conv3dChannelsLast : Result TypedTensor := do
  requireSplit x w 4 5
  let r ← grouped (← x.transpose [0, 4, 1, 2, 3]) (← w.transpose [4, 3, 0, 1, 2]) groups
    fun a b => convChannelsFirst ⟨3, false, false, false, false⟩ a b stride padding
  r.transpose [0, 2, 3, 4, 1]

/-! ### Transposed convolutions -/

/-- The transposed convolution of an input with channels first. `padding` is read after the output
padding was checked. -/
def transposedConvolution (wide : Bool) (x w : TypedTensor) (strides extra : List Int)
    (padding : Result (List Int × List Int)) : Result TypedTensor := do
  require ((extra.zip strides).all fun (o, s) => o < s) .failedCheck ""
  let sizes := spatial x
  let dilated := zipWith (fun n s => (n - 1) * s + 1) sizes strides
  demand (strides.all (0 < ·) && dilated.all (0 ≤ ·)) .badValue
  let (before, after) ← padding
  let kernel := spatial w
  let front := zipWith (· - 1 - ·) kernel before
  let back := (kernel.zip (after.zip extra)).map fun (k, a, o) => k - 1 - a + o
  demand ((front ++ back).all (0 ≤ ·)) .badValue
  let outs := (dilated.zip (front.zip (back.zip kernel))).map fun (d, f, b, k) => d + f + b - k + 1
  demand (outs.all (0 ≤ ·)) .badValue
  let result := if wide then double else x.type
  if 0 < x.dim 0 && 0 < x.dim 1 && 0 < w.dim 1 then
    demand (x.dim 1 ≤ w.dim 0) .badIndex
    demand (outs.all (0 < ·)) .badValue
  let inner := (result.join w.type).arithmetic
  return ⟨result, .convolveTranspose inner result.arithmetic x.body w.body
    (strides.map toNat) front (outs.map toNat)⟩

def conv1dTranspose (stride padding extra : Argument) : Result TypedTensor := do
  requireRank x w 3
  let o ← match extra.items? with
    | some (o :: _) => o.integer
    | some [] => fail .badIndex
    | none => fail .badType
  let s ← firstOrSelf stride
  transposedConvolution true x w [s] [o] do
    (← padding.padding).resolve 1 (some 1) (fail .badType)

def conv2dTranspose (stride padding extra groups : Argument) : Result TypedTensor := do
  grouped x w groups fun a b => do
    requireRank a b 4
    let strides ← stride.perAxis 2
    let extras ← extra.perAxis 2
    transposedConvolution false a b strides extras do
      (← padding.padding).forAxes 2 (spatial b)

/-- The axes that bring weights into the order input, output, height, width. -/
def weightAxes : List (String × List Nat) := [
  ("HWIO", [2, 3, 0, 1]), ("HWOI", [3, 2, 0, 1]), ("OIHW", [1, 0, 2, 3]), ("IOHW", [0, 1, 2, 3])]

def conv2dTransposeChannelsLast (format stride padding extra : Argument) : Result TypedTensor := do
  require (x.rank == 4) .failedCheck "a_nhwc number of dimensions should be 4"
  require (w.rank == 4) .failedCheck "weight number of dimensions should be 4"
  let axes := match format with
    | .text f => weightAxes.lookup f
    | _ => none
  match axes with
  | none => refuse .badValue "Valid weight_formats are HWIO, HWOI, OIHW or IOHW"
  | some axes =>
    let r ← conv2dTranspose (← x.transpose [0, 3, 1, 2]) (← w.transpose axes) stride padding extra (.int 1)
    r.transpose [0, 2, 3, 1]

def conv3dTranspose (stride padding extra : Argument) : Result TypedTensor := do
  requireRank x w 5
  let strides ← stride.perAxis 3
  let extras ← extra.perAxis 3
  transposedConvolution true x w strides extras do
    (← padding.padding).forAxes 3 (spatial w)

/-! ### Depthwise convolutions -/

def depthwise (stride padding : Argument) : Result TypedTensor := do
  requireRank x w 4
  let strides ← stride.perAxis 2
  let kernel := spatial w
  let (before, after) ← (← padding.padding).forAxes 2 kernel
  let sizes := spatial x
  let totals := zipWith (· + ·) before after
  let outs ← outputSizes sizes kernel totals strides
  demand (outs.all (0 ≤ ·)) .badValue
  let pads := totals.any (· != 0)
  let batch := x.dim 0
  let channels := x.dim 1
  let each := w.dim 1
  if 0 < batch && 0 < channels * each then
    if pads then
      demand ((before ++ after).all (0 ≤ ·)) .badValue
    demand (strides.all (0 < ·)) .badValue
    demand (channels ≤ w.dim 0) .badIndex
    let padded := zipWith (· + ·) sizes totals
    checkWindows true (padded.zip (kernel.zip (strides.zip outs)))
  let inner := (x.type.join w.type).arithmetic
  let windows : Windows := ⟨outs.map toNat, before.map (- ·), strides⟩
  return ⟨double, ofFn (batch :: channels * each :: windows.counts) fun i =>
    let j := i.getD 1 0
    double.store (windowSum inner x.body w.body [i.getD 0 0, j / each] [j / each, j % each]
      (windows.start (i.drop 2)))⟩

def depthwiseChannelsLast (stride padding : Argument) : Result TypedTensor := do
  let r ← depthwise (← x.transpose [0, 3, 1, 2]) (← w.transpose [2, 3, 0, 1]) stride padding
  r.transpose [0, 2, 3, 1]

def depthwiseBlocked (stride padding : Argument) : Result TypedTensor := do
  match x.shape, w.shape with
  | [n, chunks, h, width, block], [outChunks, eachChunks, kh, kw, eachBlock, outBlock] =>
    let a ← (← x.transpose [0, 1, 4, 2, 3]).reshape [n, chunks * block, h, width]
    let b ← (← w.transpose [0, 5, 1, 4, 2, 3]).reshape [outChunks * outBlock, eachChunks * eachBlock, kh, kw]
    let r ← depthwise a b stride padding
    let r ← r.reshape (n :: outChunks :: outBlock :: r.shape.drop 2)
    r.transpose [0, 1, 3, 4, 2]
  | _, _ => fail .badValue

def weightGradient (dy x : TypedTensor) (kernel stride padding groups channels : Argument) : Result TypedTensor := do
  requireRank x dy 4
  match x.shape, dy.shape, ← kernel.unpack 2, ← padding.unpack 2, ← stride.unpack 2 with
  | [n, c, h, w], [_, k, p, q], [r, s], [ph, pw], [sh, sw] =>
    let g := groups.integer?
    let depthwise := c == k && g == some (c : Int)
    if depthwise then
      require (channels.integer? == g) .failedCheck "Only channel_mult == 1 supported for now."
    else
      require (g == some 1) .failedCheck "General grouped conv2d not supported for now."
    demand (0 ≤ r && 0 ≤ s) .badValue
    let type := dy.type.join x.type
    let shape := [k, if depthwise then 1 else c, r.toNat, s.toNat]
    demand (n ≤ dy.dim 0 || volume shape == 0) .badIndex
    return ⟨dy.type, ofFn shape fun i =>
      let source := if depthwise then i.getD 0 0 else i.getD 1 0
      let terms := (indices [n, p, q]).filterMap fun o =>
        let y := (o.getD 1 0 : Int) * sh - ph + i.getD 2 0
        let z := (o.getD 2 0 : Int) * sw - pw + i.getD 3 0
        if 0 ≤ y && y < h && 0 ≤ z && z < w then
          some (type.mul (dy.body.get [o.getD 0 0, i.getD 0 0, o.getD 1 0, o.getD 2 0])
            (x.body.get [o.getD 0 0, source, y.toNat, z.toNat]))
        else none
      dy.type.store (terms.foldl (type.join (.int 64)).add (.int 0))⟩
  | _, _, _, _, _ => fail .badValue

def weightGradientIn (dy x : TypedTensor) (kernel stride padding layout groups channels : Argument) :
    Result TypedTensor := do
  if layout.isText "NCHW" then weightGradient dy x kernel stride padding groups channels
  else
    let r ← weightGradient (← dy.transpose [0, 3, 1, 2]) (← x.transpose [0, 3, 1, 2]) kernel stride
      padding groups channels
    r.transpose [0, 2, 3, 1]

end TensorToolchain.Operator
