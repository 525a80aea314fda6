import TensorToolchain.Tensor.Argument

/-!
# Resizing, sampling and regions

Resizing of one, two or three spatial axes by scale factors. The coordinate mode says which place
of the input belongs to an output position; the method says how the value there is found from the
neighbouring elements.
-/

namespace TensorToolchain.Operator

open Tensor List

open Float (ofNat)
open Number (Scalar ceil? floor? floorDivMod infinity ofInt roundEven? truncate?)

/-- The place of the input that belongs to an output position along an axis. -/
def sourcePlace (mode : Argument) (x size target : Nat) : Result Float :=
  let x := ofNat x
  let scale := ofNat size / ofNat target
  if mode.isText "half_pixel" then .ok ((x + 0.5) * scale - 0.5)
  else if mode.isText "align_corners" then
    .ok (if 1 < target then (ofInt (size - 1) / ofInt (target - 1)) * x else 0.0)
  else if mode.isText "asymmetric" then .ok (scale * x)
  else refuse .badValue ("Unsupported coordinate_transformation_mode: " ++ mode.value.display)

def floorOf (x : Float) : Int := (floor? x).getD 0

def clampTo (size : Nat) (i : Int) : Nat := (max (min i (size - 1)) 0).toNat

def nearestPlace (mode : Argument) (x size target : Nat) : Result Nat := do
  let p ← sourcePlace mode x size target
  return clampTo size (if mode.isText "align_corners" then floorOf (p + 0.5) else floorOf p)

def splineWeights (t : Float) : List Float :=
  let alpha := -0.5
  let t2 := t * t
  let t3 := t * t * t
  [alpha * (t3 - 2.0 * t2 + t), (alpha + 2.0) * t3 - (3.0 + alpha) * t2 + 1.0,
    -(alpha + 2.0) * t3 + (3.0 + 2.0 * alpha) * t2 - alpha * t,
    -alpha * t3 + alpha * t2]

def neighbours (cubic : Bool) (type : ElementType) (p : Float) (size : Nat) : List (Nat × Scalar) :=
  let base := floorOf p
  let fract := p - ofInt base
  if cubic then
    (splineWeights fract).zipIdx.map fun (w, i) => (clampTo size (base - 1 + i), .float w)
  else
    [(clampTo size base, type.store (.float (1.0 - fract))), (clampTo size (base + 1), type.store (.float fract))]

/-- The weighted sum over the neighbours along three axes, the last axis first. -/
def blend (type : ElementType) (at' : Nat → Nat → Nat → Scalar) (zs ys xs : List (Nat × Scalar)) : Scalar :=
  let weigh := fun (terms : List (Scalar × Scalar)) => (terms.map fun (v, w) => type.mul v w).foldl type.add type.zero
  weigh (zs.map fun (z, wz) => (weigh (ys.map fun (y, wy) => (weigh (xs.map fun (x, wx) => (at' z y x, wx)), wy)), wz))

def scaledSize (size : Nat) (scale : Scalar) : Result Int := do
  match ← Scalar.mul (.int size) scale with
  | .int n => return n
  | .float x => orFail .badValue (roundEven? x)

variable (x : TypedTensor)

def resizeThree (scale : List Scalar) (method mode : Argument) : Result TypedTensor := do
  demand (5 ≤ x.rank) .badIndex
  demand (3 ≤ scale.length) .badIndex
  let sizes := (x.shape.drop 2).take 3
  let outs ← (sizes.zip scale).mapM fun (n, s) => scaledSize n s
  demand (outs.all (0 ≤ ·)) .badValue
  demand (x.rank == 5) .badIndex
  let outs := outs.map Int.toNat
  let (n, c) := (x.dim 0, x.dim 1)
  let nearest := method.isText "nearest_neighbor"
  let linear := method.isText "linear"
  let cubic := method.isText "cubic"
  if 0 < n * c && !(nearest || linear || cubic) then
    refuse .badValue ("('Unknown resize method', " ++ method.value.text ++ ")")
  let type := if cubic then ElementType.float 64 else x.type
  let body ← ofFnM (n :: c :: outs) fun i => do
    let o := i.drop 2
    if nearest then
      let ps ← (range 3).mapM fun a => nearestPlace mode (o.getD a 0) (sizes.getD a 0) (outs.getD a 0)
      return x.body.get (i.take 2 ++ ps)
    else
      let ns ← (range 3).mapM fun a => do
        let p ← sourcePlace mode (o.getD a 0) (sizes.getD a 0) (outs.getD a 0)
        return neighbours cubic type p (sizes.getD a 0)
      let at' := fun z y w => x.body.get (i.take 2 ++ [z, y, w])
      return x.type.store (blend type at' (ns.getD 0 []) (ns.getD 1 []) (ns.getD 2 []))
  return ⟨x.type, body⟩

def scaleFactors (a : Argument) : Result (List Scalar) :=
  match a with
  | .tuple xs => xs.mapM Argument.scalar
  | _ => fail .badType

def widen (count : Nat) : TypedTensor :=
  { x with body := { x.body with
    shape := x.shape.take 2 ++ .replicate count 1 ++ x.shape.drop 2 } }

def unwiden (count : Nat) : TypedTensor :=
  { x with body := { x.body with shape := x.shape.take 2 ++ x.shape.drop (2 + count) } }

def resize1d (scale layout method mode : Argument) : Result TypedTensor := do
  let last := layout.isText "NWC"
  let x ← if last then x.transpose [0, 2, 1] else pure x
  let factors ← scaleFactors scale
  let r ← resizeThree (widen x 2) ([.int 1, .int 1] ++ factors) method mode
  let r := unwiden r 2
  if last then r.transpose [0, 2, 1] else return r

def isPacked (layout : Argument) : Bool :=
  match layout with
  | .text s => s.startsWith "NCHW" && s.contains 'c' && s.contains 'n'
  | _ => false

def resize2d (scale layout method mode : Argument) : Result TypedTensor := do
  let resize := fun x => do
    let factors ← scaleFactors scale
    return unwiden (← resizeThree (widen x 1) (.int 1 :: factors) method mode) 1
  if layout.isText "NHWC" then
    (← resize (← x.transpose [0, 3, 1, 2])).transpose [0, 2, 3, 1]
  else if isPacked layout then
    let t ← x.transpose [0, 4, 1, 5, 2, 3]
    match t.shape with
    | [a, b, c, d, h, w] =>
      let r ← resize (← t.reshape [a * b, c * d, h, w])
      let r ← r.reshape ([a, b, c, d] ++ r.shape.drop 2)
      r.transpose [0, 2, 4, 5, 1, 3]
    | _ => fail .badValue
  else resize x

def resize3d (scale layout method mode : Argument) : Result TypedTensor := do
  let last := layout.isText "NDHWC"
  let x ← if last then x.transpose [0, 4, 1, 2, 3] else pure x
  let factors ← match scale.items? with
    | some xs => xs.mapM Argument.scalar
    | none => fail .badType
  let r ← resizeThree x factors method mode
  if last then r.transpose [0, 2, 3, 4, 1] else return r

/-! ### Sampling operators

Sampling of images at the places that a grid or a box names.
-/

/-- The places in `[-1, 1]` of the positions along an axis. -/
def gridPlace (i n : Nat) : Float := ofNat (i * 2) / ofInt ((n : Int) - 1) - 1.0

def affineGrid (data : TypedTensor) (target : Argument) : Result TypedTensor := do
  let shape ← target.integers
  demand (2 ≤ shape.length) .badIndex
  demand (shape.all (0 ≤ ·)) .badValue
  let shape := shape.map Int.toNat
  demand (data.body.data.size % 3 == 0) .badValue
  let rows := data.body.data.size / 3
  let (h, w) := (shape.getD 0 0, shape.getD 1 0)
  let values := (range rows).flatMap fun r =>
    (indices [h, w]).map fun i =>
      let at' := fun k => (data.body.data.getD (3 * r + k) default).approx
      let x := gridPlace (i.getD 1 0) w
      let y := gridPlace (i.getD 0 0) h
      double.store (.float (at' 0 * x + at' 1 * y + at' 2 * 1.0))
  let t : TypedTensor := ⟨double, ⟨[values.length], values.toArray⟩⟩
  let n ← orFail .badIndex data.shape.head?
  t.reshape (n :: 2 :: shape)

/-! ### Sampling by a grid -/

inductive Border where | zeros | border | reflection

def Border.ofArgument (a : Argument) : Option Border :=
  if a.isText "zeros" then some zeros
  else if a.isText "border" then some border
  else if a.isText "reflection" then some reflection
  else none

/-- The place in an axis of a place in `[-1, 1]`. -/
def denormalize (aligned : Bool) (v : Float) (size : Nat) : Float :=
  if aligned then (v + 1.0) * ofInt ((size : Int) - 1) / 2.0
  else -0.5 + (v + 1.0) * ofNat size / 2.0

def cutPlace (x : Float) (size : Nat) : Float :=
  let m := ofInt ((size : Int) - 1)
  let x := if 0.0 > x then 0.0 else x
  if m < x then m else x

def reflectInto (i size corner : Float) : Float :=
  if corner ≤ i && i ≤ size + corner then i
  else
    let d := (corner - i).abs
    let times := if size == 0.0 then d / size else (floorDivMod d size).1
    let extra := d - times * size
    let even := (floorDivMod times 2.0).2 == 0.0
    if even then extra + corner else size - extra + corner

def reflectPlace (aligned : Bool) (i : Float) (size : Nat) : Float :=
  if aligned then reflectInto i (ofInt ((size : Int) - 1)) 0.0
  else reflectInto i (ofNat size) (-0.5)

/-- The place in an axis that is read for a place in `[-1, 1]`. -/
def gridSource (b : Border) (aligned : Bool) (v : Float) (size : Nat) : Float :=
  let p := denormalize aligned v size
  match b with
  | .zeros => p
  | .border => cutPlace p size
  | .reflection => cutPlace (reflectPlace aligned p size) size

def pixel (lead : List Nat) (index : List Int) : Float :=
  let sizes := x.shape.drop 2
  if (sizes.zip index).all fun (n, i) => 0 ≤ i && i < n then
    (x.body.get (lead ++ index.map Int.toNat)).approx
  else 0.0

/-- A place as an integer by a rounding rule that fails on places that are not finite. -/
def integerPlace (round : Float → Option Int) (x : Float) : Result Int :=
  match round x with
  | some n => .ok n
  | none => if x.isNaN then fail .badValue else fail .overflow

def nearestInteger (x : Float) : Result Int := integerPlace truncate? (if x > 0.0 then x + 0.5 else x - 0.5)

def positionBelow (x : Float) : Result (Int × Float) := do
  let n ← integerPlace floor? x
  return (n, x - ofInt n)

def bilinearAt (get : Int → Int → Float) (y x : Float) : Result Float := do
  let (y0, fy) ← positionBelow y
  let (x0, fx) ← positionBelow x
  return get y0 x0 * (1.0 - fy) * (1.0 - fx) + get y0 (x0 + 1) * (1.0 - fy) * fx
    + get (y0 + 1) x0 * fy * (1.0 - fx) + get (y0 + 1) (x0 + 1) * fy * fx

def trilinearAt (get : Int → Int → Int → Float) (z y x : Float) : Result Float := do
  let (z0, fz) ← positionBelow z
  let (y0, fy) ← positionBelow y
  let (x0, fx) ← positionBelow x
  let (z1, y1, x1) := (z0 + 1, y0 + 1, x0 + 1)
  return get z0 y0 x0 * (1.0 - fx) * (1.0 - fy) * (1.0 - fz) + get z0 y0 x1 * fx * (1.0 - fy) * (1.0 - fz)
    + get z1 y1 x0 * (1.0 - fx) * fy * fz
    + get z1 y1 x1 * fx * fy * fz
    + get z0 y1 x0 * (1.0 - fx) * fy * (1.0 - fz)
    + get z1 y0 x1 * fx * (1.0 - fy) * fz
    + get z1 y0 x0 * (1.0 - fx) * (1.0 - fy) * fz
    + get z0 y1 x1 * fx * fy * (1.0 - fz)

def cubicNear (t : Float) : Float := ((-0.75 + 2.0) * t - (-0.75 + 3.0)) * t * t + 1.0

def cubicFar (t : Float) : Float := ((-0.75 * t - 5.0 * -0.75) * t + 8.0 * -0.75) * t - 4.0 * -0.75

def cubicBetween (p : Nat → Float) (t : Float) : Float :=
  p 0 * cubicFar (t + 1.0) + p 1 * cubicNear t + p 2 * cubicNear (1.0 - t) + p 3 * cubicFar (2.0 - t)

/-- The position in an axis that is read for a whole position beyond its border. -/
def borderPosition (b : Border) (aligned : Bool) (size : Nat) (i : Int) : Result Int :=
  match b with
  | .zeros => .ok i
  | .border => .ok (min (max i 0) (size - 1))
  | .reflection =>
    if aligned && size == 1 && i != 0 then fail .zeroDivision
    else integerPlace truncate? (cutPlace (reflectPlace aligned (ofInt i) size) size)

def bicubicAt (b : Border) (aligned : Bool) (h w : Nat) (get : Int → Int → Float) (y x : Float) : Result Float := do
  let (y0, fy) ← positionBelow y
  let (x0, fx) ← positionBelow x
  let rows ← (range 4).mapM fun (i : Nat) => do
    let yy ← borderPosition b aligned h (y0 - 1 + i)
    let xs ← (range 4).mapM fun (j : Nat) => borderPosition b aligned w (x0 - 1 + j)
    return cubicBetween (fun j => get yy (xs.getD j 0)) fx
  return cubicBetween (rows.getD · 0.0) fy

def gridSample (x grid : TypedTensor) (method layout padding aligned : Argument) : Result TypedTensor := do
  let three := x.rank == 5
  if x.rank != 4 && x.rank != 5 then refuse .badValue "invalid shape"
  let methods := if three then ["bilinear", "nearest"] else ["bilinear", "nearest", "bicubic"]
  require (methods.any method.isText) .failedCheck (method.value.display ++ " is not supported")
  require (layout.isText (if three then "NCDHW" else "NCHW")) .failedCheck ""
  match Border.ofArgument padding with
  | none => refuse .failedCheck (padding.value.display ++ " is not supported")
  | some b =>
    require (grid.rank == x.rank) .failedCheck ""
    let al := aligned.truthy
    let sizes := x.shape.drop 2
    let axes := sizes.length
    let outs := grid.shape.drop 2
    let shape := x.shape.take 2 ++ outs
    if 0 < volume shape then
      demand (x.dim 0 ≤ grid.dim 0 && axes ≤ grid.dim 1) .badIndex
    let body ← ofFnM shape fun i => do
      let lead := i.take 2
      let raw := fun a => (grid.body.get (i.getD 0 0 :: (axes - 1 - a) :: i.drop 2)).approx
      let places := (range axes).map fun a =>
        if method.isText "bicubic" then denormalize al (raw a) (sizes.getD a 0)
        else gridSource b al (raw a) (sizes.getD a 0)
      let at' := (places.getD · 0.0)
      let v ←
        if method.isText "nearest" then do
          pure (pixel x lead (← places.mapM nearestInteger))
        else if method.isText "bicubic" then
          bicubicAt b al (sizes.getD 0 0) (sizes.getD 1 0) (fun y w => pixel x lead [y, w]) (at' 0) (at' 1)
        else if three then
          trilinearAt (fun z y w => pixel x lead [z, y, w]) (at' 0) (at' 1) (at' 2)
        else bilinearAt (fun y w => pixel x lead [y, w]) (at' 0) (at' 1)
      return double.store (.float v)
    return ⟨double, body⟩

/-! ### Cropping boxes -/

def indexOfElement : Scalar → Result Int
  | .int n => .ok n
  | .float _ => fail .badIndex

def single (x : Float) : Float := x.toFloat32.toFloat

def cropAndResize (image boxes indices : TypedTensor) (size layout method fill : Argument) : Result TypedTensor := do
  match ← size.unpack 2 with
  | [th, tw] =>
    let last := layout.isText "NHWC"
    demand (4 ≤ image.rank && 1 ≤ boxes.rank) .badIndex
    let at' := image.dim
    let (h, w, c) := if last then (at' 1, at' 2, at' 3) else (at' 2, at' 3, at' 1)
    let batch := boxes.dim 0
    demand (0 ≤ th && 0 ≤ tw) .badValue
    let (th, tw) := (th.toNat, tw.toNat)
    let shape := if last then [batch, th, tw, c] else [batch, c, th, tw]
    let fill ← fill.real
    let bilinear := method.isText "bilinear"
    let nearest := method.isText "nearest_neighbor"
    let body ← ofFnM shape fun i => do
      let n := i.getD 0 0
      let (y, x, d) := if last then (i.getD 1 0, i.getD 2 0, i.getD 3 0)
        else (i.getD 2 0, i.getD 3 0, i.getD 1 0)
      let b ← indexOfElement (← indices.body.at? [(n : Int)])
      let corner := fun k => boxes.body.at? [(n : Int), k]
      let (y1, x1, y2, x2) := (← corner 0, ← corner 1, ← corner 2, ← corner 3)
      let (hs, ws) := (ofInt ((h : Int) - 1), ofInt ((w : Int) - 1))
      let span := fun a b => (boxes.type.sub b a).approx
      let hScale := single (single (hs * span y1 y2) / single (ofInt ((th : Int) - 1)))
      let wScale := single (single (ws * span x1 x2) / single (ofInt ((tw : Int) - 1)))
      let inY := y1.approx * hs + hScale * ofNat y
      let inX := x1.approx * ws + ofNat x * wScale
      if inY < 0.0 || inY > hs then return .float fill
      else if !bilinear && !nearest then return .float 1.0
      else
        let edge ← if bilinear then do pure (some (← integerPlace floor? inY)) else pure none
        if inX < 0.0 || inX > ws then return .float fill
        else
          let get := fun p q =>
            let index : List Int := if last then [b, p, q, (d : Int)] else [b, (d : Int), p, q]
            image.body.at? index
          if nearest then
            let q := (roundEven? inX).getD (-2147483648)
            let p := (roundEven? inY).getD (-2147483648)
            return .float (← get p q).approx
          else
            let top := edge.getD 0
            let bottom := (ceil? inY).getD 0
            let left ← integerPlace floor? inX
            let right := (ceil? inX).getD 0
            let fy := inY - ofInt top
            let fx := inX - ofInt left
            let (tl, tr) := (← get top left, ← get top right)
            let (bl, br) := (← get bottom left, ← get bottom right)
            let between := fun a b => a.approx + (image.type.sub b a).approx * fx
            let (t, u) := (between tl tr, between bl br)
            return .float (t + (u - t) * fy)
    return ⟨.float 64, body⟩
  | _ => fail .badValue

/-! ### Region operators

Pooling of regions of interest, and the comparison of neighbourhoods of two images.
-/

/-- The weighted mean of the elements around a place; what lies outside counts as zero. -/
def edgeSample (get : Nat → Nat → Scalar) (height width : Nat) (y x : Float) : Result Float := do
  let (yl, wy) ← positionBelow y
  let (xl, wx) ← positionBelow x
  let cells := [(1.0 - wx, xl, 1.0 - wy, yl), (1.0 - wx, xl, wy, yl + 1), (wx, xl + 1, 1.0 - wy, yl),
    (wx, xl + 1, wy, yl + 1)]
  return cells.foldl (fun acc (a, xp, b, yp) =>
    if 0 ≤ yp && yp < height && 0 ≤ xp && xp < width then
      acc + a * b * (get yp.toNat xp.toNat).approx
    else acc) 0.0

/-- The weighted mean of the elements around a place that is moved to the border, zero far
outside. -/
def regionSample (get : Nat → Nat → Scalar) (height width : Nat) (y x : Float) : Result Float :=
  let (h, w) := (ofNat height, ofNat width)
  if y < -1.0 || y > h || x < -1.0 || x > w then .ok 0.0
  else edgeSample get height width (cutPlace y height) (cutPlace x width)

def isMode (a : Argument) (name : String) (code : Int) : Bool :=
  a.isText name ||
    match a.scalar? with
    | some (.int n) => n == code
    | some (.float x) => x == ofInt code
    | none => false

/-- Sample regions of interest on regular grids and reduce each bin. -/
def alignRegions (last : Bool) (x rois : TypedTensor) (size scale ratio mode : Argument) : Result TypedTensor := do
  let average := isMode mode "avg" 0
  let greatest := isMode mode "max" 1
  require (average || greatest) .failedCheck "Mode must be average or max. Please pass a valid mode."
  demand (x.rank == 4) .badValue
  let at' := x.dim
  let (c, h, w) := if last then (at' 3, at' 1, at' 2) else (at' 1, at' 2, at' 3)
  match ← size.perAxis 2 with
  | [ph, pw] =>
    demand (0 ≤ ph && 0 ≤ pw) .badValue
    let (ph, pw) := (ph.toNat, pw.toNat)
    let n ← orFail .badIndex rois.shape.head?
    let scale ← scale.real
    let ratio ← ratio.scalar
    let shape := if last then [n, ph, pw, c] else [n, c, ph, pw]
    if 0 < n then
      demand (rois.dim 1 == 5) .badValue
      demand (0 < ph && 0 < pw) .zeroDivision
    let body ← ofFnM shape fun i => do
      let r := i.getD 0 0
      let (d, py, px) := if last then (i.getD 3 0, i.getD 1 0, i.getD 2 0)
        else (i.getD 1 0, i.getD 2 0, i.getD 3 0)
      let field := fun k => (rois.body.get [r, k]).approx
      let image ← integerPlace truncate? (field 0)
      let real := rois.type.real
      let scaled := fun k => (real.store (.float (field k * scale))).approx
      let (x0, y0, x1, y1) := (scaled 1, scaled 2, scaled 3, scaled 4)
      let extent := fun a b => (real.store (.float (b - a))).approx
      let atLeastOne := fun v => if 1.0 > v then 1.0 else v
      let binH := atLeastOne (extent y0 y1) / ofNat ph
      let binW := atLeastOne (extent x0 x1) / ofNat pw
      let fixed := ElementType.less (.int 0) ratio
      let count := fun bin => if fixed then integerPlace truncate? ratio.approx else integerPlace ceil? bin
      let (gh, gw) := (← count binH, ← count binW)
      let image ← position (x.dim 0) image
      let get := fun p q => x.body.get (if last then [image, p, q, d] else [image, d, p, q])
      let samples ← (indices [gh.toNat, gw.toNat]).mapM fun g =>
        let y := y0 + ofNat py * binH + (ofNat (g.getD 0 0) + 0.5) * binH / ofInt gh
        let v := x0 + ofNat px * binW + (ofNat (g.getD 1 0) + 0.5) * binW / ofInt gw
        regionSample get h w y v
      let total := if greatest then
          samples.foldl (fun acc s => if s > acc then s else acc) (-infinity)
        else samples.foldl (fun acc s => acc + s / ofInt (gh * gw)) 0.0
      return x.type.store (.float total)
    return ⟨x.type, body⟩
  | _ => fail .badValue

def poolRegions (x rois : TypedTensor) (size scale : Argument) : Result TypedTensor := do
  demand (x.rank == 4) .badValue
  let p ← size.integer
  let scale ← scale.real
  demand (0 ≤ p) .badValue
  let n ← orFail .badIndex rois.shape.head?
  if 0 < n then demand (p != 0) .zeroDivision
  let p := p.toNat
  let (c, h, w) := (x.dim 1, x.dim 2, x.dim 3)
  let body ← ofFnM [n, c, p, p] fun i => do
    let field := fun (k : Int) => do
      let v ← rois.body.at? [(i.getD 0 0 : Int), k]
      integerPlace roundEven? (v.approx * scale)
    let image ← integerPlace truncate? (← rois.body.at? [(i.getD 0 0 : Int), 0]).approx
    let (x0, y0, x1, y1) := (← field 1, ← field 2, ← field 3, ← field 4)
    let binH := ofInt (max (y1 - y0 + 1) 1) / ofNat p
    let binW := ofInt (max (x1 - x0 + 1) 1) / ofNat p
    let (py, px) := (ofNat (i.getD 2 0), ofNat (i.getD 3 0))
    let cut := fun (v : Int) (size : Nat) => (min (max v 0) size).toNat
    let ys := cut (floorOf (py * binH) + y0) h
    let xs := cut (floorOf (px * binW) + x0) w
    let ye := cut ((ceil? ((py + 1.0) * binH)).getD 0 + y0) h
    let xe := cut ((ceil? ((px + 1.0) * binW)).getD 0 + x0) w
    if ye ≤ ys || xe ≤ xs then return x.type.zero
    else
      let image ← position (x.dim 0) image
      TypedTensor.greatest ((indices [ye - ys, xe - xs]).map fun q =>
        x.body.get [image, i.getD 1 0, ys + q.getD 0 0, xs + q.getD 1 0])
  return ⟨x.type, body⟩

def correlation (x y : TypedTensor) (kernel displacement stride1 stride2 padding multiply : Argument) :
    Result TypedTensor := do
  let k ← kernel.integer
  let m ← displacement.integer
  let s1 ← stride1.integer
  let s2 ← stride2.integer
  let p ← padding.integer
  demand (x.rank == 4 && y.rank == 4) .badIndex
  let (n, c) := (x.dim 0, x.dim 1)
  let h : Int := x.dim 2
  let w : Int := x.dim 3
  let (ph, pw) := (h + 2 * p, w + 2 * p)
  let border := m + (k - 1).fdiv 2
  demand (s1 != 0 && s2 != 0) .zeroDivision
  let outW := (pw - border * 2).fdiv s1
  let outH := (ph - border * 2).fdiv s1
  let radius := m.fdiv s2
  let grid := radius * 2 + 1
  demand (0 ≤ outW && 0 ≤ outH && 0 ≤ ph && 0 ≤ pw && 0 ≤ p) .badValue
  demand (y.shape.take 2 == x.shape.take 2 && y.shape.drop 2 == x.shape.drop 2) .badValue
  let padded := fun t b ch yy xx => do
    let r ← position ph.toNat yy
    let q ← position pw.toNat xx
    let (r, q) := ((r : Int) - p, (q : Int) - p)
    if 0 ≤ r && r < h && 0 ≤ q && q < w then
      return (t.body.get [b, ch, r.toNat, q.toNat]).approx
    else return (0.0 : Float)
  let body ← ofFnM [n, (grid * grid).toNat, outH.toNat, outW.toNat] fun i => do
    let q : Int := i.getD 1 0
    let x1 := (i.getD 3 0 : Int) * s1 + m
    let y1 := (i.getD 2 0 : Int) * s1 + m
    let x2 := x1 + (q.fmod grid - radius) * s2
    let y2 := y1 + (q.fdiv grid - radius) * s2
    let terms ← (indices [k.toNat, k.toNat, c]).mapM fun o => do
      let dy : Int := o.getD 0 0
      let dx : Int := o.getD 1 0
      let a ← padded x (i.getD 0 0) (o.getD 2 0) (y1 + dy) (x1 + dx)
      let b ← padded y (i.getD 0 0) (o.getD 2 0) (y2 + dy) (x2 + dx)
      return if multiply.truthy then a * b else (a - b).abs
    return .float (terms.foldl (· + ·) 0.0 / ofInt (k * k * c))
  return ⟨.float 64, body⟩

/-- A convolution that reads each kernel element at a place displaced by its own offset. -/
def deformable (x offset w : TypedTensor) (stride padding dilation dgroups groups : Argument) : Result TypedTensor := do
  demand (x.rank == 4 && w.rank == 4 && 2 ≤ offset.rank) .badValue
  let (n, c, h, width) := (x.dim 0, x.dim 1, x.dim 2, x.dim 3)
  let (f, kh, kw) := (w.dim 0, w.dim 2, w.dim 3)
  let dg ← dgroups.integer
  demand (dg != 0) .zeroDivision
  let each := (c : Int).fdiv dg
  require (groups.integer? == some 1) .failedCheck "deformable_conv2d_nchw_python does not support groups > 1"
  let strides ← stride.perAxis 2
  let (before, _) ← (← padding.padding).forAxes 2 [kh, kw]
  let dilations ← dilation.perAxis 2
  demand (offset.rank == 4) .badIndex
  let (oh, ow) := (offset.dim 2, offset.dim 3)
  let runs := 0 < n * oh * ow
  if runs then
    demand ((offset.dim 1 : Int) == dg * kh * kw * 2) .badValue
    demand (n ≤ offset.dim 0) .badIndex
  if runs && 0 < c * kh * kw then
    demand (each != 0) .zeroDivision
    demand ((((c : Int) - 1).fdiv each) < dg) .badIndex
  if runs && 0 < c * f then demand (c ≤ w.dim 1) .badIndex
  let ot := offset.type
  let deformed ← ofFnM [n, c, oh, ow, kh, kw] fun i => do
    let (b, ch, p, q, a, e) := (i.getD 0 0, i.getD 1 0, i.getD 2 0, i.getD 3 0, i.getD 4 0, i.getD 5 0)
    let base := fun (o k axis : Nat) =>
      (o : Int) * strides.getD axis 0 - before.getD axis 0 + (k : Int) * dilations.getD axis 0
    let g := ((ch : Int).fdiv each).toNat
    let shift := fun axis => offset.body.get [b, ((g * kh + a) * kw + e) * 2 + axis, p, q]
    let y := (ot.add (ot.store (.int (base p a 0))) (shift 0)).approx
    let v := (ot.add (ot.store (.int (base q e 1))) (shift 1)).approx
    if y < 0.0 || y ≥ ofNat h || v < 0.0 || v ≥ ofNat width then return x.type.zero
    else
      let s ← edgeSample (fun yy xx => x.body.get [b, ch, yy, xx]) h width y v
      return x.type.store (.float s)
  let type := x.type.join w.type
  return ⟨x.type, ofFn [n, f, oh, ow] fun i =>
    (range c).foldl (fun acc ch =>
      let terms := (indices [kh, kw]).map fun k =>
        type.mul (deformed.get ([i.getD 0 0, ch, i.getD 2 0, i.getD 3 0] ++ k)) (w.body.get ([i.getD 1 0, ch] ++ k))
      x.type.add acc (terms.foldl type.add type.zero)) x.type.zero⟩

end TensorToolchain.Operator
