import TensorToolchain.Value

/-!
# Tensors

A tensor is a shape with its elements row by row. `Tensor.ofFn` builds a tensor from the element
at each index and `Tensor.get` reads the element at an index; every other operation is written with
these two, so that a tensor can be reasoned about as a function on the indices of its shape.
-/

namespace TensorToolchain

open List

/-- A shape and the elements in row-major order. -/
structure Tensor (α : Type) where
  shape : List Nat
  data : Array α
  deriving Inhabited, DecidableEq

namespace Tensor

def volume (shape : List Nat) : Nat := shape.foldr (· * ·) 1

def indices : List Nat → List (List Nat)
  | [] => [[]]
  | n :: s => (range n).flatMap fun i => (indices s).map (i :: ·)

def offset : List Nat → List Nat → Nat
  | _ :: s, i :: is => i * volume s + offset s is
  | _, _ => 0

def indexAt : List Nat → Nat → List Nat
  | [], _ => []
  | _ :: s, k => k / volume s :: indexAt s (k % volume s)

def contains : List Nat → List Nat → Bool
  | [], [] => true
  | n :: s, i :: is => decide (i < n) && contains s is
  | _, _ => false

variable {α β γ : Type}

def ofFn (shape : List Nat) (f : List Nat → α) : Tensor α := ⟨shape, ((indices shape).map f).toArray⟩

def ofFnM (shape : List Nat) (f : List Nat → Result α) : Result (Tensor α) := do
  return ⟨shape, ((← (indices shape).mapM f)).toArray⟩

def get [Inhabited α] (t : Tensor α) (index : List Nat) : α := t.data.getD (offset t.shape index) default

def rank (t : Tensor α) : Nat := t.shape.length

def WellShaped (t : Tensor α) : Prop := t.data.size = volume t.shape

instance (t : Tensor α) : Decidable t.WellShaped := inferInstanceAs (Decidable (_ = _))

def map (f : α → β) (t : Tensor α) : Tensor β := ⟨t.shape, t.data.map f⟩

def full (shape : List Nat) (a : α) : Tensor α := ⟨shape, .replicate (volume shape) a⟩

def reshape (t : Tensor α) (shape : List Nat) : Result (Tensor α) :=
  if volume shape == t.data.size then .ok { t with shape } else fail .badValue

def pick [Inhabited β] (xs : List β) (positions : List Nat) : List β := positions.map (xs.getD · default)

def unpermute (axes index : List Nat) : List Nat := (range axes.length).map fun a => index.getD (axes.idxOf a) 0

/-- Reorder the axes: axis `k` of the result is axis `axes[k]` of the tensor. -/
def permute [Inhabited α] (t : Tensor α) (axes : List Nat) : Tensor α :=
  ofFn (pick t.shape axes) fun i => t.get (unpermute axes i)

def transpose [Inhabited α] (t : Tensor α) (axes : List Nat) : Result (Tensor α) :=
  if axes.length == t.rank && (range t.rank).all axes.contains then .ok (t.permute axes)
  else fail .badValue

def sub [Inhabited α] (t : Tensor α) (lead : List Nat) : Tensor α :=
  ofFn (t.shape.drop lead.length) fun i => t.get (lead ++ i)

def stack (shape : List Nat) (parts : List (Tensor α)) : Tensor α :=
  ⟨parts.length :: shape, (parts.map (·.data.toList)).flatten.toArray⟩

def replaceAt (xs : List β) (i : Nat) (x : β) : List β := xs.set i x

def narrow [Inhabited α] (t : Tensor α) (axis start count : Nat) : Tensor α :=
  ofFn (replaceAt t.shape axis count) fun i => t.get (replaceAt i axis (start + i.getD axis 0))

/-- The sizes of nearly equal parts: the first ones take the rest. -/
def splitSizes (n parts : Nat) : List Nat :=
  (range parts).map fun i => n / parts + (if i < n % parts then 1 else 0)

def splitAlong [Inhabited α] (t : Tensor α) (axis parts : Nat) : List (Tensor α) :=
  ((splitSizes (t.shape.getD axis 0) parts).foldl
    (fun (done, start) n => (done ++ [t.narrow axis start n], start + n)) ([], 0)).1

/-- The part that holds a position along the axis of concatenated parts, and the position in it. -/
def locate : List Nat → Nat → Nat × Nat
  | [], i => (0, i)
  | n :: ns, i => if i < n then (0, i) else let (p, j) := locate ns (i - n); (p + 1, j)

def concat [Inhabited α] (parts : List (Tensor α)) (axis : Nat) : Result (Tensor α) :=
  match parts with
  | [] => fail .badValue
  | first :: _ =>
    let sizes := parts.map (·.shape.getD axis 0)
    if parts.all fun p => replaceAt p.shape axis 0 == replaceAt first.shape axis 0 then
      .ok (ofFn (replaceAt first.shape axis (sizes.foldl (· + ·) 0)) fun i =>
        let (p, j) := locate sizes (i.getD axis 0)
        (parts.getD p first).get (replaceAt i axis j))
    else fail .badValue

def position (n : Nat) (i : Int) : Result Nat :=
  let j := if i < 0 then i + n else i
  if 0 ≤ j && j < n then .ok j.toNat else fail .badIndex

def positions : List Nat → List Int → Result (List Nat)
  | _, [] => .ok []
  | [], _ :: _ => fail .badIndex
  | n :: s, i :: is => do return (← position n i) :: (← positions s is)

def at? [Inhabited α] (t : Tensor α) (index : List Int) : Result α := do
  return t.get (← positions t.shape index)

/-! ### Broadcasting -/

/-- The shape in which two shapes, aligned at the last axis, meet. -/
def joinReversed : List Nat → List Nat → Result (List Nat)
  | [], s | s, [] => .ok s
  | m :: s, n :: r => do
    let rest ← joinReversed s r
    if m == n then return m :: rest
    else if m == 1 then return n :: rest
    else if n == 1 then return m :: rest
    else fail .badValue

def joinShapes (s r : List Nat) : Result (List Nat) := do
  return (← joinReversed s.reverse r.reverse).reverse

def spreadIndex (shape index : List Nat) : List Nat :=
  (shape.zip (index.drop (index.length - shape.length))).map fun (n, i) => if n == 1 then 0 else i

def spreadGet [Inhabited α] (t : Tensor α) (index : List Nat) : α := t.get (spreadIndex t.shape index)

def spread [Inhabited α] (t : Tensor α) (shape : List Nat) : Result (Tensor α) := do
  let joined ← joinShapes t.shape shape
  if joined == shape then return ofFn shape t.spreadGet else fail .badValue

/-- Spread a tensor over the shape of a selection that it is written to; leading axes of length one
may be missing there. -/
def spreadInto [Inhabited α] (t : Tensor α) (shape : List Nat) : Result (Tensor α) :=
  let extra := t.rank - shape.length
  if (t.shape.take extra).all (· == 1) then spread { t with shape := t.shape.drop extra } shape
  else fail .badValue

def zipWith [Inhabited α] [Inhabited β] (f : α → β → γ) (s : Tensor α) (t : Tensor β) : Result (Tensor γ) := do
  return ofFn (← joinShapes s.shape t.shape) fun i => f (s.spreadGet i) (t.spreadGet i)

end Tensor

structure Arithmetic (α : Type) where
  zero : α
  (add mul : α → α → α)

def Arithmetic.sum {α : Type} (ar : Arithmetic α) (terms : List α) : α := terms.foldl ar.add ar.zero

/-! ### Slices, convolutions and blocks of tensors

A slice selects along each axis the positions from a start to a stop by a step. `Tensor.slice`
reads the selection and `Tensor.setSlice` replaces it.
-/

/-- What a slice says about an axis: start, stop and step, each of which may be left out. -/
structure AxisSlice where
  start : Option Int := none
  stop : Option Int := none
  step : Option Int := none

def AxisSlice.range (s : AxisSlice) (length : Nat) : Result Value.SliceRange :=
  let step := s.step.getD 1
  if step == 0 then fail .badValue else .ok (Value.sliceRange length s.start s.stop step)

namespace Tensor

variable {α : Type}

def ranges (shape : List Nat) (slices : List AxisSlice) : Result (List Value.SliceRange) :=
  (shape.zip slices).mapM fun (n, s) => s.range n

def selected (rs : List Value.SliceRange) (index : List Nat) : List Nat :=
  (rs.zip index).map fun (r, i) => (r.start + (i : Int) * r.step).toNat

def placeIn (r : Value.SliceRange) (p : Nat) : Option Nat :=
  let d := (p : Int) - r.start
  if r.step != 0 && d % r.step == 0 && 0 ≤ d / r.step && d / r.step < r.count then
    some (d / r.step).toNat
  else none

def placesIn : List Value.SliceRange → List Nat → Option (List Nat)
  | r :: rs, i :: is => do return (← placeIn r i) :: (← placesIn rs is)
  | _, _ => some []

def slice [Inhabited α] (t : Tensor α) (slices : List AxisSlice) : Result (Tensor α) := do
  let rs ← ranges t.shape slices
  return ofFn (rs.map (·.count)) fun i => t.get (selected rs i)

def setSlice [Inhabited α] (t : Tensor α) (slices : List AxisSlice) (v : Tensor α) : Result (Tensor α) := do
  let rs ← ranges t.shape slices
  let v ← v.spreadInto (rs.map (·.count))
  return ofFn t.shape fun i =>
    match placesIn rs i with
    | some j => v.get j
    | none => t.get i

/-- The slices of begins, ends and strides that may be shorter than the rank; what is missing is
left out. -/
def sliceList (rank : Nat) (begins ends strides : List Int) : List AxisSlice :=
  (range rank).map fun i => ⟨begins[i]?, ends[i]?, strides[i]?⟩

/-- What the ends of a selection are: where it stops, or how many elements it has. Strides are read
only with the first, and an unknown mode reads ends as the first does. -/
inductive SliceMode
  | stop | size | unknown
  deriving DecidableEq

def SliceMode.slice (mode : SliceMode) (begin bound stride : Option Int) : Result AxisSlice := do
  let stride := if mode = .stop then stride else none
  let stop ← match mode, bound with
    | .size, some n =>
      if n < 0 then pure none
      else match begin with
        | some b => pure (some (b + n))
        | none => fail .badType
    | _, bound => pure bound
  return ⟨begin, stop, stride⟩

def stridedSlice [Inhabited α] (t : Tensor α) (begins ends strides : List Int) (mode : SliceMode := .stop) :
    Result (Tensor α) := do
  t.slice (← (range t.rank).mapM fun i => mode.slice begins[i]? ends[i]? strides[i]?)

def stridedSet [Inhabited α] (t v : Tensor α) (begins ends strides : List Int) : Result (Tensor α) :=
  t.setSlice (sliceList t.rank begins ends strides) v

def overAxes (base values axes : List Int) (required : Bool) : Result (List Int) :=
  axes.zipIdx.foldlM (fun acc (axis, i) => do
    match values[i]? with
    | some v => return replaceAt acc (← position acc.length axis) v
    | none =>
      if required then fail .badIndex
      else
        let _ ← position acc.length axis
        return acc) base

/-! ### Convolutions and blocks

Weights have the axes filter, channel and the kernel's. A result is the sum, over the channels, of
the products of the kernel with the window of the padded input that starts there. A transposed
convolution is the convolution of the dilated input with the flipped weights whose first two axes
are exchanged.
-/

variable [Inhabited α]

/-- The spatial index at an offset from a start, if it lies in a shape. -/
def windowIndex : List Nat → List Int → List Nat → Option (List Nat)
  | [], _, _ => some []
  | n :: s, b :: bs, k :: ks =>
    let p := b + k
    if 0 ≤ p && p < n then (windowIndex s bs ks).map (p.toNat :: ·) else none
  | _ :: _, _, _ => none

/-- The input at a spatial index that may lie in the padding, where it is zero. -/
def paddedAt (zero : α) (x : Tensor α) (lead : List Nat) (start : List Int) (k : List Nat) : α :=
  match windowIndex (x.shape.drop lead.length) start k with
  | some i => x.get (lead ++ i)
  | none => zero

/-- The sum of the products of a kernel with the window of the input that starts at a position,
from the last element of the kernel to the first. -/
def windowSum (ar : Arithmetic α) (x w : Tensor α) (lead wlead : List Nat) (start : List Int) : α :=
  ar.sum ((indices (w.shape.drop wlead.length)).reverse.map fun k =>
    ar.mul (paddedAt ar.zero x lead start k) (w.get (wlead ++ k)))

/-- Where the windows of a convolution start and how many there are along each spatial axis. -/
structure Windows where
  /-- The number of positions of the result. -/
  counts : List Nat
  /-- The start of the first window, relative to the input. -/
  first : List Int
  /-- The distance from one window to the next. -/
  strides : List Int

def Windows.start (v : Windows) (o : List Nat) : List Int :=
  (v.first.zip (v.strides.zip o)).map fun (f, s, i) => f + (i : Int) * s

/-- The convolution over given windows. Products and their sums over a window are taken in
`inner`, the sums over the channels in `outer`. -/
def convolve (inner outer : Arithmetic α) (x w : Tensor α) (v : Windows) : Tensor α :=
  ofFn (x.shape.getD 0 0 :: w.shape.getD 0 0 :: v.counts) fun i =>
    let n := i.getD 0 0
    let f := i.getD 1 0
    outer.sum ((range (x.shape.getD 1 0)).map fun c => windowSum inner x w [n, c] [f, c] (v.start (i.drop 2)))

/-- Put gaps between the elements along each axis and fill them. -/
def dilate (fill : α) (x : Tensor α) (strides : List Nat) : Tensor α :=
  ofFn ((x.shape.zip strides).map fun (n, s) => (n - 1) * s + 1) fun i =>
    if (i.zip strides).all fun (p, s) => p % s == 0 then
      x.get ((i.zip strides).map fun (p, s) => p / s)
    else fill

def flipKernel (w : Tensor α) : Tensor α :=
  let kernel := w.shape.drop 2
  ofFn (w.shape.getD 1 0 :: w.shape.getD 0 0 :: kernel) fun i =>
    w.get (i.getD 1 0 :: i.getD 0 0 :: (kernel.zip (i.drop 2)).map fun (n, p) => n - 1 - p)

def transposeWindows (counts : List Nat) (before : List Int) : Windows :=
  ⟨counts, before.map (- ·), .replicate counts.length 1⟩

def convolveTranspose (inner outer : Arithmetic α) (x w : Tensor α) (strides : List Nat)
    (before : List Int) (counts : List Nat) : Tensor α :=
  convolve inner outer (dilate inner.zero x (1 :: 1 :: strides)) (flipKernel w) (transposeWindows counts before)

/-! ### Blocks of space, batch and depth

Operators that move blocks of the spatial axes into the batch or the channels and back. Each is a
change of shape, a reordering of axes and another change of shape.
-/

variable (t : Tensor α)

def rearrange (wide axes final : List Nat) : Result (Tensor α) := do
  let split ← t.reshape wide
  let moved ← split.transpose axes
  moved.reshape final

def pad (fill : α) (t : Tensor α) (amounts : List (Nat × Nat)) : Tensor α :=
  ofFn ((t.shape.zip amounts).map fun (n, b, a) => n + b + a) fun i =>
    let places := (i.zip (t.shape.zip amounts)).map fun (p, n, b, _) =>
      if b ≤ p && p - b < n then some (p - b) else none
    match places.mapM id with
    | some j => t.get j
    | none => fill

/-- The axes that bring the block positions of `m` spatial axes, each right after its axis, to the
front. -/
def gatherAxes (m rank : Nat) : List Nat :=
  (range m).map (2 * · + 2) ++ [0] ++ (range m).map (2 * · + 1) ++
    (range (rank - 1 - m)).map (2 * m + 1 + ·)

def spaceToBatch (fill : α) (t : Tensor α) (block before after : List Nat) : Result (Tensor α) := do
  let m := block.length
  let amounts := (0, 0) :: before.zip after ++ .replicate (t.rank - 1 - m) (0, 0)
  if amounts.length != t.rank then fail .badValue
  let p := pad fill t amounts
  if block.contains 0 then fail .zeroDivision
  let batch := t.shape.getD 0 0
  let rest := t.shape.drop (m + 1)
  let blocked := (p.shape.drop 1).zip block
  p.rearrange (batch :: blocked.flatMap (fun (n, b) => [n / b, b]) ++ rest) (gatherAxes m t.rank)
    (batch * volume block :: blocked.map (fun (n, b) => n / b) ++ rest)

/-- The axes that put each block position right after its spatial axis. The block positions stand
first, then the batch; after each further axis the next block position is taken as long as axes
are missing. -/
def spreadAxes (m rank : Nat) : List Nat :=
  (range (rank - 1)).foldl (fun axes i =>
    let axes := axes ++ [m + 1 + i]
    if axes.length < m + rank then axes ++ [i] else axes) [m]

def batchToSpace (block : List Nat) (cropBefore cropAfter : List Int) : Result (Tensor α) := do
  let m := block.length
  let batch := t.shape.getD 0 0
  let count := volume block
  if m == 0 then fail .badType
  if t.rank ≤ m then fail .badIndex
  if count == 0 then (if batch == 0 then fail .badValue else fail .overflow)
  let spatial := ((t.shape.drop 1).zip block).map fun (n, b) => n * b
  let final := batch / count :: spatial ++ t.shape.drop (m + 1)
  let moved ← t.rearrange (block ++ [batch / count] ++ t.shape.drop 1) (spreadAxes m t.rank) final
  if cropBefore.length < m || cropAfter.length < m then fail .badIndex
  let begins := 0 :: cropBefore.take m ++ .replicate (t.rank - 1 - m) 0
  let ends := (final.zip (0 :: cropAfter.take m ++ .replicate (t.rank - 1 - m) 0)).map
    fun (n, c) => (n : Int) - c
  moved.stridedSlice begins ends (.replicate t.rank 1)

def fourAxes : Result (Nat × Nat × Nat × Nat) :=
  match t.shape with
  | [n, c, h, w] => .ok (n, c, h, w)
  | _ => fail .badValue

/-- Move blocks of height and width into the channels. The new width is reckoned from the
height, so only square images are accepted. -/
def spaceToDepth (block : Nat) : Result (Tensor α) := do
  let (n, c, h, _) ← t.fourAxes
  if block == 0 then fail .zeroDivision
  let side := h / block
  t.rearrange [n, c, side, block, side, block] [0, 3, 5, 1, 2, 4] [n, c * (block * block), side, side]

/-- Move channels into blocks of height and width. With `depthFirst` the block position is the
outer part of a channel's number, otherwise the inner part. The new width is reckoned from the
height, so only square images are accepted. -/
def depthToSpace (block : Nat) (depthFirst : Bool) : Result (Tensor α) := do
  let (n, c, h, w) ← t.fourAxes
  if block == 0 then fail .zeroDivision
  let depth := c / (block * block)
  let final := [n, depth, h * block, h * block]
  if depthFirst then t.rearrange [n, block, block, depth, h, w] [0, 3, 4, 1, 5, 2] final
  else t.rearrange [n, depth, block, block, h, w] [0, 1, 4, 2, 5, 3] final

end Tensor

end TensorToolchain
