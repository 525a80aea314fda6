import TensorToolchain.Report

/-!
# Tiled layouts

Layouts that split the axes of a tensor into tiles. A layout maps an index to the number of its
tile and its place inside the tile; in a two-dimensional layout a separator stands between them.
-/

namespace TensorToolchain

/-- A part of an index in a tiled layout, for axis `axis` of the index. -/
inductive TilePart where
  /-- The axis itself. -/
  | whole (axis : Nat)
  /-- The number of the tile of a size. -/
  | tile (axis size : Nat)
  /-- The place inside a tile of a size. -/
  | within (axis size : Nat)
  /-- The number of the smaller tile inside a tile. -/
  | inner (axis size part : Nat)
  /-- The separator between the two dimensions of memory. -/
  | separator

namespace TilePart

/-- The first axis, tiles of the others, and the places inside the tiles. -/
def grid (sizes : List Nat) (gap : List TilePart) : Nat × List TilePart :=
  let axes := sizes.zipIdx 1
  (sizes.length + 1, whole 0 :: axes.map (fun (n, a) => tile a n) ++ gap ++ axes.map fun (n, a) => within a n)

/-- Tiles of the last axis of four. -/
def rows (n : Nat) (gap : List TilePart) : Nat × List TilePart :=
  (4, [whole 0, whole 1, whole 2, tile 3 n] ++ gap ++ [within 3 n])

/-- Tiles of height `h`, in which two columns lie side by side. -/
def paired (h : Nat) (gap : List TilePart) : Nat × List TilePart :=
  (4, [whole 0, tile 1 h, tile 2 4, tile 3 32] ++ gap ++ [within 1 h, inner 2 4 2, within 3 32, within 2 2])

/-- The layouts by name: how many axes an index has, and the parts of the new index. -/
def layouts : List (String × Nat × List TilePart) :=
  let bar := [separator]
  [("nhwc-8h2w32c2w-2d", paired 8 bar), ("nhwc-8h2w32c2w-1d", paired 8 []), ("n11c-1024c-2d", rows 1024 bar),
    ("n11c-1024c-1d", rows 1024 []), ("nhwc-1024c-2d", rows 1024 bar), ("nc-1024-2d", grid [1024] bar),
    ("nhw-32h16w-2d", grid [32, 16] bar), ("nhwc-4h4w32c-2d", grid [4, 4, 32] bar),
    ("nhwc-4h4w32c-1d", grid [4, 4, 32] []), ("nc-512c-2d", grid [512] bar), ("nc-512c-1d", grid [512] []),
    ("nhwc-4h2w32c2w-2d", paired 4 bar), ("nc-1024c-2d", grid [1024] bar),
    ("iohw-16i32o2i-1d", 4, [tile 2 32, tile 3 32, whole 0, whole 1, inner 2 32 2, within 3 32, within 2 2]),
    ("nhwc-2048c-2d", rows 2048 bar), ("nc-2048-2d", grid [2048] bar), ("nc-2048c-2d", grid [2048] bar),
    ("nhwc-8h8w32c-2d", grid [8, 8, 32] bar), ("n11c-2048c-2d", rows 2048 bar),
    ("ohwi32o-1d", 4, [tile 3 32, whole 0, whole 1, whole 2, within 3 32]), ("ncw-32c64w-2d", grid [32, 64] bar),
    ("nchw-32c8h8w-2d", grid [32, 8, 8] bar), ("nchw-32c8h4w-2d", grid [32, 8, 4] bar)]

def value (index : List Int) : TilePart → Option Int
  | whole a => some (index.getD a 0)
  | tile a n => some ((index.getD a 0).fdiv n)
  | within a n => some ((index.getD a 0).fmod n)
  | inner a n p => some (((index.getD a 0).fmod n).fdiv p)
  | separator => none

end TilePart

/-- The index in a named layout of each of some indices; the separator is written as a bar. -/
def tileIndices (layout : String) (indices : List (List Int)) : Result (List (List Report)) := do
  match TilePart.layouts.lookup layout with
  | none => refuse .runtime ("Unexpected layout '" ++ layout ++ "'")
  | some (axes, parts) =>
    indices.mapM fun index => do
      demand (index.length == axes) .badType
      return parts.map fun p => ((p.value index).map .int).getD (.text "|")

end TensorToolchain
