import TensorToolchain.Operator.Convolution
import TensorToolchain.Operator.Normalization
import TensorToolchain.Operator.Sampling

/-!
# Registry of operators

The operators by name, with the names and defaults of their parameters.
-/

namespace TensorToolchain.Operator

structure Entry where
  name : String
  params : List Parameter
  run : List Argument → Result Report

/-- Parameters with the names in a text, and then some with defaults. -/
def parameters (names : String) (defaults : List (String × Argument)) : List Parameter :=
  (wordsOf names).map (⟨·, none⟩) ++ defaults.map fun (name, value) => ⟨name, some value⟩

def reported {α : Type} [ToReport α] (r : Result α) : Result Report := do
  return toReport (← r)

/-- A function that reads its arguments one after another, tensors from those that hold one. -/
class Callable (φ : Type) where
  call : φ → List Argument → Result Report

instance {α : Type} [ToReport α] : Callable (Result α) where
  call result
    | [] => reported result
    | _ => fail .badType

instance {φ : Type} [Callable φ] : Callable (TypedTensor → φ) where
  call f
    | x :: args => do Callable.call (f (← x.asTensor)) args
    | [] => fail .badType

instance {φ : Type} [Callable φ] : Callable (Argument → φ) where
  call f
    | x :: args => Callable.call (f x) args
    | [] => fail .badType

def entry {φ : Type} [Callable φ] (name names : String) (defaults : List (String × Argument)) (f : φ) : Entry :=
  ⟨name, parameters names defaults, Callable.call f⟩

def deformableNames : String := "a offset w stride padding dilation deformable_groups groups"

def convolutions : List Entry := [
  entry "conv1d_ncw" "a w stride padding dilation" [] conv1d,
  entry "group_conv1d_ncw" "a w stride padding dilation groups" [] groupConv1d,
  entry "conv2d_nchw" "a w stride padding" [("groups", .int 1)] conv2dChannelsFirst,
  entry "conv2d_nhwc" "a w stride padding" [("groups", .int 1)] conv2dChannelsLast,
  entry "conv2d_hwcn" "a w stride padding" [] conv2dBatchLast,
  entry "conv3d_ncdhw" "a w stride padding" [("groups", .int 1)] conv3dChannelsFirst,
  entry "conv3d_ndhwc" "a w stride padding" [("groups", .int 1)] conv3dChannelsLast,
  entry "conv1d_transpose_ncw" "a w stride padding output_padding" [] conv1dTranspose,
  entry "conv2d_transpose_nchw" "a w stride padding output_padding" [("groups", .int 1)] conv2dTranspose,
  entry "conv2d_transpose_nhwc" "a_nhwc weight weight_format stride padding"
    [("output_padding", .tuple [.int 0, .int 0])] conv2dTransposeChannelsLast,
  entry "conv3d_transpose_ncdhw" "a w stride padding output_padding" [] conv3dTranspose,
  entry "depthwise_conv2d_nchw" "input filter stride padding" [] depthwise,
  entry "depthwise_conv2d_nhwc" "input filter stride padding" [] depthwiseChannelsLast,
  entry "depthwise_conv2d_nchwc" "input filter stride padding" [] depthwiseBlocked,
  entry "conv2d_backward_weight" "dy x kernel_size stride padding"
    [("layout", .text "NCHW"), ("groups", .int 1), ("channels", .none)] weightGradientIn,
  entry "deformable_conv2d_nchw" deformableNames [] deformable,
  ⟨"deformable_conv2d_nhwc", parameters deformableNames [], fun
    | [a, o, w, s, p, d, dg, g] => do
      let a ← (← a.asTensor).transpose [0, 3, 1, 2]
      let o ← (← o.asTensor).transpose [0, 3, 1, 2]
      let w ← (← w.asTensor).transpose [3, 2, 0, 1]
      let r ← deformable a o w s p d dg g
      reported (r.transpose [0, 2, 3, 1])
    | _ => fail .badType⟩,
  entry "correlation_nchw" "data1 data2 kernel_size max_displacement stride1 stride2 padding is_multiply" []
    correlation]

def layers : List Entry := [
  entry "batch_matmul" "x y" [("out_dtype", .none), ("trans_x", .bool false), ("trans_y", .bool true)] batchMatmul,
  entry "dense" "x y bias" [("use_bias", .bool false), ("use_relu", .bool false), ("out_dtype", .none)] dense,
  entry "matrix_set_diag" "input diagonal" [("k", .int 0), ("align", .text "RIGHT_LEFT")] setDiagonal,
  ⟨"lstm", parameters "Xs Wi Wh" (["Bi", "Bh", "h_init", "c_init", "proj", "p_i", "p_f", "p_o"].map (·, .none) ++
    [("f_act", .text "sigmoid"), ("g_act", .text "tanh"), ("h_act", .text "tanh"), ("reverse", .bool false),
      ("weight_layout", .text "IFGO")]), fun args => reported (recurrent args)⟩,
  entry "batch_norm" "x gamma beta moving_mean moving_var axis epsilon center scale" []
    fun x g b m v => batchNorm x m v g b,
  entry "layer_norm" "data gamma beta axis" [("epsilon", .float 1e-5)] layerNorm,
  entry "l2_normalize" "a eps" [("axis", .none)] lengthNormalize,
  entry "softmax" "a" [("axis", .int 1)] softmax,
  entry "log_softmax" "a" [("axis", .int 1)] logSoftmax,
  entry "lrn" "a size axis bias alpha beta" [] localResponse,
  entry "nll_loss" "predictions targets weights" [("reduction", .text "mean"), ("ignore_index", .int (-100))]
    negativeLogLikelihood]

def resizeDefaults (layout : String) : List (String × Argument) := [
  ("layout", .text layout), ("method", .text "nearest_neighbor"),
  ("coordinate_transformation_mode", .text "align_corners")]

def imaging : List Entry := [
  entry "adaptive_pool" "data out_size pool_type layout" [] adaptivePool,
  entry "pool_grad_nchw" "a out_grad pool_size strides padding pool_type ceil_mode"
    [("count_include_pad", .bool true)] fun x g k s p t (_ : Argument) => poolGradient x g k s p t,
  entry "resize1d" "data scale" (resizeDefaults "NCW") resize1d,
  entry "resize2d" "data scale" (resizeDefaults "NCHW") resize2d,
  entry "resize3d" "data scale" (resizeDefaults "NCDHW") resize3d,
  entry "affine_grid" "data target_shape" [] affineGrid,
  entry "grid_sample" "data grid" [("method", .text "bilinear"), ("layout", .text "NCHW"),
    ("padding_mode", .text "zeros"), ("align_corners", .bool true)] gridSample,
  entry "crop_and_resize" "image boxes box_indices crop_size layout"
    [("method", .text "bilinear"), ("extrapolation_value", .int 0)] cropAndResize,
  entry "roi_align_nchw" "a rois pooled_size spatial_scale sample_ratio" [("mode", .text "avg")] (alignRegions false),
  entry "roi_align_nhwc" "a rois pooled_size spatial_scale sample_ratio" [("mode", .text "avg")] (alignRegions true),
  entry "roi_pool_nchw" "a rois pooled_size spatial_scale" [] poolRegions]

def arrangements : List Entry := [
  entry "batch_to_space_nd" "data block_shape crop_begin_list crop_end_list" [] batchToSpace,
  entry "space_to_batch_nd" "data block_shape pad_before pad_after" [("pad_value", .int 0)] spaceToBatch,
  entry "space_to_depth" "data block_size" [] spaceToDepth,
  entry "depth_to_space" "data block_size" [("mode", .text "DCR")] depthToSpace,
  entry "dilate" "input strides" [("dilation_value", .float 0.0), ("out_dtype", .none)] dilate,
  entry "reorg" "a stride" [] reorganize,
  entry "gather" "data axis indices" [] gather,
  entry "gather_nd" "a indices" [] gatherParts,
  entry "one_hot" "indices on_value off_value depth axis dtype" [] oneHot,
  entry "searchsorted_ref" "sorted_sequence values right out_dtype" [] searchSorted,
  entry "sequence_mask" "data valid_length mask_value axis" [] sequenceMask,
  entry "slice_axis" "data axis begin" [("end", .none)] sliceAxis,
  entry "strided_slice" "data begin end strides" [("slice_mode", .text "end"), ("axes", .none)] stridedSlice,
  entry "strided_set" "data v begin end strides" [] stridedSet]

def entries : List Entry := convolutions ++ layers ++ imaging ++ arrangements

def call (name : String) (args : List Argument) (named : List (String × Argument)) : Result Report := do
  let e ← orFail .missingAttribute (entries.find? (·.name == name))
  e.run (← bindArguments e.params args named)

end TensorToolchain.Operator
