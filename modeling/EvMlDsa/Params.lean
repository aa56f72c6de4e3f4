import Mathlib.Data.UInt
import Mathlib.Tactic

/-!
# Parameters of the tree and commitment layer

The constants of `ev_params.h` and the parameter record every other structure of the scheme
carries. `EvParams.ofDepth` is the record `ev_keygen` writes for a lifetime of `2 ^ depth`
periods.
-/

set_option autoImplicit false
set_option relaxedAutoImplicit false

namespace EvMlDsa

/-- `EV_MAX_DEPTH`. -/
def evMaxDepth : ℕ := 20

/-- `EV_HASH_BYTES`. -/
def evHashBytes : ℕ := 32

/-! ### Domain separators -/

/-- `EV_DOM_LEFT`, left-child derivation. -/
def evDomLeft : UInt8 := 0x01

/-- `EV_DOM_RIGHT`, right-child derivation. -/
def evDomRight : UInt8 := 0x02

/-- `EV_DOM_LEAFKEY`, expansion of a leaf seed. -/
def evDomLeafkey : UInt8 := 0x03

/-- `EV_DOM_NODE`, inner Merkle node. -/
def evDomNode : UInt8 := 0x04

/-- `EV_DOM_M`, composite message. -/
def evDomM : UInt8 := 0x05

/-- `EV_DOM_LEAF`, Merkle leaf. -/
def evDomLeaf : UInt8 := 0x06

/-- `EV_DOM_MATRIX`, per-period matrix seed. -/
def evDomMatrix : UInt8 := 0x07

/-- `ev_params`: the number of periods and its logarithm. -/
structure EvParams where
  T : UInt32
  depth : UInt32
deriving DecidableEq, Repr

/-- The parameters of a lifetime of `2 ^ depth` periods. -/
def EvParams.ofDepth (depth : ℕ) : EvParams where
  T := UInt32.ofNat (2 ^ depth)
  depth := UInt32.ofNat depth

@[simp] theorem EvParams.ofDepth_depth (depth : ℕ) :
    (EvParams.ofDepth depth).depth = UInt32.ofNat depth := rfl

theorem two_pow_le_of_le_evMaxDepth {depth : ℕ} (hdepth : depth ≤ evMaxDepth) :
    2 ^ depth ≤ 1048576 :=
  Nat.pow_le_pow_right (by decide) hdepth

/-- Levels and depths fit a `uint32_t`. -/
theorem toNat_ofNat_of_le_evMaxDepth {level : ℕ} (hlevel : level ≤ evMaxDepth) :
    (UInt32.ofNat level).toNat = level := by
  unfold evMaxDepth at hlevel
  exact UInt32.toNat_ofNat_of_lt' (show _ < 4294967296 by omega)

theorem toNat_ofDepth_T {depth : ℕ} (hdepth : depth ≤ evMaxDepth) :
    (EvParams.ofDepth depth).T.toNat = 2 ^ depth := by
  have hbound := two_pow_le_of_le_evMaxDepth hdepth
  exact UInt32.toNat_ofNat_of_lt' (show _ < 4294967296 by omega)

theorem toNat_ofDepth_depth {depth : ℕ} (hdepth : depth ≤ evMaxDepth) :
    (EvParams.ofDepth depth).depth.toNat = depth :=
  toNat_ofNat_of_le_evMaxDepth hdepth

/-- Period numbers fit a `uint32_t`. -/
theorem toNat_ofNat_of_lt_two_pow {depth p : ℕ} (hdepth : depth ≤ evMaxDepth)
    (hp : p < 2 ^ depth) : (UInt32.ofNat p).toNat = p := by
  have hbound := two_pow_le_of_le_evMaxDepth hdepth
  exact UInt32.toNat_ofNat_of_lt' (show _ < 4294967296 by omega)

end EvMlDsa
