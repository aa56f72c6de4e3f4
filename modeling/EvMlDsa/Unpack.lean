import EvMlDsa.Dilithium

/-!
# Unpacking leaf keys

`unpack_pk` and `unpack_sk` of the Dilithium reference code. A packed polynomial is a string of
codes of a fixed number of bits. As long as every coefficient is in the range its code is made for,
unpacking gives the packed coefficients back, group by group (`polyt1Ungroup_polyt1Group` and its
siblings), and so does unpacking a whole key (`unpackPk_packPk`, `unpackSk_packSk`).
-/

set_option autoImplicit false
set_option relaxedAutoImplicit false

namespace EvMlDsa

open Library.FixedArray

/-! ### Unpacking -/

/-- The four coefficients `polyt1_unpack` reads from bytes `5 * i` to `5 * i + 4`. -/
def polyt1Ungroup (a : ℕ → UInt8) (i : ℕ) : List Int32 :=
  let b := fun j ↦ (a (5 * i + j)).toUInt32
  [((b 0 ||| (b 1 <<< 8)) &&& 0x3FF).toInt32,
   (((b 1 >>> 2) ||| (b 2 <<< 6)) &&& 0x3FF).toInt32,
   (((b 2 >>> 4) ||| (b 3 <<< 4)) &&& 0x3FF).toInt32,
   (((b 3 >>> 6) ||| (b 4 <<< 2)) &&& 0x3FF).toInt32]

/-- The coefficients `polyeta_unpack` reads in one round of its loop: eight from three bytes where
`ETA` is 2, two from one byte where it is 4. -/
def polyetaUngroup (mode : DilithiumMode) (a : ℕ → UInt8) (i : ℕ) : List Int32 :=
  let b := fun width j ↦ (a (width * i + j)).toUInt32
  let codes :=
    match mode with
    | .three => [b 1 0 &&& 0x0F, b 1 0 >>> 4]
    | _ =>
      [b 3 0 &&& 7,
       (b 3 0 >>> 3) &&& 7,
       ((b 3 0 >>> 6) ||| (b 3 1 <<< 2)) &&& 7,
       (b 3 1 >>> 1) &&& 7,
       (b 3 1 >>> 4) &&& 7,
       ((b 3 1 >>> 7) ||| (b 3 2 <<< 1)) &&& 7,
       (b 3 2 >>> 2) &&& 7,
       (b 3 2 >>> 5) &&& 7]
  codes.map fun code ↦ mode.eta - code.toInt32

/-- The eight coefficients `polyt0_unpack` reads from bytes `13 * i` to `13 * i + 12`. -/
def polyt0Ungroup (a : ℕ → UInt8) (i : ℕ) : List Int32 :=
  let b := fun j ↦ (a (13 * i + j)).toUInt32
  let codes :=
    [(b 0 ||| (b 1 <<< 8)) &&& 0x1FFF,
     ((b 1 >>> 5) ||| (b 2 <<< 3) ||| (b 3 <<< 11)) &&& 0x1FFF,
     ((b 3 >>> 2) ||| (b 4 <<< 6)) &&& 0x1FFF,
     ((b 4 >>> 7) ||| (b 5 <<< 1) ||| (b 6 <<< 9)) &&& 0x1FFF,
     ((b 6 >>> 4) ||| (b 7 <<< 4) ||| (b 8 <<< 12)) &&& 0x1FFF,
     ((b 8 >>> 1) ||| (b 9 <<< 7)) &&& 0x1FFF,
     ((b 9 >>> 6) ||| (b 10 <<< 2) ||| (b 11 <<< 10)) &&& 0x1FFF,
     ((b 11 >>> 3) ||| (b 12 <<< 5)) &&& 0x1FFF]
  codes.map fun code ↦ ((1 : Int32) <<< 12) - code.toInt32

/-- A loop that sets one group of `width` coefficients after the other. -/
def unpackGroups (width : ℕ) (group : ℕ → List Int32) : Poly :=
  Vector.ofFn fun k ↦ (group (k.val / width)).getD (k.val % width) 0

/-- `polyt1_unpack`. -/
def polyt1Unpack (a : ℕ → UInt8) : Poly := unpackGroups 4 (polyt1Ungroup a)

/-- The coefficients `polyeta_unpack` sets in one round of its loop. -/
def DilithiumMode.polyetaGroupCoeffs : DilithiumMode → ℕ
  | two => 8
  | three => 2
  | five => 8

/-- `polyeta_unpack`. -/
def polyetaUnpack (mode : DilithiumMode) (a : ℕ → UInt8) : Poly :=
  unpackGroups mode.polyetaGroupCoeffs (polyetaUngroup mode a)

/-- `polyt0_unpack`. -/
def polyt0Unpack (a : ℕ → UInt8) : Poly := unpackGroups 8 (polyt0Ungroup a)

/-- The loop that unpacks the polynomials of a vector one after the other. -/
def unpackVec (count : ℕ) (unpack : (ℕ → UInt8) → Poly) (width : ℕ) (a : ℕ → UInt8) :
    Vector Poly count :=
  Vector.ofFn fun i ↦ unpack fun k ↦ a (i.val * width + k)

/-- `unpack_pk`: `rho` and `t1`. -/
def unpackPk (mode : DilithiumMode) (pk : Vector UInt8 (cryptoPublickeybytes mode)) :
    Vector UInt8 seedBytes × Vector Poly mode.K :=
  (Vector.ofFn fun i ↦ pk.getD i.val 0,
    unpackVec mode.K polyt1Unpack polyt1PackedBytes fun k ↦ pk.getD (seedBytes + k) 0)

/-- What `unpack_sk` finds in a secret key. -/
structure UnpackedSk (mode : DilithiumMode) where
  rho : Vector UInt8 seedBytes
  tr : Vector UInt8 trBytes
  key : Vector UInt8 seedBytes
  t0 : Vector Poly mode.K
  s1 : Vector Poly mode.L
  s2 : Vector Poly mode.K

/-- `unpack_sk`. -/
def unpackSk (mode : DilithiumMode) (sk : Vector UInt8 (cryptoSecretkeybytes mode)) :
    UnpackedSk mode :=
  let s1Off := 2 * seedBytes + trBytes
  let s2Off := s1Off + mode.L * mode.polyetaPackedBytes
  let t0Off := s2Off + mode.K * mode.polyetaPackedBytes
  { rho := Vector.ofFn fun i ↦ sk.getD i.val 0
    key := Vector.ofFn fun i ↦ sk.getD (seedBytes + i.val) 0
    tr := Vector.ofFn fun i ↦ sk.getD (2 * seedBytes + i.val) 0
    s1 := unpackVec mode.L (polyetaUnpack mode) mode.polyetaPackedBytes fun k ↦
      sk.getD (s1Off + k) 0
    s2 := unpackVec mode.K (polyetaUnpack mode) mode.polyetaPackedBytes fun k ↦
      sk.getD (s2Off + k) 0
    t0 := unpackVec mode.K polyt0Unpack polyt0PackedBytes fun k ↦ sk.getD (t0Off + k) 0 }

/-! ### Codes -/

/-- A coefficient that is not negative has the bits of its value. -/
theorem toNat_toBitVec_of_nonneg {x : Int32} (hnonneg : 0 ≤ x.toInt) :
    (x.toBitVec.toNat : ℤ) = x.toInt := by
  rw [Int32.toInt, BitVec.toInt_eq_toNat_cond] at *
  split_ifs at * with hsmall
  · rfl
  · have := x.toBitVec.isLt
    omega

/-- Above its width a code has no bits. -/
theorem getLsbD_code {x : Int32} {w i : ℕ} (hcode : x.toBitVec.toNat < 2 ^ w) (hi : w ≤ i) :
    x.toBitVec.getLsbD i = false := by
  rw [BitVec.getLsbD]
  exact Nat.testBit_lt_two_pow (lt_of_lt_of_le hcode (Nat.pow_le_pow_right (by decide) hi))

/-- A masked word is a code if its bits below the mask are. -/
theorem toInt32_and_mask {x mask : UInt32} {y : Int32} {w : ℕ} (hmask : mask.toNat = 2 ^ w - 1)
    (hcode : y.toBitVec.toNat < 2 ^ w)
    (hbits : ∀ i < w, x.toBitVec.getLsbD i = y.toBitVec.getLsbD i) :
    (x &&& mask).toInt32 = y := by
  rw [← Int32.toBitVec_inj]
  refine BitVec.eq_of_getLsbD_eq fun i _ ↦ ?_
  have hmaskBit : mask.toBitVec.getLsbD i = decide (i < w) := by
    have hvalue : mask.toBitVec.toNat = 2 ^ w - 1 := hmask
    rw [BitVec.getLsbD, hvalue, Nat.testBit_two_pow_sub_one]
  have hand : (x &&& mask).toInt32.toBitVec.getLsbD i =
      (x.toBitVec.getLsbD i && decide (i < w)) := by
    rw [← hmaskBit, ← BitVec.getLsbD_and]
    rfl
  rw [hand]
  rcases Nat.lt_or_ge i w with hlow | hhigh
  · rw [hbits i hlow, decide_eq_true hlow, Bool.and_true]
  · rw [decide_eq_false (Nat.not_lt.mpr hhigh), Bool.and_false, getLsbD_code hcode hhigh]

/-- The same for a code that was subtracted from `base`. -/
theorem sub_toInt32_and_mask {base c : Int32} {x mask : UInt32} {w : ℕ}
    (hmask : mask.toNat = 2 ^ w - 1) (hcode : (base - c).toBitVec.toNat < 2 ^ w)
    (hbits : ∀ i < w, x.toBitVec.getLsbD i = (base - c).toBitVec.getLsbD i) :
    base - (x &&& mask).toInt32 = c := by
  rw [toInt32_and_mask hmask hcode hbits, Int32.sub_eq_iff_eq_add, Int32.add_comm,
    Int32.sub_add_cancel]

/-! ### One group -/

theorem getLsbD_lowByte (a : Int32) (i : ℕ) :
    (lowByte a).toBitVec.getLsbD i = (decide (i < 8) && a.toBitVec.getLsbD i) := by
  simp [lowByte]

/-- Five bytes hold four codes of ten bits. -/
theorem polyt1Ungroup_polyt1Group {a : Poly} {i : ℕ} {bytes : ℕ → UInt8}
    (hbytes : ∀ j < 5, bytes (5 * i + j) = (polyt1Group a i).getD j 0)
    (hcode : ∀ j < 4, (a.getD (4 * i + j) 0).toBitVec.toNat < 2 ^ 10) :
    polyt1Ungroup bytes i = (List.range 4).map fun j ↦ a.getD (4 * i + j) 0 := by
  obtain ⟨coeff, hcoeff⟩ : ∃ coeff : ℕ → Int32, ∀ j, a.getD (4 * i + j) 0 = coeff j :=
    ⟨_, fun _ ↦ rfl⟩
  simp only [polyt1Group, hcoeff] at hbytes hcode ⊢
  have hbits (j : ℕ) (hj : j < 4) (k : ℕ) (hk : 10 ≤ k) :
      (coeff j).toBitVec.getLsbD k = false := getLsbD_code (hcode j hj) hk
  have hrange : (List.range 4).map coeff = [coeff 0, coeff 1, coeff 2, coeff 3] := rfl
  simp only [polyt1Ungroup, hbytes 0 (by decide), hbytes 1 (by decide), hbytes 2 (by decide),
    hbytes 3 (by decide), hbytes 4 (by decide), hrange, List.getD_cons_zero, List.getD_cons_succ,
    List.cons.injEq, and_true]
  clear hbytes hrange
  have hmask : (0x3FF : UInt32).toNat = 2 ^ 10 - 1 := rfl
  refine ⟨toInt32_and_mask hmask (hcode 0 (by decide)) ?_,
    toInt32_and_mask hmask (hcode 1 (by decide)) ?_,
    toInt32_and_mask hmask (hcode 2 (by decide)) ?_,
    toInt32_and_mask hmask (hcode 3 (by decide)) ?_⟩ <;>
  · clear hcode
    -- above its width a code has no bits, so the codes that share a byte do not overlap
    intro k hk
    simp only [UInt32.toBitVec_or, UInt32.toBitVec_shiftRight, UInt8.toBitVec_toUInt32,
      UInt32.toBitVec_ofNat, BitVec.ofNat_eq_ofNat, BitVec.reduceMod, BitVec.ushiftRight_eq',
      BitVec.toNat_ofNat, Nat.reducePow, Nat.reduceMod, UInt32.toBitVec_shiftLeft,
      BitVec.shiftLeft_eq', BitVec.getLsbD_or, BitVec.getLsbD_ushiftRight, BitVec.getLsbD_setWidth,
      getLsbD_lowByte, Int32.toBitVec_or, Int32.toBitVec_shiftRight, Int32.toBitVec_ofNat,
      BitVec.reduceSMod, BitVec.sshiftRight_eq', Int32.toBitVec_shiftLeft,
      BitVec.getLsbD_sshiftRight, BitVec.getLsbD_shiftLeft]
    grind

theorem map_range_eight (coeff : ℕ → Int32) :
    (List.range 8).map coeff =
      [coeff 0, coeff 1, coeff 2, coeff 3, coeff 4, coeff 5, coeff 6, coeff 7] :=
  rfl

/-- Thirteen bytes hold eight codes of thirteen bits. -/
theorem polyt0Ungroup_polyt0Group {a : Poly} {i : ℕ} {bytes : ℕ → UInt8}
    (hbytes : ∀ j < 13, bytes (13 * i + j) = (polyt0Group a i).getD j 0)
    (hcode : ∀ j < 8, ((1 : Int32) <<< 12 - a.getD (8 * i + j) 0).toBitVec.toNat < 2 ^ 13) :
    polyt0Ungroup bytes i = (List.range 8).map fun j ↦ a.getD (8 * i + j) 0 := by
  obtain ⟨coeff, hcoeff⟩ : ∃ coeff : ℕ → Int32, ∀ j, a.getD (8 * i + j) 0 = coeff j :=
    ⟨_, fun _ ↦ rfl⟩
  simp only [polyt0Group, hcoeff] at hbytes hcode ⊢
  have hbits (j : ℕ) (hj : j < 8) (k : ℕ) (hk : 13 ≤ k) :
      ((1 : Int32) <<< 12 - coeff j).toBitVec.getLsbD k = false := getLsbD_code (hcode j hj) hk
  simp only [polyt0Ungroup, hbytes 0 (by decide), hbytes 1 (by decide), hbytes 2 (by decide),
    hbytes 3 (by decide), hbytes 4 (by decide), hbytes 5 (by decide), hbytes 6 (by decide),
    hbytes 7 (by decide), hbytes 8 (by decide), hbytes 9 (by decide), hbytes 10 (by decide),
    hbytes 11 (by decide), hbytes 12 (by decide), map_range_eight, List.getD_cons_zero,
    List.getD_cons_succ, List.map_cons, List.map_nil, List.cons.injEq, and_true]
  clear hbytes
  have hmask : (0x1FFF : UInt32).toNat = 2 ^ 13 - 1 := rfl
  refine ⟨sub_toInt32_and_mask hmask (hcode 0 (by decide)) ?_,
    sub_toInt32_and_mask hmask (hcode 1 (by decide)) ?_,
    sub_toInt32_and_mask hmask (hcode 2 (by decide)) ?_,
    sub_toInt32_and_mask hmask (hcode 3 (by decide)) ?_,
    sub_toInt32_and_mask hmask (hcode 4 (by decide)) ?_,
    sub_toInt32_and_mask hmask (hcode 5 (by decide)) ?_,
    sub_toInt32_and_mask hmask (hcode 6 (by decide)) ?_,
    sub_toInt32_and_mask hmask (hcode 7 (by decide)) ?_⟩ <;>
  · clear hcode
    intro k hk
    simp only [UInt32.toBitVec_or, UInt32.toBitVec_shiftRight, UInt8.toBitVec_toUInt32,
      UInt32.toBitVec_ofNat, BitVec.ofNat_eq_ofNat, BitVec.reduceMod, BitVec.ushiftRight_eq',
      BitVec.toNat_ofNat, Nat.reducePow, Nat.reduceMod, UInt32.toBitVec_shiftLeft,
      BitVec.shiftLeft_eq', BitVec.getLsbD_or, BitVec.getLsbD_ushiftRight, BitVec.getLsbD_setWidth,
      UInt8.toBitVec_or, UInt32.toBitVec_toUInt8, Int32.toBitVec_toUInt32, BitVec.getLsbD_shiftLeft]
    grind

/-- Where `ETA` is 2, three bytes hold eight codes of three bits. -/
theorem polyetaUngroup_polyetaGroup_of_eta_two {mode : DilithiumMode} (hmode : mode ≠ .three)
    {a : Poly} {i : ℕ} {bytes : ℕ → UInt8}
    (hbytes : ∀ j < 3, bytes (3 * i + j) = (polyetaGroup mode a i).getD j 0)
    (hcode : ∀ j < 8, (mode.eta - a.getD (8 * i + j) 0).toBitVec.toNat < 2 ^ 3) :
    polyetaUngroup mode bytes i = (List.range 8).map fun j ↦ a.getD (8 * i + j) 0 := by
  obtain ⟨coeff, hcoeff⟩ : ∃ coeff : ℕ → Int32, ∀ j, a.getD (8 * i + j) 0 = coeff j :=
    ⟨_, fun _ ↦ rfl⟩
  simp only [polyetaGroup, hcoeff] at hbytes hcode ⊢
  have hbits (j : ℕ) (hj : j < 8) (k : ℕ) (hk : 3 ≤ k) :
      (mode.eta - coeff j).toBitVec.getLsbD k = false := getLsbD_code (hcode j hj) hk
  simp only [polyetaUngroup, hbytes 0 (by decide), hbytes 1 (by decide), hbytes 2 (by decide),
    map_range_eight, List.getD_cons_zero, List.getD_cons_succ, List.map_cons, List.map_nil,
    List.cons.injEq, and_true]
  clear hbytes
  have hmask : (7 : UInt32).toNat = 2 ^ 3 - 1 := rfl
  refine ⟨sub_toInt32_and_mask hmask (hcode 0 (by decide)) ?_,
    sub_toInt32_and_mask hmask (hcode 1 (by decide)) ?_,
    sub_toInt32_and_mask hmask (hcode 2 (by decide)) ?_,
    sub_toInt32_and_mask hmask (hcode 3 (by decide)) ?_,
    sub_toInt32_and_mask hmask (hcode 4 (by decide)) ?_,
    sub_toInt32_and_mask hmask (hcode 5 (by decide)) ?_,
    sub_toInt32_and_mask hmask (hcode 6 (by decide)) ?_,
    sub_toInt32_and_mask hmask (hcode 7 (by decide)) ?_⟩ <;>
  · clear hcode
    intro k hk
    simp only [UInt32.toBitVec_or, UInt32.toBitVec_shiftRight, UInt8.toBitVec_toUInt32,
      UInt32.toBitVec_ofNat, BitVec.ofNat_eq_ofNat, BitVec.reduceMod, BitVec.ushiftRight_eq',
      BitVec.toNat_ofNat, Nat.reducePow, Nat.reduceMod, UInt32.toBitVec_shiftLeft,
      BitVec.shiftLeft_eq', BitVec.getLsbD_or, BitVec.getLsbD_ushiftRight, BitVec.getLsbD_setWidth,
      UInt8.toBitVec_or, UInt8.toBitVec_shiftLeft, UInt8.toBitVec_shiftRight, UInt8.toBitVec_ofNat,
      getLsbD_lowByte, BitVec.getLsbD_shiftLeft]
    grind

/-- Where `ETA` is 4, a byte holds two codes of four bits. The upper one is read without a mask. -/
theorem polyetaUngroup_polyetaGroup_of_eta_four {a : Poly} {i : ℕ} {bytes : ℕ → UInt8}
    (hbytes : ∀ j < 1, bytes (1 * i + j) = (polyetaGroup .three a i).getD j 0)
    (hcode : ∀ j < 2, (DilithiumMode.three.eta - a.getD (2 * i + j) 0).toBitVec.toNat < 2 ^ 4) :
    polyetaUngroup .three bytes i = (List.range 2).map fun j ↦ a.getD (2 * i + j) 0 := by
  obtain ⟨coeff, hcoeff⟩ : ∃ coeff : ℕ → Int32, ∀ j, a.getD (2 * i + j) 0 = coeff j :=
    ⟨_, fun _ ↦ rfl⟩
  simp only [polyetaGroup, hcoeff] at hbytes hcode ⊢
  have hbits (j : ℕ) (hj : j < 2) (k : ℕ) (hk : 4 ≤ k) :
      (DilithiumMode.three.eta - coeff j).toBitVec.getLsbD k = false := getLsbD_code (hcode j hj) hk
  have hrange : (List.range 2).map coeff = [coeff 0, coeff 1] := rfl
  have hupperMask (byte : UInt8) : byte.toUInt32 >>> 4 = (byte.toUInt32 >>> 4) &&& 0x0F := by
    rw [← UInt32.toNat_inj, UInt32.toNat_and, UInt32.toNat_shiftRight]
    have hlt := byte.toNat_lt
    have hupper : byte.toUInt32.toNat >>> 4 < 2 ^ 4 := by
      rw [UInt8.toNat_toUInt32, Nat.shiftRight_eq_div_pow]
      omega
    exact (Nat.and_two_pow_sub_one_of_lt_two_pow hupper).symm
  rw [polyetaUngroup]
  simp only [hbytes 0 (by decide), hrange, List.getD_cons_zero, List.map_cons, List.map_nil,
    List.cons.injEq, and_true]
  rw [hupperMask]
  clear hbytes hrange hupperMask
  have hmask : (0x0F : UInt32).toNat = 2 ^ 4 - 1 := rfl
  refine ⟨sub_toInt32_and_mask hmask (hcode 0 (by decide)) ?_,
    sub_toInt32_and_mask hmask (hcode 1 (by decide)) ?_⟩ <;>
  · clear hcode
    intro k hk
    simp only [UInt32.toBitVec_shiftRight, UInt8.toBitVec_toUInt32, UInt32.toBitVec_ofNat,
      BitVec.ofNat_eq_ofNat, BitVec.reduceMod, BitVec.ushiftRight_eq', BitVec.toNat_ofNat,
      Nat.reducePow, Nat.reduceMod, BitVec.shiftLeft_eq', BitVec.getLsbD_or,
      BitVec.getLsbD_ushiftRight, BitVec.getLsbD_setWidth, UInt8.toBitVec_or,
      UInt8.toBitVec_shiftLeft, UInt8.toBitVec_ofNat, getLsbD_lowByte, BitVec.getLsbD_shiftLeft]
    grind

/-- The bits of a code of `polyeta_pack`. -/
def DilithiumMode.polyetaBits : DilithiumMode → ℕ
  | two => 3
  | three => 4
  | five => 3

theorem polyetaUngroup_polyetaGroup (mode : DilithiumMode) {a : Poly} {i : ℕ} {bytes : ℕ → UInt8}
    (hbytes : ∀ j < mode.polyetaGroupBytes,
      bytes (mode.polyetaGroupBytes * i + j) = (polyetaGroup mode a i).getD j 0)
    (hcode : ∀ j < mode.polyetaGroupCoeffs,
      (mode.eta - a.getD (mode.polyetaGroupCoeffs * i + j) 0).toBitVec.toNat <
        2 ^ mode.polyetaBits) :
    polyetaUngroup mode bytes i = (List.range mode.polyetaGroupCoeffs).map fun j ↦
      a.getD (mode.polyetaGroupCoeffs * i + j) 0 := by
  cases mode with
  | two => exact polyetaUngroup_polyetaGroup_of_eta_two (by decide) hbytes hcode
  | three => exact polyetaUngroup_polyetaGroup_of_eta_four hbytes hcode
  | five => exact polyetaUngroup_polyetaGroup_of_eta_two (by decide) hbytes hcode

/-! ### A polynomial -/

/-- All coefficients lie between two bounds. -/
def Poly.CoeffsIn (lo hi : ℤ) (a : Poly) : Prop :=
  ∀ k (hk : k < 256), lo ≤ (a[k]).toInt ∧ (a[k]).toInt ≤ hi

theorem Poly.CoeffsIn.getD {lo hi : ℤ} {a : Poly} (ha : a.CoeffsIn lo hi) (k : ℕ) (hk : k < 256) :
    lo ≤ (a.getD k 0).toInt ∧ (a.getD k 0).toInt ≤ hi := by
  rw [getD_eq_getElem a 0 hk]
  exact ha k hk

/-- A byte of a sequence of groups is a byte of its group. -/
theorem getD_flatMap_range {count width : ℕ} {group : ℕ → List UInt8}
    (hwidth : ∀ i, (group i).length = width) {i j : ℕ} (hi : i < count) (hj : j < width) :
    ((List.range count).flatMap group).getD (width * i + j) 0 = (group i).getD j 0 := by
  induction count with
  | zero => exact absurd hi (Nat.not_lt_zero i)
  | succ count ih =>
    have hfront : ((List.range count).flatMap group).length = width * count := by
      simp [List.length_flatMap, hwidth, Nat.mul_comm]
    rw [List.range_succ, List.flatMap_append, List.flatMap_singleton]
    rcases Nat.lt_or_ge i count with hlt | hge
    · have hnext := Nat.mul_le_mul_left width hlt
      rw [Nat.mul_succ] at hnext
      rw [List.getD_append _ _ _ _ (by omega), ih hlt]
    · obtain rfl : i = count := by omega
      rw [List.getD_append_right _ _ _ _ (by omega), hfront, Nat.add_sub_cancel_left]

/-- Groups of the coefficients of a polynomial make up the polynomial. -/
theorem unpackGroups_eq {width : ℕ} (hwidth : 0 < width) {group : ℕ → List Int32} {a : Poly}
    (hgroup : ∀ i, width * i < 256 →
      group i = (List.range width).map fun j ↦ a.getD (width * i + j) 0) :
    unpackGroups width group = a := by
  refine Vector.ext fun k hk ↦ ?_
  have hdiv := Nat.div_add_mod k width
  have hmod := Nat.mod_lt k hwidth
  rw [unpackGroups, Vector.getElem_ofFn, hgroup (k / width) (by omega), List.getD_eq_getElem?_getD,
    List.getElem?_map, List.getElem?_range hmod]
  simp only [Option.map_some, Option.getD_some, hdiv]
  exact getD_eq_getElem a 0 hk

/-- A difference that fits is the difference. -/
theorem toInt_sub_of_fits {x y : Int32} (hlo : -2 ^ 31 ≤ x.toInt - y.toInt)
    (hhi : x.toInt - y.toInt < 2 ^ 31) : (x - y).toInt = x.toInt - y.toInt := by
  rw [Int32.toInt_sub]
  exact Int.bmod_eq_of_le (by omega) (by omega)

/-- The code of a coefficient in range fits its width. -/
theorem toNat_sub_lt {base c : Int32} {w : ℕ} (hw : w ≤ 31)
    (hlo : 0 ≤ base.toInt - c.toInt) (hhi : base.toInt - c.toInt < 2 ^ w) :
    (base - c).toBitVec.toNat < 2 ^ w := by
  have hpow : (2 : ℤ) ^ w ≤ 2 ^ 31 := pow_le_pow_right₀ (by norm_num) hw
  have hsub : (base - c).toInt = base.toInt - c.toInt := toInt_sub_of_fits (by omega) (by omega)
  have hvalue := toNat_toBitVec_of_nonneg (hsub ▸ hlo)
  rw [← hsub, ← hvalue] at hhi
  exact_mod_cast hhi

theorem polyt1Unpack_polyt1Bytes {a : Poly} (ha : a.CoeffsIn 0 1023) {bytes : ℕ → UInt8}
    (hbytes : ∀ k < polyt1PackedBytes, bytes k = (polyt1Bytes a).getD k 0) :
    polyt1Unpack bytes = a := by
  refine unpackGroups_eq (by decide) fun i hi ↦ polyt1Ungroup_polyt1Group ?_ ?_
  · intro j hj
    rw [hbytes _ (by unfold polyt1PackedBytes; omega), polyt1Bytes,
      getD_flatMap_range (length_polyt1Group a) (by omega) hj]
  · intro j hj
    have hcoeff := ha.getD (4 * i + j) (by omega)
    have hvalue := toNat_toBitVec_of_nonneg hcoeff.1
    omega

/-- The rounds of packing and of unpacking go over the whole polynomial. -/
theorem polyeta_rounds (mode : DilithiumMode) :
    0 < mode.polyetaGroupCoeffs ∧ mode.polyetaGroupCoeffs * mode.polyetaRounds = 256 ∧
      mode.polyetaGroupBytes * mode.polyetaRounds = mode.polyetaPackedBytes := by
  cases mode <;> decide

/-- `2 * ETA` fits the bits of a code. -/
theorem eta_fits (mode : DilithiumMode) :
    2 * mode.eta.toInt < 2 ^ mode.polyetaBits ∧ mode.polyetaBits ≤ 31 := by
  cases mode <;> decide

theorem polyetaUnpack_polyetaBytes (mode : DilithiumMode) {a : Poly}
    (ha : a.CoeffsIn (-mode.eta.toInt) mode.eta.toInt) {bytes : ℕ → UInt8}
    (hbytes : ∀ k < mode.polyetaPackedBytes, bytes k = (polyetaBytes mode a).getD k 0) :
    polyetaUnpack mode bytes = a := by
  obtain ⟨hpos, hcoeffs, hpacked⟩ := polyeta_rounds mode
  obtain ⟨hfits, hbits⟩ := eta_fits mode
  refine unpackGroups_eq hpos fun i hi ↦ ?_
  have hround : i < mode.polyetaRounds := Nat.lt_of_mul_lt_mul_left (hcoeffs ▸ hi)
  have hnext := Nat.mul_le_mul_left mode.polyetaGroupCoeffs hround
  have hnextByte := Nat.mul_le_mul_left mode.polyetaGroupBytes hround
  rw [Nat.mul_succ] at hnext hnextByte
  apply polyetaUngroup_polyetaGroup
  · intro j hj
    rw [hbytes _ (by omega), polyetaBytes,
      getD_flatMap_range (length_polyetaGroup mode a) hround hj]
  · intro j hj
    have hcoeff := ha.getD (mode.polyetaGroupCoeffs * i + j) (by omega)
    exact toNat_sub_lt hbits (by omega) (by omega)

theorem polyt0Unpack_polyt0Bytes {a : Poly} (ha : a.CoeffsIn (-2 ^ 12 + 1) (2 ^ 12))
    {bytes : ℕ → UInt8}
    (hbytes : ∀ k < polyt0PackedBytes, bytes k = (polyt0Bytes a).getD k 0) :
    polyt0Unpack bytes = a := by
  refine unpackGroups_eq (by decide) fun i hi ↦ polyt0Ungroup_polyt0Group ?_ ?_
  · intro j hj
    rw [hbytes _ (by unfold polyt0PackedBytes; omega), polyt0Bytes,
      getD_flatMap_range (length_polyt0Group a) (by omega) hj]
  · intro j hj
    have hcoeff := ha.getD (8 * i + j) (by omega)
    have hbase : ((1 : Int32) <<< 12).toInt = 2 ^ 12 := by decide
    exact toNat_sub_lt (by decide) (by omega) (by omega)

/-! ### Vectors and keys -/

/-- Polynomial by polynomial, unpacking undoes packing. -/
theorem unpackVec_vecBytes {count width : ℕ} {unpack : (ℕ → UInt8) → Poly}
    {packed : Poly → List UInt8} (hwidth : ∀ a, (packed a).length = width)
    (vec : Vector Poly count)
    (hunpack : ∀ i (hi : i < count) (bytes : ℕ → UInt8),
      (∀ k < width, bytes k = (packed vec[i]).getD k 0) → unpack bytes = vec[i])
    {bytes : ℕ → UInt8}
    (hbytes : ∀ k < count * width, bytes k = (vecBytes packed vec).getD k 0) :
    unpackVec count unpack width bytes = vec := by
  refine Vector.ext fun i hi ↦ ?_
  rw [unpackVec, Vector.getElem_ofFn]
  refine hunpack i hi _ fun k hk ↦ ?_
  have hnext := Nat.mul_le_mul_right width hi
  rw [Nat.succ_mul] at hnext
  have hbyte := hbytes (i * width + k) (by omega)
  rw [vecBytes, Nat.mul_comm i width, getD_flatMap_range (fun _ ↦ hwidth _) hi hk,
    getD_eq_getElem vec _ hi, Nat.mul_comm width i] at hbyte
  exact hbyte

/-- The bytes of a region of a buffer. -/
theorem getD_region {size : ℕ} {r : Vector UInt8 size} {before region : List UInt8}
    (hr : before ++ region <+: r.toList) {off : ℕ} (hoff : before.length = off) {k : ℕ}
    (hk : k < region.length) : r.getD (off + k) 0 = region.getD k 0 := by
  obtain ⟨after, hafter⟩ := hr
  rw [← getD_toList, ← hafter, ← hoff, List.append_assoc,
    List.getD_append_right _ _ _ _ (by omega), Nat.add_sub_cancel_left,
    List.getD_append _ _ _ _ hk]

/-- Bytes copied out of a region of a buffer. -/
theorem ofFn_region {size width : ℕ} {r : Vector UInt8 size} {before : List UInt8}
    {region : Vector UInt8 width} (hr : before ++ region.toList <+: r.toList) {off : ℕ}
    (hoff : before.length = off) :
    (Vector.ofFn fun i : Fin width ↦ r.getD (off + i.val) 0) = region := by
  refine Vector.ext fun i hi ↦ ?_
  rw [Vector.getElem_ofFn, getD_region hr hoff (by simpa using hi), getD_toList,
    getD_eq_getElem _ _ hi]

/-- Bytes copied from the front of a buffer. -/
theorem ofFn_front {size width : ℕ} {r : Vector UInt8 size} {region : Vector UInt8 width}
    (hr : region.toList <+: r.toList) :
    (Vector.ofFn fun i : Fin width ↦ r.getD i.val 0) = region := by
  have hempty : [] ++ region.toList <+: r.toList := hr
  have hregion := ofFn_region hempty List.length_nil
  simpa only [Nat.zero_add] using hregion

/-- A vector unpacked from a region of a buffer. -/
theorem unpackVec_region {size count width : ℕ} {unpack : (ℕ → UInt8) → Poly}
    {packed : Poly → List UInt8} (hwidth : ∀ a, (packed a).length = width)
    {vec : Vector Poly count}
    (hunpack : ∀ i (hi : i < count) (bytes : ℕ → UInt8),
      (∀ k < width, bytes k = (packed vec[i]).getD k 0) → unpack bytes = vec[i])
    {r : Vector UInt8 size} {before : List UInt8}
    (hr : before ++ vecBytes packed vec <+: r.toList) {off : ℕ} (hoff : before.length = off) :
    unpackVec count unpack width (fun k ↦ r.getD (off + k) 0) = vec := by
  apply unpackVec_vecBytes hwidth vec hunpack
  intro k hk
  exact getD_region hr hoff (by rw [length_vecBytes hwidth]; exact hk)

/-- `unpack_pk` finds what `pack_pk` was given. -/
theorem unpackPk_packPk (mode : DilithiumMode) (pk : Vector UInt8 (cryptoPublickeybytes mode))
    (rho : Vector UInt8 seedBytes) {t1 : Vector Poly mode.K}
    (ht1 : ∀ i (hi : i < mode.K), t1[i].CoeffsIn 0 1023) :
    unpackPk mode (packPk mode pk rho.toList t1) = (rho, t1) := by
  have hrho : rho.toList.length = seedBytes := Vector.length_toList
  have hall : rho.toList ++ vecBytes polyt1Bytes t1 <+: (packPk mode pk rho.toList t1).toList := by
    rw [toList_packPk mode pk hrho t1, pkBytes]
  refine Prod.ext ?_ ?_
  · exact ofFn_front ((List.prefix_append _ _).trans hall)
  · exact unpackVec_region length_polyt1Bytes
      (fun i hi _ hbytes ↦ polyt1Unpack_polyt1Bytes (ht1 i hi) hbytes) hall hrho

/-- `unpack_sk` finds what `pack_sk` was given. -/
theorem unpackSk_packSk (mode : DilithiumMode) (sk : Vector UInt8 (cryptoSecretkeybytes mode))
    (rho : Vector UInt8 seedBytes) (tr : Vector UInt8 trBytes) (key : Vector UInt8 seedBytes)
    {t0 : Vector Poly mode.K} {s1 : Vector Poly mode.L} {s2 : Vector Poly mode.K}
    (ht0 : ∀ i (hi : i < mode.K), t0[i].CoeffsIn (-2 ^ 12 + 1) (2 ^ 12))
    (hs1 : ∀ i (hi : i < mode.L), s1[i].CoeffsIn (-mode.eta.toInt) mode.eta.toInt)
    (hs2 : ∀ i (hi : i < mode.K), s2[i].CoeffsIn (-mode.eta.toInt) mode.eta.toInt) :
    unpackSk mode (packSk mode sk rho.toList tr.toList key.toList t0 s1 s2) =
      ⟨rho, tr, key, t0, s1, s2⟩ := by
  have hrho : rho.toList.length = seedBytes := Vector.length_toList
  have htr : tr.toList.length = trBytes := Vector.length_toList
  have hkey : key.toList.length = seedBytes := Vector.length_toList
  have hs1Length := length_vecBytes (length_polyetaBytes mode) s1
  have hs2Length := length_vecBytes (length_polyetaBytes mode) s2
  have hlist := toList_packSk mode sk hrho htr hkey t0 s1 s2
  generalize packSk mode sk rho.toList tr.toList key.toList t0 s1 s2 = buffer at hlist ⊢
  -- the regions written, each with all that stands before it
  have hupToT0 : rho.toList ++ key.toList ++ tr.toList ++ vecBytes (polyetaBytes mode) s1 ++
      vecBytes (polyetaBytes mode) s2 ++ vecBytes polyt0Bytes t0 <+: buffer.toList := by
    rw [hlist, skBytes]
  have hupToS2 := (List.prefix_append _ _).trans hupToT0
  have hupToS1 := (List.prefix_append _ _).trans hupToS2
  have hupToTr := (List.prefix_append _ _).trans hupToS1
  have hupToKey := (List.prefix_append _ _).trans hupToTr
  have hupToRho := (List.prefix_append _ _).trans hupToKey
  rw [unpackSk, UnpackedSk.mk.injEq]
  refine ⟨ofFn_front hupToRho, ofFn_region hupToTr ?_, ofFn_region hupToKey hrho,
    unpackVec_region length_polyt0Bytes
      (fun i hi _ hbytes ↦ polyt0Unpack_polyt0Bytes (ht0 i hi) hbytes) hupToT0 ?_,
    unpackVec_region (length_polyetaBytes mode)
      (fun i hi _ hbytes ↦ polyetaUnpack_polyetaBytes mode (hs1 i hi) hbytes) hupToS1 ?_,
    unpackVec_region (length_polyetaBytes mode)
      (fun i hi _ hbytes ↦ polyetaUnpack_polyetaBytes mode (hs2 i hi) hbytes) hupToS2 ?_⟩
  all_goals
    simp only [List.length_append, hrho, hkey, htr, hs1Length, hs2Length]
    omega

end EvMlDsa
