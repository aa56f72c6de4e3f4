import EvMlDsa.Lattice.Poly
import EvMlDsa.Lattice.Rounding

/-!
# Packing of `z` and `w1`

`polyz_pack` writes the difference of a coefficient to `GAMMA1` with exactly as many bits as it has
values, so no bit of the packed polynomial is left over: unpacking gives the coefficients back
(`polyzUnpack_polyzBytes`), every string of bytes unpacks to coefficients in range
(`polyzUnpack_range`), and packing gives the string back (`polyzBytes_polyzUnpack`).
-/

set_option autoImplicit false
set_option relaxedAutoImplicit false

namespace EvMlDsa

open Library.FixedArray

/-! ### The functions -/

/-- The bytes `polyz_pack` writes in one round of its loop: nine for four coefficients where
`GAMMA1` is `1 << 17`, five for two where it is `1 << 19`. -/
def polyzGroup (mode : DilithiumMode) (a : Poly) (i : ℕ) : List UInt8 :=
  let t := fun width j ↦ (mode.gamma1 - a.getD (width * i + j) 0).toUInt32
  match mode with
  | .two =>
    [(t 4 0).toUInt8,
     (t 4 0 >>> 8).toUInt8,
     (t 4 0 >>> 16).toUInt8 ||| (t 4 1 <<< 2).toUInt8,
     (t 4 1 >>> 6).toUInt8,
     (t 4 1 >>> 14).toUInt8 ||| (t 4 2 <<< 4).toUInt8,
     (t 4 2 >>> 4).toUInt8,
     (t 4 2 >>> 12).toUInt8 ||| (t 4 3 <<< 6).toUInt8,
     (t 4 3 >>> 2).toUInt8,
     (t 4 3 >>> 10).toUInt8]
  | _ =>
    [(t 2 0).toUInt8,
     (t 2 0 >>> 8).toUInt8,
     (t 2 0 >>> 16).toUInt8 ||| (t 2 1 <<< 4).toUInt8,
     (t 2 1 >>> 4).toUInt8,
     (t 2 1 >>> 12).toUInt8]

/-- The codes `polyz_unpack` reads in one round of its loop. The last one needs no mask where
`GAMMA1` is `1 << 19`. -/
def polyzCodes (mode : DilithiumMode) (a : ℕ → UInt8) (i : ℕ) : List UInt32 :=
  let b := fun width j ↦ (a (width * i + j)).toUInt32
  match mode with
  | .two =>
    [(b 9 0 ||| (b 9 1 <<< 8) ||| (b 9 2 <<< 16)) &&& 0x3FFFF,
     ((b 9 2 >>> 2) ||| (b 9 3 <<< 6) ||| (b 9 4 <<< 14)) &&& 0x3FFFF,
     ((b 9 4 >>> 4) ||| (b 9 5 <<< 4) ||| (b 9 6 <<< 12)) &&& 0x3FFFF,
     ((b 9 6 >>> 6) ||| (b 9 7 <<< 2) ||| (b 9 8 <<< 10)) &&& 0x3FFFF]
  | _ =>
    [(b 5 0 ||| (b 5 1 <<< 8) ||| (b 5 2 <<< 16)) &&& 0xFFFFF,
     (b 5 2 >>> 4) ||| (b 5 3 <<< 4) ||| (b 5 4 <<< 12)]

/-- The coefficients `polyz_unpack` sets in one round of its loop. -/
def polyzUngroup (mode : DilithiumMode) (a : ℕ → UInt8) (i : ℕ) : List Int32 :=
  (polyzCodes mode a i).map fun code ↦ mode.gamma1 - code.toInt32

namespace DilithiumMode

/-- The bytes of one round of `polyz_pack`. -/
def polyzGroupBytes : DilithiumMode → ℕ
  | two => 9
  | three => 5
  | five => 5

/-- The coefficients of one round of `polyz_pack`. -/
def polyzGroupCoeffs : DilithiumMode → ℕ
  | two => 4
  | three => 2
  | five => 2

/-- The rounds of the loop of `polyz_pack`. -/
def polyzRounds : DilithiumMode → ℕ
  | two => 64
  | three => 128
  | five => 128

/-- The bits of a code of `polyz_pack`. -/
def polyzBits : DilithiumMode → ℕ
  | two => 18
  | three => 20
  | five => 20

end DilithiumMode

/-- `polyz_pack`. -/
def polyzPack (mode : DilithiumMode) {size : ℕ} (r : Vector UInt8 size) (off : ℕ) (a : Poly) :
    Vector UInt8 size :=
  packGroups mode.polyzGroupBytes mode.polyzRounds (polyzGroup mode a) r off

/-- `polyz_unpack`. -/
def polyzUnpack (mode : DilithiumMode) (a : ℕ → UInt8) : Poly :=
  unpackGroups mode.polyzGroupCoeffs (polyzUngroup mode a)

/-- The bytes `polyw1_pack` writes in one round of its loop: three for four coefficients where
`GAMMA2` is `(Q - 1) / 88`, one for two where it is `(Q - 1) / 32`. -/
def polyw1Group (mode : DilithiumMode) (a : Poly) (i : ℕ) : List UInt8 :=
  let c := fun width j ↦ a.getD (width * i + j) 0
  match mode with
  | .two =>
    [lowByte (c 4 0) ||| lowByte (c 4 1 <<< 6),
     lowByte (c 4 1 >>> 2) ||| lowByte (c 4 2 <<< 4),
     lowByte (c 4 2 >>> 4) ||| lowByte (c 4 3 <<< 2)]
  | _ => [lowByte (c 2 0 ||| (c 2 1 <<< 4))]

/-- The bytes of a polynomial that `polyw1_pack` packs. -/
def polyw1Bytes (mode : DilithiumMode) (a : Poly) : List UInt8 :=
  (List.range (if mode = .two then 64 else 128)).flatMap (polyw1Group mode a)

/-- `polyveck_pack_w1`, the bytes written. -/
def polyveckPackW1 (mode : DilithiumMode) (w1 : Vector Poly mode.K) : List UInt8 :=
  vecBytes (polyw1Bytes mode) w1

/-- The bytes of a packed `z` polynomial. -/
def polyzBytes (mode : DilithiumMode) (a : Poly) : List UInt8 :=
  (List.range mode.polyzRounds).flatMap (polyzGroup mode a)

theorem length_polyzGroup (mode : DilithiumMode) (a : Poly) (i : ℕ) :
    (polyzGroup mode a i).length = mode.polyzGroupBytes := by
  cases mode <;> rfl

theorem length_polyzBytes (mode : DilithiumMode) (a : Poly) :
    (polyzBytes mode a).length = mode.polyzPackedBytes := by
  have hbytes : (polyzBytes mode a).length = mode.polyzRounds * mode.polyzGroupBytes := by
    simp [polyzBytes, List.length_flatMap, length_polyzGroup]
  rw [hbytes]
  cases mode <;> rfl

theorem polyzPack_eq (mode : DilithiumMode) {size : ℕ} (r : Vector UInt8 size) (off : ℕ)
    (a : Poly) :
    polyzPack mode r off a = storeBytes r off (polyzBytes mode a) :=
  packGroups_eq mode.polyzRounds (length_polyzGroup mode a) r off

/-! ### Codes -/

/-- Nine bytes hold four codes of eighteen bits. -/
theorem polyzUngroup_polyzGroup_two {a : Poly} {i : ℕ} {bytes : ℕ → UInt8}
    (hbytes : ∀ j < 9, bytes (9 * i + j) = (polyzGroup .two a i).getD j 0)
    (hcode : ∀ j < 4,
      (DilithiumMode.two.gamma1 - a.getD (4 * i + j) 0).toBitVec.toNat < 2 ^ 18) :
    polyzUngroup .two bytes i = (List.range 4).map fun j ↦ a.getD (4 * i + j) 0 := by
  obtain ⟨coeff, hcoeff⟩ : ∃ coeff : ℕ → Int32, ∀ j, a.getD (4 * i + j) 0 = coeff j :=
    ⟨_, fun _ ↦ rfl⟩
  simp only [polyzGroup, hcoeff] at hbytes hcode ⊢
  have hbits (j : ℕ) (hj : j < 4) (k : ℕ) (hk : 18 ≤ k) :
      (DilithiumMode.two.gamma1 - coeff j).toBitVec.getLsbD k = false :=
    getLsbD_code (hcode j hj) hk
  have hrange : (List.range 4).map coeff = [coeff 0, coeff 1, coeff 2, coeff 3] := rfl
  simp only [polyzUngroup, polyzCodes, hbytes 0 (by decide), hbytes 1 (by decide),
    hbytes 2 (by decide), hbytes 3 (by decide), hbytes 4 (by decide), hbytes 5 (by decide),
    hbytes 6 (by decide), hbytes 7 (by decide), hbytes 8 (by decide), hrange, List.getD_cons_zero,
    List.getD_cons_succ, List.map_cons, List.map_nil, List.cons.injEq, and_true]
  clear hbytes hrange
  have hmask : (0x3FFFF : UInt32).toNat = 2 ^ 18 - 1 := rfl
  refine ⟨sub_toInt32_and_mask hmask (hcode 0 (by decide)) ?_,
    sub_toInt32_and_mask hmask (hcode 1 (by decide)) ?_,
    sub_toInt32_and_mask hmask (hcode 2 (by decide)) ?_,
    sub_toInt32_and_mask hmask (hcode 3 (by decide)) ?_⟩ <;>
  · clear hcode
    intro k hk
    simp only [UInt32.toBitVec_or, UInt32.toBitVec_shiftRight, UInt8.toBitVec_toUInt32,
      UInt32.toBitVec_ofNat, BitVec.ofNat_eq_ofNat, BitVec.reduceMod, BitVec.ushiftRight_eq',
      BitVec.toNat_ofNat, Nat.reducePow, Nat.reduceMod, UInt32.toBitVec_shiftLeft,
      BitVec.shiftLeft_eq', BitVec.getLsbD_or, BitVec.getLsbD_ushiftRight, BitVec.getLsbD_setWidth,
      UInt8.toBitVec_or, UInt32.toBitVec_toUInt8, Int32.toBitVec_toUInt32, BitVec.getLsbD_shiftLeft]
    grind

/-- A word without bits above a mask is not changed by it. -/
theorem and_mask_of_bits {x mask : UInt32} {w : ℕ} (hmask : mask.toNat = 2 ^ w - 1)
    (hbits : ∀ i, w ≤ i → x.toBitVec.getLsbD i = false) : x = x &&& mask := by
  rw [← UInt32.toBitVec_inj]
  refine BitVec.eq_of_getLsbD_eq fun i _ ↦ ?_
  have hmaskBit : mask.toBitVec.getLsbD i = decide (i < w) := by
    have hvalue : mask.toBitVec.toNat = 2 ^ w - 1 := hmask
    rw [BitVec.getLsbD, hvalue, Nat.testBit_two_pow_sub_one]
  rw [UInt32.toBitVec_and, BitVec.getLsbD_and, hmaskBit]
  rcases Nat.lt_or_ge i w with hlow | hhigh
  · rw [decide_eq_true hlow, Bool.and_true]
  · rw [hbits i hhigh, Bool.false_and]

/-- The code that `polyz_unpack` reads without a mask. -/
theorem upperCode_eq_and_mask (b2 b3 b4 : UInt8) :
    (b2.toUInt32 >>> 4) ||| (b3.toUInt32 <<< 4) ||| (b4.toUInt32 <<< 12) =
      ((b2.toUInt32 >>> 4) ||| (b3.toUInt32 <<< 4) ||| (b4.toUInt32 <<< 12)) &&& 0xFFFFF := by
  have hmask : (0xFFFFF : UInt32).toNat = 2 ^ 20 - 1 := rfl
  apply and_mask_of_bits hmask
  intro k hk
  simp only [UInt32.toBitVec_or, UInt32.toBitVec_shiftRight, UInt8.toBitVec_toUInt32,
    UInt32.toBitVec_ofNat, BitVec.ofNat_eq_ofNat, BitVec.reduceMod, BitVec.ushiftRight_eq',
    BitVec.toNat_ofNat, Nat.reducePow, Nat.reduceMod, UInt32.toBitVec_shiftLeft,
    BitVec.shiftLeft_eq', BitVec.getLsbD_or, BitVec.getLsbD_ushiftRight, BitVec.getLsbD_setWidth,
    BitVec.getLsbD_shiftLeft]
  grind

/-- Five bytes hold two codes of twenty bits. -/
theorem polyzUngroup_polyzGroup_of_ne {mode : DilithiumMode} (hmode : mode ≠ .two) {a : Poly}
    {i : ℕ} {bytes : ℕ → UInt8}
    (hbytes : ∀ j < 5, bytes (5 * i + j) = (polyzGroup mode a i).getD j 0)
    (hcode : ∀ j < 2, (mode.gamma1 - a.getD (2 * i + j) 0).toBitVec.toNat < 2 ^ 20) :
    polyzUngroup mode bytes i = (List.range 2).map fun j ↦ a.getD (2 * i + j) 0 := by
  obtain ⟨coeff, hcoeff⟩ : ∃ coeff : ℕ → Int32, ∀ j, a.getD (2 * i + j) 0 = coeff j :=
    ⟨_, fun _ ↦ rfl⟩
  simp only [polyzGroup, hcoeff] at hbytes hcode ⊢
  have hbits (j : ℕ) (hj : j < 2) (k : ℕ) (hk : 20 ≤ k) :
      (mode.gamma1 - coeff j).toBitVec.getLsbD k = false := getLsbD_code (hcode j hj) hk
  have hrange : (List.range 2).map coeff = [coeff 0, coeff 1] := rfl
  have hmask : (0xFFFFF : UInt32).toNat = 2 ^ 20 - 1 := rfl
  simp only [polyzUngroup, polyzCodes, hbytes 0 (by decide), hbytes 1 (by decide),
    hbytes 2 (by decide), hbytes 3 (by decide), hbytes 4 (by decide), hrange, List.getD_cons_zero,
    List.getD_cons_succ, List.map_cons, List.map_nil, List.cons.injEq, and_true]
  rw [upperCode_eq_and_mask]
  clear hbytes hrange
  refine ⟨sub_toInt32_and_mask hmask (hcode 0 (by decide)) ?_,
    sub_toInt32_and_mask hmask (hcode 1 (by decide)) ?_⟩ <;>
  · clear hcode
    intro k hk
    simp only [UInt32.toBitVec_or, UInt32.toBitVec_shiftRight, UInt8.toBitVec_toUInt32,
      UInt32.toBitVec_ofNat, BitVec.ofNat_eq_ofNat, BitVec.reduceMod, BitVec.ushiftRight_eq',
      BitVec.toNat_ofNat, Nat.reducePow, Nat.reduceMod, UInt32.toBitVec_shiftLeft,
      BitVec.shiftLeft_eq', BitVec.getLsbD_or, BitVec.getLsbD_ushiftRight, BitVec.getLsbD_setWidth,
      UInt8.toBitVec_or, UInt32.toBitVec_toUInt8, Int32.toBitVec_toUInt32, BitVec.getLsbD_shiftLeft]
    grind

theorem polyzUngroup_polyzGroup (mode : DilithiumMode) {a : Poly} {i : ℕ} {bytes : ℕ → UInt8}
    (hbytes : ∀ j < mode.polyzGroupBytes,
      bytes (mode.polyzGroupBytes * i + j) = (polyzGroup mode a i).getD j 0)
    (hcode : ∀ j < mode.polyzGroupCoeffs,
      (mode.gamma1 - a.getD (mode.polyzGroupCoeffs * i + j) 0).toBitVec.toNat <
        2 ^ mode.polyzBits) :
    polyzUngroup mode bytes i = (List.range mode.polyzGroupCoeffs).map fun j ↦
      a.getD (mode.polyzGroupCoeffs * i + j) 0 := by
  cases mode with
  | two => exact polyzUngroup_polyzGroup_two hbytes hcode
  | three => exact polyzUngroup_polyzGroup_of_ne (by decide) hbytes hcode
  | five => exact polyzUngroup_polyzGroup_of_ne (by decide) hbytes hcode

/-- Every code that is read fits its width. -/
theorem polyzCodes_lt (mode : DilithiumMode) (bytes : ℕ → UInt8) (i : ℕ) :
    ∀ code ∈ polyzCodes mode bytes i, code.toNat < 2 ^ mode.polyzBits := by
  have hmasked (x mask : UInt32) : (x &&& mask).toNat ≤ mask.toNat := by
    rw [UInt32.toNat_and]
    exact Nat.and_le_right
  have htwo (x : UInt32) : (x &&& 0x3FFFF).toNat < 2 ^ 18 :=
    lt_of_le_of_lt (hmasked x _) (by decide)
  have hother (x : UInt32) : (x &&& 0xFFFFF).toNat < 2 ^ 20 :=
    lt_of_le_of_lt (hmasked x _) (by decide)
  intro code hcode
  cases mode with
  | two =>
    simp only [polyzCodes, List.mem_cons, List.not_mem_nil, or_false] at hcode
    rcases hcode with rfl | rfl | rfl | rfl <;> exact htwo _
  | three =>
    simp only [polyzCodes, List.mem_cons, List.not_mem_nil, or_false] at hcode
    rw [upperCode_eq_and_mask] at hcode
    rcases hcode with rfl | rfl <;> exact hother _
  | five =>
    simp only [polyzCodes, List.mem_cons, List.not_mem_nil, or_false] at hcode
    rw [upperCode_eq_and_mask] at hcode
    rcases hcode with rfl | rfl <;> exact hother _

/-- Writing the four codes that were read from nine bytes gives the bytes back. -/
theorem polyzGroup_two_of_codes {a : Poly} {i : ℕ} {bytes : ℕ → UInt8}
    (hcodes : ∀ j < 4, (DilithiumMode.two.gamma1 - a.getD (4 * i + j) 0).toUInt32 =
      (polyzCodes .two bytes i).getD j 0) :
    polyzGroup .two a i = (List.range 9).map fun j ↦ bytes (9 * i + j) := by
  have hrange : (List.range 9).map (fun j ↦ bytes (9 * i + j)) =
    [bytes (9 * i + 0), bytes (9 * i + 1), bytes (9 * i + 2), bytes (9 * i + 3),
      bytes (9 * i + 4), bytes (9 * i + 5), bytes (9 * i + 6), bytes (9 * i + 7),
      bytes (9 * i + 8)] := rfl
  simp only [polyzGroup, hcodes 0 (by decide), hcodes 1 (by decide), hcodes 2 (by decide),
    hcodes 3 (by decide), polyzCodes, List.getD_cons_zero, List.getD_cons_succ, hrange,
    List.cons.injEq, and_true]
  have hmask (k : ℕ) : (262143#32).getLsbD k = decide (k < 18) := by
    rw [BitVec.getLsbD]
    exact Nat.testBit_two_pow_sub_one 18 k
  refine ⟨?_, ?_, ?_, ?_, ?_, ?_, ?_, ?_, ?_⟩ <;>
  · rw [← UInt8.toBitVec_inj]
    refine BitVec.eq_of_getLsbD_eq fun k hk ↦ ?_
    simp only [UInt32.toBitVec_or, UInt32.toBitVec_and, UInt32.toBitVec_shiftRight,
      UInt8.toBitVec_toUInt32, UInt32.toBitVec_ofNat, BitVec.ofNat_eq_ofNat, BitVec.reduceMod,
      BitVec.ushiftRight_eq', BitVec.toNat_ofNat, Nat.reducePow, Nat.reduceMod,
      UInt32.toBitVec_shiftLeft, BitVec.shiftLeft_eq', BitVec.getLsbD_or, BitVec.getLsbD_and,
      BitVec.getLsbD_ushiftRight, BitVec.getLsbD_setWidth, UInt8.toBitVec_or,
      UInt32.toBitVec_toUInt8, BitVec.getLsbD_shiftLeft, hmask]
    grind

/-- Writing the two codes that were read from five bytes gives the bytes back. -/
theorem polyzGroup_of_codes_of_ne {mode : DilithiumMode} (hmode : mode ≠ .two) {a : Poly} {i : ℕ}
    {bytes : ℕ → UInt8}
    (hcodes : ∀ j < 2, (mode.gamma1 - a.getD (2 * i + j) 0).toUInt32 =
      (polyzCodes mode bytes i).getD j 0) :
    polyzGroup mode a i = (List.range 5).map fun j ↦ bytes (5 * i + j) := by
  have hrange : (List.range 5).map (fun j ↦ bytes (5 * i + j)) =
    [bytes (5 * i + 0), bytes (5 * i + 1), bytes (5 * i + 2), bytes (5 * i + 3),
      bytes (5 * i + 4)] := rfl
  simp only [polyzGroup, hcodes 0 (by decide), hcodes 1 (by decide), polyzCodes,
    List.getD_cons_zero, List.getD_cons_succ, hrange, List.cons.injEq, and_true]
  have hmask (k : ℕ) : (1048575#32).getLsbD k = decide (k < 20) := by
    rw [BitVec.getLsbD]
    exact Nat.testBit_two_pow_sub_one 20 k
  refine ⟨?_, ?_, ?_, ?_, ?_⟩ <;>
  · rw [← UInt8.toBitVec_inj]
    refine BitVec.eq_of_getLsbD_eq fun k hk ↦ ?_
    simp only [UInt32.toBitVec_or, UInt32.toBitVec_and, UInt32.toBitVec_shiftRight,
      UInt8.toBitVec_toUInt32, UInt32.toBitVec_ofNat, BitVec.ofNat_eq_ofNat, BitVec.reduceMod,
      BitVec.ushiftRight_eq', BitVec.toNat_ofNat, Nat.reducePow, Nat.reduceMod,
      UInt32.toBitVec_shiftLeft, BitVec.shiftLeft_eq', BitVec.getLsbD_or, BitVec.getLsbD_and,
      BitVec.getLsbD_ushiftRight, BitVec.getLsbD_setWidth, UInt8.toBitVec_or,
      UInt32.toBitVec_toUInt8, BitVec.getLsbD_shiftLeft, hmask]
    grind

/-- Writing the codes that were read gives the bytes back. -/
theorem polyzGroup_of_codes (mode : DilithiumMode) {a : Poly} {i : ℕ} {bytes : ℕ → UInt8}
    (hcodes : ∀ j < mode.polyzGroupCoeffs,
      (mode.gamma1 - a.getD (mode.polyzGroupCoeffs * i + j) 0).toUInt32 =
        (polyzCodes mode bytes i).getD j 0) :
    polyzGroup mode a i = (List.range mode.polyzGroupBytes).map fun j ↦
      bytes (mode.polyzGroupBytes * i + j) := by
  cases mode with
  | two => exact polyzGroup_two_of_codes hcodes
  | three => exact polyzGroup_of_codes_of_ne (by decide) hcodes
  | five => exact polyzGroup_of_codes_of_ne (by decide) hcodes

/-! ### A polynomial -/

/-- The rounds of packing and of unpacking go over the whole polynomial. -/
theorem polyz_rounds (mode : DilithiumMode) :
    0 < mode.polyzGroupCoeffs ∧ mode.polyzGroupCoeffs * mode.polyzRounds = 256 ∧
      mode.polyzGroupBytes * mode.polyzRounds = mode.polyzPackedBytes := by
  cases mode <;> decide

/-- `2 * GAMMA1` is the number of codes. -/
theorem gamma1_fits (mode : DilithiumMode) :
    2 * mode.gamma1.toInt = 2 ^ mode.polyzBits ∧ mode.polyzBits ≤ 20 := by
  cases mode <;> decide

theorem polyzUnpack_polyzBytes (mode : DilithiumMode) {a : Poly}
    (ha : a.CoeffsIn (-mode.gamma1.toInt + 1) mode.gamma1.toInt) {bytes : ℕ → UInt8}
    (hbytes : ∀ k < mode.polyzPackedBytes, bytes k = (polyzBytes mode a).getD k 0) :
    polyzUnpack mode bytes = a := by
  obtain ⟨hpos, hcoeffs, hpacked⟩ := polyz_rounds mode
  obtain ⟨hfits, hbits⟩ := gamma1_fits mode
  refine unpackGroups_eq hpos fun i hi ↦ ?_
  have hround : i < mode.polyzRounds := Nat.lt_of_mul_lt_mul_left (hcoeffs ▸ hi)
  have hnext := Nat.mul_le_mul_left mode.polyzGroupCoeffs hround
  have hnextByte := Nat.mul_le_mul_left mode.polyzGroupBytes hround
  rw [Nat.mul_succ] at hnext hnextByte
  apply polyzUngroup_polyzGroup
  · intro j hj
    rw [hbytes _ (by omega), polyzBytes, getD_flatMap_range (length_polyzGroup mode a) hround hj]
  · intro j hj
    have hcoeff := ha.getD (mode.polyzGroupCoeffs * i + j) (by omega)
    exact toNat_sub_lt (by omega) (by omega) (by omega)

theorem length_polyzCodes (mode : DilithiumMode) (bytes : ℕ → UInt8) (i : ℕ) :
    (polyzCodes mode bytes i).length = mode.polyzGroupCoeffs := by
  cases mode <;> rfl

/-- An unpacked coefficient is the difference of `GAMMA1` and a code. -/
theorem getD_polyzUnpack (mode : DilithiumMode) (bytes : ℕ → UInt8) {i j : ℕ}
    (hj : j < mode.polyzGroupCoeffs) (hk : mode.polyzGroupCoeffs * i + j < 256) :
    (polyzUnpack mode bytes).getD (mode.polyzGroupCoeffs * i + j) 0 =
      mode.gamma1 - ((polyzCodes mode bytes i).getD j 0).toInt32 := by
  have hpos : 0 < mode.polyzGroupCoeffs := by omega
  have hdiv : (mode.polyzGroupCoeffs * i + j) / mode.polyzGroupCoeffs = i := by
    rw [Nat.mul_add_div hpos, Nat.div_eq_of_lt hj, Nat.add_zero]
  have hmod : (mode.polyzGroupCoeffs * i + j) % mode.polyzGroupCoeffs = j := by
    rw [Nat.mul_add_mod, Nat.mod_eq_of_lt hj]
  have hlength : j < (polyzCodes mode bytes i).length := by rwa [length_polyzCodes]
  rw [getD_eq_getElem _ _ hk, polyzUnpack, unpackGroups, Vector.getElem_ofFn, hdiv, hmod,
    polyzUngroup, List.getD_eq_getElem _ _ (by rwa [List.length_map]), List.getElem_map,
    List.getD_eq_getElem _ _ hlength]

/-- A code below `2 ^ 31` is not negative as an `int32_t`. -/
theorem toInt_toInt32_of_lt {code : UInt32} {w : ℕ} (hcode : code.toNat < 2 ^ w) (hw : w ≤ 20) :
    code.toInt32.toInt = code.toNat := by
  have hpow : 2 ^ w ≤ 2 ^ 20 := Nat.pow_le_pow_right (by decide) hw
  have hvalue : code.toInt32.toBitVec.toNat = code.toNat := rfl
  rw [← Int32.toInt_toBitVec, BitVec.toInt_eq_toNat_cond, hvalue, if_pos (by omega)]

/-- Whatever is unpacked is in range. -/
theorem polyzUnpack_range (mode : DilithiumMode) (bytes : ℕ → UInt8) :
    (polyzUnpack mode bytes).CoeffsIn (-mode.gamma1.toInt + 1) mode.gamma1.toInt := by
  obtain ⟨hpos, -, -⟩ := polyz_rounds mode
  obtain ⟨hfits, hbits⟩ := gamma1_fits mode
  have hpow : (2 : ℤ) ^ mode.polyzBits ≤ 2 ^ 20 := pow_le_pow_right₀ (by norm_num) hbits
  intro k hk
  have hdiv := Nat.div_add_mod k mode.polyzGroupCoeffs
  have hmod := Nat.mod_lt k hpos
  have hcoeff := getD_polyzUnpack mode bytes hmod (hdiv.symm ▸ hk)
  rw [hdiv, getD_eq_getElem _ _ hk] at hcoeff
  have hlength : k % mode.polyzGroupCoeffs <
      (polyzCodes mode bytes (k / mode.polyzGroupCoeffs)).length := by rwa [length_polyzCodes]
  have hlt := polyzCodes_lt mode bytes (k / mode.polyzGroupCoeffs) _ (List.getElem_mem hlength)
  rw [List.getD_eq_getElem _ _ hlength] at hcoeff
  have hvalue := toInt_toInt32_of_lt hlt hbits
  have hltInt : ((polyzCodes mode bytes (k / mode.polyzGroupCoeffs))[
      k % mode.polyzGroupCoeffs].toNat : ℤ) < 2 ^ mode.polyzBits := by exact_mod_cast hlt
  rw [hcoeff, toInt_sub_of_fits, hvalue] <;> (try rw [hvalue]) <;> omega

/-- Packing what was unpacked gives the bytes back. -/
theorem polyzBytes_polyzUnpack (mode : DilithiumMode) (bytes : ℕ → UInt8) {k : ℕ}
    (hk : k < mode.polyzPackedBytes) :
    (polyzBytes mode (polyzUnpack mode bytes)).getD k 0 = bytes k := by
  obtain ⟨hpos, hcoeffs, hpacked⟩ := polyz_rounds mode
  have hwidth : 0 < mode.polyzGroupBytes := by cases mode <;> decide
  have hdiv := Nat.div_add_mod k mode.polyzGroupBytes
  have hmod := Nat.mod_lt k hwidth
  have hround : k / mode.polyzGroupBytes < mode.polyzRounds :=
    Nat.div_lt_of_lt_mul (hpacked.symm ▸ hk)
  have hnext := Nat.mul_le_mul_left mode.polyzGroupCoeffs hround
  rw [Nat.mul_succ] at hnext
  have hback (base code : Int32) : base - (base - code) = code := by
    rw [Int32.sub_eq_iff_eq_add, Int32.add_comm, Int32.sub_add_cancel]
  have hcodes : ∀ j < mode.polyzGroupCoeffs,
      (mode.gamma1 - (polyzUnpack mode bytes).getD
        (mode.polyzGroupCoeffs * (k / mode.polyzGroupBytes) + j) 0).toUInt32 =
        (polyzCodes mode bytes (k / mode.polyzGroupBytes)).getD j 0 := by
    intro j hj
    rw [getD_polyzUnpack mode bytes hj (by omega), hback]
    exact UInt32.toUInt32_toInt32 _
  have hgroup := polyzGroup_of_codes mode hcodes
  rw [← hdiv, polyzBytes, getD_flatMap_range (length_polyzGroup mode _) hround hmod, hgroup]
  rw [List.getD_eq_getElem _ _ (by simpa using hmod)]
  simp

end EvMlDsa
