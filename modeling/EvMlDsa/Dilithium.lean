import EvMlDsa.Library.FixedArray
import Mathlib.Data.List.GetD
import Mathlib.Data.UInt

/-!
# Leaf key encoding of the Dilithium reference code

The parameter sets, the rounding of `t` into `t1` and `t0`, and the packing of leaf keys into byte
buffers. Packing writes a buffer in place, group of bytes by group of bytes. `storeBytes_append`
joins adjacent writes, so each packing loop is one write of a list of bytes, and `pack_pk` and
`pack_sk` write their buffers from end to end (`toList_packPk`, `toList_packSk`).
-/

set_option autoImplicit false
set_option relaxedAutoImplicit false

namespace EvMlDsa

open Library.FixedArray

/-! ### Parameter sets -/

/-- `DILITHIUM_MODE`. -/
inductive DilithiumMode where
  | two
  | three
  | five
deriving DecidableEq, Repr

namespace DilithiumMode

/-- `K`, the rows of the matrix. -/
def K : DilithiumMode → ℕ
  | two => 4
  | three => 6
  | five => 8

/-- `L`, the columns of the matrix. -/
def L : DilithiumMode → ℕ
  | two => 4
  | three => 5
  | five => 7

/-- `ETA`. -/
def eta : DilithiumMode → Int32
  | two => 2
  | three => 4
  | five => 2

/-- `TAU`. -/
def tau : DilithiumMode → ℕ
  | two => 39
  | three => 49
  | five => 60

/-- `BETA`. -/
def beta : DilithiumMode → Int32
  | two => 78
  | three => 196
  | five => 120

/-- `GAMMA1`, `1 << 17` or `1 << 19`. -/
def gamma1 : DilithiumMode → Int32
  | two => 131072
  | three => 524288
  | five => 524288

/-- `GAMMA2`, `(Q - 1) / 88` or `(Q - 1) / 32`. -/
def gamma2 : DilithiumMode → Int32
  | two => 95232
  | three => 261888
  | five => 261888

/-- `OMEGA`. -/
def omega : DilithiumMode → ℕ
  | two => 80
  | three => 55
  | five => 75

/-- `CTILDEBYTES`. -/
def ctildeBytes : DilithiumMode → ℕ
  | two => 32
  | three => 48
  | five => 64

/-- `POLYZ_PACKEDBYTES`. -/
def polyzPackedBytes : DilithiumMode → ℕ
  | two => 576
  | three => 640
  | five => 640

/-- `POLYW1_PACKEDBYTES`. -/
def polyw1PackedBytes : DilithiumMode → ℕ
  | two => 192
  | three => 128
  | five => 128

/-- `POLYETA_PACKEDBYTES`. -/
def polyetaPackedBytes : DilithiumMode → ℕ
  | two => 96
  | three => 128
  | five => 96

/-- The bytes `polyeta_pack` writes in one round of its loop. -/
def polyetaGroupBytes : DilithiumMode → ℕ
  | two => 3
  | three => 1
  | five => 3

/-- The rounds of the loop of `polyeta_pack`. -/
def polyetaRounds : DilithiumMode → ℕ
  | two => 32
  | three => 128
  | five => 32

end DilithiumMode

/-- `SEEDBYTES`. -/
def seedBytes : ℕ := 32

/-- `CRHBYTES`. -/
def crhBytes : ℕ := 64

/-- `TRBYTES`. -/
def trBytes : ℕ := 64

/-- `POLYT1_PACKEDBYTES`. -/
def polyt1PackedBytes : ℕ := 320

/-- `POLYT0_PACKEDBYTES`. -/
def polyt0PackedBytes : ℕ := 416

/-- `K * POLYT1_PACKEDBYTES`, the bytes of a packed `t1` vector. -/
def t1Bytes (mode : DilithiumMode) : ℕ := mode.K * polyt1PackedBytes

/-- `CRYPTO_PUBLICKEYBYTES`. -/
def cryptoPublickeybytes (mode : DilithiumMode) : ℕ := seedBytes + t1Bytes mode

/-- `CRYPTO_SECRETKEYBYTES`. -/
def cryptoSecretkeybytes (mode : DilithiumMode) : ℕ :=
  2 * seedBytes + trBytes + mode.L * mode.polyetaPackedBytes + mode.K * mode.polyetaPackedBytes +
    mode.K * polyt0PackedBytes

/-- `CRYPTO_BYTES`. -/
def cryptoBytes (mode : DilithiumMode) : ℕ :=
  mode.ctildeBytes + mode.L * mode.polyzPackedBytes + (mode.omega + mode.K)

/-! ### Rounding -/

/-- `poly`, its `N` coefficients. -/
abbrev Poly := Vector Int32 256

/-- `Q`. -/
def dilithiumQ : Int32 := 8380417

/-- `caddq`. -/
def caddq (a : Int32) : Int32 := a + ((a >>> 31) &&& dilithiumQ)

/-- `power2round`: `a1` and `a0`. -/
def power2round (a : Int32) : Int32 × Int32 :=
  let a1 := (a + ((1 : Int32) <<< 12) - 1) >>> 13
  (a1, a - (a1 <<< 13))

/-- `polyveck_add`. -/
def polyveckAdd {k : ℕ} (u v : Vector Poly k) : Vector Poly k :=
  Vector.zipWith (Vector.zipWith (· + ·)) u v

/-- `polyveck_caddq`. -/
def polyveckCaddq {k : ℕ} (v : Vector Poly k) : Vector Poly k := v.map (·.map caddq)

/-- `polyveck_power2round`: `t1` and `t0`. -/
def polyveckPower2round {k : ℕ} (v : Vector Poly k) : Vector Poly k × Vector Poly k :=
  (v.map (·.map fun a ↦ (power2round a).1), v.map (·.map fun a ↦ (power2round a).2))

/-! ### Packing -/

/-- Writes a list of bytes at an offset of a buffer. -/
def storeBytes {size : ℕ} (r : Vector UInt8 size) (off : ℕ) (bytes : List UInt8) :
    Vector UInt8 size :=
  fillFrom off (fun i ↦ bytes.getD i 0) r bytes.length

/-- The low byte of a coefficient. -/
def lowByte (a : Int32) : UInt8 := a.toUInt32.toUInt8

/-- The five bytes `polyt1_pack` writes for coefficients `4 * i` to `4 * i + 3`. -/
def polyt1Group (a : Poly) (i : ℕ) : List UInt8 :=
  let c := fun j ↦ a.getD (4 * i + j) 0
  [lowByte (c 0),
   lowByte ((c 0 >>> 8) ||| (c 1 <<< 2)),
   lowByte ((c 1 >>> 6) ||| (c 2 <<< 4)),
   lowByte ((c 2 >>> 4) ||| (c 3 <<< 6)),
   lowByte (c 3 >>> 2)]

/-- The bytes `polyeta_pack` writes in one round of its loop: three for eight coefficients where
`ETA` is 2, one for two where it is 4. -/
def polyetaGroup (mode : DilithiumMode) (a : Poly) (i : ℕ) : List UInt8 :=
  let t := fun width j ↦ lowByte (mode.eta - a.getD (width * i + j) 0)
  match mode with
  | .three => [t 2 0 ||| (t 2 1 <<< 4)]
  | _ =>
    [t 8 0 ||| (t 8 1 <<< 3) ||| (t 8 2 <<< 6),
     (t 8 2 >>> 2) ||| (t 8 3 <<< 1) ||| (t 8 4 <<< 4) ||| (t 8 5 <<< 7),
     (t 8 5 >>> 1) ||| (t 8 6 <<< 2) ||| (t 8 7 <<< 5)]

/-- The thirteen bytes `polyt0_pack` writes for coefficients `8 * i` to `8 * i + 7`. -/
def polyt0Group (a : Poly) (i : ℕ) : List UInt8 :=
  let t := fun j ↦ (((1 : Int32) <<< 12) - a.getD (8 * i + j) 0).toUInt32
  [(t 0).toUInt8,
   (t 0 >>> 8).toUInt8 ||| (t 1 <<< 5).toUInt8,
   (t 1 >>> 3).toUInt8,
   (t 1 >>> 11).toUInt8 ||| (t 2 <<< 2).toUInt8,
   (t 2 >>> 6).toUInt8 ||| (t 3 <<< 7).toUInt8,
   (t 3 >>> 1).toUInt8,
   (t 3 >>> 9).toUInt8 ||| (t 4 <<< 4).toUInt8,
   (t 4 >>> 4).toUInt8,
   (t 4 >>> 12).toUInt8 ||| (t 5 <<< 1).toUInt8,
   (t 5 >>> 7).toUInt8 ||| (t 6 <<< 6).toUInt8,
   (t 6 >>> 2).toUInt8,
   (t 6 >>> 10).toUInt8 ||| (t 7 <<< 3).toUInt8,
   (t 7 >>> 5).toUInt8]

/-- A loop that writes one group of `width` bytes after the other. -/
def packGroups {size : ℕ} (width count : ℕ) (group : ℕ → List UInt8) (r : Vector UInt8 size)
    (off : ℕ) : Vector UInt8 size :=
  (List.range count).foldl (fun r i ↦ storeBytes r (off + width * i) (group i)) r

/-- `polyt1_pack`. -/
def polyt1Pack {size : ℕ} (r : Vector UInt8 size) (off : ℕ) (a : Poly) : Vector UInt8 size :=
  packGroups 5 64 (polyt1Group a) r off

/-- `polyeta_pack`. -/
def polyetaPack (mode : DilithiumMode) {size : ℕ} (r : Vector UInt8 size) (off : ℕ) (a : Poly) :
    Vector UInt8 size :=
  packGroups mode.polyetaGroupBytes mode.polyetaRounds (polyetaGroup mode a) r off

/-- `polyt0_pack`. -/
def polyt0Pack {size : ℕ} (r : Vector UInt8 size) (off : ℕ) (a : Poly) : Vector UInt8 size :=
  packGroups 13 32 (polyt0Group a) r off

/-- The loop that packs the polynomials of a vector one after the other. -/
def packVec {size count : ℕ} (pack : Vector UInt8 size → ℕ → Poly → Vector UInt8 size) (width : ℕ)
    (r : Vector UInt8 size) (off : ℕ) (vec : Vector Poly count) : Vector UInt8 size :=
  (List.range count).foldl
    (fun r i ↦ pack r (off + i * width) (vec.getD i (Vector.replicate 256 0))) r

/-- `pack_pk`. -/
def packPk (mode : DilithiumMode) (pk : Vector UInt8 (cryptoPublickeybytes mode))
    (rho : List UInt8) (t1 : Vector Poly mode.K) : Vector UInt8 (cryptoPublickeybytes mode) :=
  let pk := storeBytes pk 0 rho
  packVec polyt1Pack polyt1PackedBytes pk seedBytes t1

/-- `pack_sk`. -/
def packSk (mode : DilithiumMode) (sk : Vector UInt8 (cryptoSecretkeybytes mode))
    (rho tr key : List UInt8) (t0 : Vector Poly mode.K) (s1 : Vector Poly mode.L)
    (s2 : Vector Poly mode.K) : Vector UInt8 (cryptoSecretkeybytes mode) :=
  let sk := storeBytes sk 0 rho
  let sk := storeBytes sk seedBytes key
  let sk := storeBytes sk (2 * seedBytes) tr
  let off := 2 * seedBytes + trBytes
  let sk := packVec (polyetaPack mode) mode.polyetaPackedBytes sk off s1
  let off := off + mode.L * mode.polyetaPackedBytes
  let sk := packVec (polyetaPack mode) mode.polyetaPackedBytes sk off s2
  let off := off + mode.K * mode.polyetaPackedBytes
  packVec polyt0Pack polyt0PackedBytes sk off t0

/-! ### Writes as lists -/

theorem getD_storeBytes {size : ℕ} (r : Vector UInt8 size) (off : ℕ) (bytes : List UInt8) {k : ℕ}
    (hk : k < size) :
    (storeBytes r off bytes).getD k 0 =
      if off ≤ k ∧ k < off + bytes.length then bytes.getD (k - off) 0 else r.getD k 0 := by
  by_cases hrange : off ≤ k ∧ k < off + bytes.length
  · obtain ⟨i, rfl⟩ : ∃ i, k = off + i := ⟨k - off, by omega⟩
    rw [if_pos hrange, storeBytes, getD_fillFrom _ _ _ _ _ hk, if_pos (by omega),
      Nat.add_sub_cancel_left]
  · rw [if_neg hrange, storeBytes, getD_fillFrom_of_outside _ _ _ _ _ (by omega)]

/-- Two buffers with the same bytes are the same. -/
theorem buffer_ext {size : ℕ} {r r' : Vector UInt8 size}
    (hbytes : ∀ k < size, r.getD k 0 = r'.getD k 0) : r = r' := by
  refine Vector.ext fun k hk ↦ ?_
  rw [← getD_eq_getElem r 0 hk, ← getD_eq_getElem r' 0 hk, hbytes k hk]

/-- Adjacent writes are one write. -/
theorem storeBytes_append {size : ℕ} (r : Vector UInt8 size) (off : ℕ) (first second : List UInt8) :
    storeBytes (storeBytes r off first) (off + first.length) second =
      storeBytes r off (first ++ second) := by
  refine buffer_ext fun k hk ↦ ?_
  rw [getD_storeBytes _ _ _ hk, getD_storeBytes _ _ _ hk, getD_storeBytes _ _ _ hk,
    List.length_append]
  by_cases hsecond : off + first.length ≤ k ∧ k < off + first.length + second.length
  · rw [if_pos hsecond, if_pos (by omega), List.getD_append_right _ _ _ _ (by omega)]
    congr 1
    omega
  · rw [if_neg hsecond]
    by_cases hfirst : off ≤ k ∧ k < off + first.length
    · rw [if_pos hfirst, if_pos (by omega), List.getD_append _ _ _ _ (by omega)]
    · rw [if_neg hfirst, if_neg (by omega)]

/-- A buffer written from end to end holds what was written. -/
theorem toList_storeBytes {size : ℕ} (r : Vector UInt8 size) {bytes : List UInt8}
    (hlength : bytes.length = size) : (storeBytes r 0 bytes).toList = bytes := by
  refine List.ext_getElem (by simp [hlength]) fun k hk hk' ↦ ?_
  have hsize : k < size := by simpa using hk
  have hbyte := getD_storeBytes r 0 bytes hsize
  rw [if_pos (by omega), Nat.sub_zero, List.getD_eq_getElem _ _ hk', getD_eq_getElem _ _ hsize]
    at hbyte
  simpa using hbyte

theorem packGroups_eq {size width : ℕ} (count : ℕ) {group : ℕ → List UInt8}
    (hwidth : ∀ i, (group i).length = width) (r : Vector UInt8 size) (off : ℕ) :
    packGroups width count group r off =
      storeBytes r off ((List.range count).flatMap group) := by
  unfold packGroups
  induction count with
  | zero => rfl
  | succ count ih =>
    have hlength : ((List.range count).flatMap group).length = width * count := by
      simp [List.length_flatMap, hwidth, Nat.mul_comm]
    rw [List.range_succ, List.foldl_append, ih, List.foldl_cons, List.foldl_nil, ← hlength,
      storeBytes_append, List.flatMap_append, List.flatMap_singleton]

/-- The bytes of a packed vector. -/
def vecBytes {count : ℕ} (bytes : Poly → List UInt8) (vec : Vector Poly count) : List UInt8 :=
  (List.range count).flatMap fun i ↦ bytes (vec.getD i (Vector.replicate 256 0))

theorem length_vecBytes {count width : ℕ} {bytes : Poly → List UInt8}
    (hwidth : ∀ a, (bytes a).length = width) (vec : Vector Poly count) :
    (vecBytes bytes vec).length = count * width := by
  simp [vecBytes, List.length_flatMap, hwidth]

theorem packVec_eq {size count width : ℕ}
    {pack : Vector UInt8 size → ℕ → Poly → Vector UInt8 size} {bytes : Poly → List UInt8}
    (hpack : ∀ r off a, pack r off a = storeBytes r off (bytes a))
    (hwidth : ∀ a, (bytes a).length = width) (r : Vector UInt8 size) (off : ℕ)
    (vec : Vector Poly count) :
    packVec pack width r off vec = storeBytes r off (vecBytes bytes vec) := by
  have hgroups := packGroups_eq count
    (fun i ↦ hwidth (vec.getD i (Vector.replicate 256 0))) r off
  simp only [packVec, hpack, Nat.mul_comm _ width]
  exact hgroups

/-! ### The packed keys -/

/-- The bytes of a packed `t1` polynomial. -/
def polyt1Bytes (a : Poly) : List UInt8 := (List.range 64).flatMap (polyt1Group a)

/-- The bytes of a packed short polynomial. -/
def polyetaBytes (mode : DilithiumMode) (a : Poly) : List UInt8 :=
  (List.range mode.polyetaRounds).flatMap (polyetaGroup mode a)

/-- The bytes of a packed `t0` polynomial. -/
def polyt0Bytes (a : Poly) : List UInt8 := (List.range 32).flatMap (polyt0Group a)

theorem length_polyt1Group (a : Poly) (i : ℕ) : (polyt1Group a i).length = 5 := rfl

theorem length_polyetaGroup (mode : DilithiumMode) (a : Poly) (i : ℕ) :
    (polyetaGroup mode a i).length = mode.polyetaGroupBytes := by
  cases mode <;> rfl

theorem length_polyt0Group (a : Poly) (i : ℕ) : (polyt0Group a i).length = 13 := rfl

theorem length_polyt1Bytes (a : Poly) : (polyt1Bytes a).length = polyt1PackedBytes := by
  simp [polyt1Bytes, List.length_flatMap, length_polyt1Group, polyt1PackedBytes]

theorem length_polyetaBytes (mode : DilithiumMode) (a : Poly) :
    (polyetaBytes mode a).length = mode.polyetaPackedBytes := by
  have hbytes : (polyetaBytes mode a).length = mode.polyetaRounds * mode.polyetaGroupBytes := by
    simp [polyetaBytes, List.length_flatMap, length_polyetaGroup]
  rw [hbytes]
  cases mode <;> rfl

theorem length_polyt0Bytes (a : Poly) : (polyt0Bytes a).length = polyt0PackedBytes := by
  simp [polyt0Bytes, List.length_flatMap, length_polyt0Group, polyt0PackedBytes]

theorem polyt1Pack_eq {size : ℕ} (r : Vector UInt8 size) (off : ℕ) (a : Poly) :
    polyt1Pack r off a = storeBytes r off (polyt1Bytes a) :=
  packGroups_eq 64 (length_polyt1Group a) r off

theorem polyetaPack_eq (mode : DilithiumMode) {size : ℕ} (r : Vector UInt8 size) (off : ℕ)
    (a : Poly) : polyetaPack mode r off a = storeBytes r off (polyetaBytes mode a) :=
  packGroups_eq mode.polyetaRounds (length_polyetaGroup mode a) r off

theorem polyt0Pack_eq {size : ℕ} (r : Vector UInt8 size) (off : ℕ) (a : Poly) :
    polyt0Pack r off a = storeBytes r off (polyt0Bytes a) :=
  packGroups_eq 32 (length_polyt0Group a) r off

/-- The bytes of a leaf public key. -/
def pkBytes (mode : DilithiumMode) (rho : List UInt8) (t1 : Vector Poly mode.K) : List UInt8 :=
  rho ++ vecBytes polyt1Bytes t1

/-- The bytes of a leaf secret key. -/
def skBytes (mode : DilithiumMode) (rho tr key : List UInt8) (t0 : Vector Poly mode.K)
    (s1 : Vector Poly mode.L) (s2 : Vector Poly mode.K) : List UInt8 :=
  rho ++ key ++ tr ++ vecBytes (polyetaBytes mode) s1 ++ vecBytes (polyetaBytes mode) s2 ++
    vecBytes polyt0Bytes t0

/-- `pack_pk` writes the buffer from end to end. -/
theorem toList_packPk (mode : DilithiumMode) (pk : Vector UInt8 (cryptoPublickeybytes mode))
    {rho : List UInt8} (hrho : rho.length = seedBytes) (t1 : Vector Poly mode.K) :
    (packPk mode pk rho t1).toList = pkBytes mode rho t1 := by
  have hstore : packPk mode pk rho t1 = storeBytes pk 0 (pkBytes mode rho t1) := by
    have happend := storeBytes_append pk 0 rho (vecBytes polyt1Bytes t1)
    rw [Nat.zero_add, hrho] at happend
    rw [packPk, packVec_eq polyt1Pack_eq length_polyt1Bytes, happend, pkBytes]
  rw [hstore, toList_storeBytes]
  rw [pkBytes, List.length_append, hrho, length_vecBytes length_polyt1Bytes]
  rfl

/-- `pack_sk` writes the buffer from end to end. -/
theorem toList_packSk (mode : DilithiumMode) (sk : Vector UInt8 (cryptoSecretkeybytes mode))
    {rho tr key : List UInt8} (hrho : rho.length = seedBytes) (htr : tr.length = trBytes)
    (hkey : key.length = seedBytes) (t0 : Vector Poly mode.K) (s1 : Vector Poly mode.L)
    (s2 : Vector Poly mode.K) :
    (packSk mode sk rho tr key t0 s1 s2).toList = skBytes mode rho tr key t0 s1 s2 := by
  have hs1 := length_vecBytes (length_polyetaBytes mode) s1
  have hs2 := length_vecBytes (length_polyetaBytes mode) s2
  have ht0 := length_vecBytes length_polyt0Bytes t0
  -- every write starts where the ones before it end
  have hwrite (written : List UInt8) (off : ℕ) (hoff : off = written.length) (next : List UInt8) :
      storeBytes (storeBytes sk 0 written) off next = storeBytes sk 0 (written ++ next) := by
    rw [hoff, ← storeBytes_append, Nat.zero_add]
  have hstore : packSk mode sk rho tr key t0 s1 s2 =
      storeBytes sk 0 (skBytes mode rho tr key t0 s1 s2) := by
    simp only [packSk, packVec_eq (polyetaPack_eq mode) (length_polyetaBytes mode),
      packVec_eq polyt0Pack_eq length_polyt0Bytes]
    rw [hwrite rho _ hrho.symm, hwrite (rho ++ key) _ (by simp [hrho, hkey]; omega),
      hwrite (rho ++ key ++ tr) _ (by simp [hrho, hkey, htr]; omega),
      hwrite (rho ++ key ++ tr ++ vecBytes (polyetaBytes mode) s1) _
        (by simp [hrho, hkey, htr, hs1]; omega),
      hwrite (rho ++ key ++ tr ++ vecBytes (polyetaBytes mode) s1 ++
        vecBytes (polyetaBytes mode) s2) _ (by simp [hrho, hkey, htr, hs1, hs2]; omega), skBytes]
  rw [hstore, toList_storeBytes]
  simp only [skBytes, List.length_append, hrho, hkey, htr, hs1, hs2, ht0, cryptoSecretkeybytes]
  omega

end EvMlDsa
