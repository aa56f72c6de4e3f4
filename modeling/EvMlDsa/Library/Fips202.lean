import Mathlib.Tactic
import Mathlib.Data.List.GetD

/-!
# SHA3-256 and SHAKE as FIPS 202 defines them

The step mappings of Keccak-f[1600] on the five by five array of lanes, the permutation on bit
strings, the sponge construction, SHA3-256 and the two SHAKE functions. Everything is on bits: a
message is a `List Bool`, and `bitsOfBytes` is the standard's reading of a byte string, least
significant bit first; `byteAt` reads a byte of a digest.

A lane is a `BitVec 64` whose bit `z` is the state bit `A[x, y, z]`; the state bit with coordinates
`x`, `y`, `z` is bit `64 * (5 * y + x) + z` of the state string.
-/

set_option autoImplicit false
set_option relaxedAutoImplicit false

namespace Library.Fips202

/-- The state array: lane `(x, y)`. -/
abbrev StateArray := Fin 5 → Fin 5 → BitVec 64

/-! ### Step mappings -/

/-- The parity of the five lanes of sheet `x`. -/
def columnParity (A : StateArray) (x : Fin 5) : BitVec 64 :=
  A x 0 ^^^ A x 1 ^^^ A x 2 ^^^ A x 3 ^^^ A x 4

/-- `θ`. -/
def theta (A : StateArray) : StateArray := fun x y ↦
  A x y ^^^ (columnParity A (x - 1) ^^^ (columnParity A (x + 1)).rotateLeft 1)

/-- The lanes in the order `ρ` visits them. -/
def rhoWalk : ℕ → Fin 5 × Fin 5
  | 0 => (1, 0)
  | t + 1 => ((rhoWalk t).2, 2 * (rhoWalk t).1 + 3 * (rhoWalk t).2)

/-- The rotation offset of lane `(x, y)`: `(t + 1) (t + 2) / 2` for the lane visited at step `t`,
and none for lane `(0, 0)`, which the walk never visits. -/
def rhoOffset (x y : Fin 5) : ℕ :=
  match (List.range 24).find? fun t ↦ rhoWalk t = (x, y) with
  | some t => (t + 1) * (t + 2) / 2
  | none => 0

/-- `ρ`. -/
def rho (A : StateArray) : StateArray := fun x y ↦ (A x y).rotateLeft (rhoOffset x y)

/-- `π`. -/
def pi (A : StateArray) : StateArray := fun x y ↦ A (x + 3 * y) x

/-- `χ`. -/
def chi (A : StateArray) : StateArray := fun x y ↦
  A x y ^^^ (~~~A (x + 1) y &&& A (x + 2) y)

/-- One step of the shift register: `R := 0 ‖ R`, bit 8 added into bits 0, 4, 5 and 6, the first
eight bits kept. -/
def lfsrStep (R : BitVec 8) : BitVec 8 :=
  let shifted : BitVec 9 := R.setWidth 9 <<< 1
  (if shifted.getLsbD 8 then shifted ^^^ 0b001110001#9 else shifted).setWidth 8

/-- `rc(t)`, bit 0 of the register after `t mod 255` steps from `10000000`. -/
def rc (t : ℕ) : Bool := (lfsrStep^[t % 255] 0b00000001#8).getLsbD 0

/-- The round constant: bit `2 ^ j - 1` is `rc(j + 7 ir)` for `j ≤ 6`. -/
def roundConstant (ir : ℕ) : BitVec 64 :=
  (List.range 7).foldl
    (fun RC j ↦ if rc (j + 7 * ir) then RC ||| (1#64 <<< (2 ^ j - 1)) else RC) 0

/-- `ι`. -/
def iota (ir : ℕ) (A : StateArray) : StateArray := fun x y ↦
  if x = 0 ∧ y = 0 then A x y ^^^ roundConstant ir else A x y

/-- `Rnd(A, ir)`. -/
def round (A : StateArray) (ir : ℕ) : StateArray := iota ir (chi (pi (rho (theta A))))

/-! ### The permutation on bit strings -/

/-- The state array of a string of 1600 bits. -/
def ofString (S : List Bool) : StateArray := fun x y ↦
  (BitVec.ofBoolListLE ((S.drop (64 * (5 * y.val + x.val))).take 64)).setWidth 64

/-- The string of a state array. -/
def toString (A : StateArray) : List Bool :=
  List.ofFn fun i : Fin 1600 ↦
    (A (Fin.ofNat 5 (i.val / 64)) (Fin.ofNat 5 (i.val / 64 / 5))).getLsbD (i.val % 64)

/-- `KECCAK-p[1600, 24]`. -/
def keccakP (S : List Bool) : List Bool :=
  toString ((List.range 24).foldl round (ofString S))

/-! ### The sponge -/

/-- `pad10*1(x, m)`. -/
def pad10star1 (x m : ℕ) : List Bool :=
  true :: List.replicate ((-(m : ℤ) - 2) % (x : ℤ)).toNat false ++ [true]

/-- `S ⊕ (B ‖ 0 ^ c)`, where `B` and `c` fill the length of `S`. -/
def xorBlock (S B : List Bool) : List Bool :=
  List.zipWith xor S (B ++ List.replicate (S.length - B.length) false)

/-- Block `i` of the padded string. -/
def blockAt (r : ℕ) (P : List Bool) (i : ℕ) : List Bool := (P.drop (i * r)).take r

/-- The state after the first `n` blocks. -/
def absorb (f : List Bool → List Bool) (b r : ℕ) (P : List Bool) (n : ℕ) : List Bool :=
  (List.range n).foldl (fun S i ↦ f (xorBlock S (blockAt r P i))) (List.replicate b false)

/-- The first `d` bits of `Trunc_r(S) ‖ Trunc_r(f(S)) ‖ …`. -/
def squeeze (f : List Bool → List Bool) (r : ℕ) [NeZero r] (S : List Bool) (d : ℕ) : List Bool :=
  if d ≤ r then S.take d else S.take r ++ squeeze f r (f S) (d - r)
termination_by d
decreasing_by have := NeZero.pos r; omega

/-- `SPONGE[f, pad, r](N, d)` for a permutation `f` of `b` bits. -/
def sponge (f : List Bool → List Bool) (pad : ℕ → ℕ → List Bool) (b r : ℕ) [NeZero r]
    (N : List Bool) (d : ℕ) : List Bool :=
  let P := N ++ pad r N.length
  squeeze f r (absorb f b r P (P.length / r)) d

/-- `KECCAK[c](N, d)` at `c = 512`. -/
def keccak512 (N : List Bool) (d : ℕ) : List Bool := sponge keccakP pad10star1 1600 1088 N d

/-- `KECCAK[c](N, d)` at `c = 256`. -/
def keccak256 (N : List Bool) (d : ℕ) : List Bool := sponge keccakP pad10star1 1600 1344 N d

/-- `SHA3-256(M)`. -/
def sha3_256 (M : List Bool) : List Bool := keccak512 (M ++ [false, true]) 256

/-- `SHAKE128(M, d)`. -/
def shake128 (M : List Bool) (d : ℕ) : List Bool := keccak256 (M ++ [true, true, true, true]) d

/-- `SHAKE256(M, d)`. -/
def shake256 (M : List Bool) (d : ℕ) : List Bool := keccak512 (M ++ [true, true, true, true]) d

/-! ### Byte strings -/

/-- The bits of a byte, least significant first. -/
def bitsOfByte (b : UInt8) : List Bool := List.ofFn fun i : Fin 8 ↦ b.toBitVec.getLsbD i.val

/-- The bits of a byte string. -/
def bitsOfBytes (bytes : List UInt8) : List Bool := bytes.flatMap bitsOfByte

theorem length_bitsOfByte (b : UInt8) : (bitsOfByte b).length = 8 := by simp [bitsOfByte]

@[simp] theorem length_bitsOfBytes (bytes : List UInt8) :
    (bitsOfBytes bytes).length = 8 * bytes.length := by
  induction bytes with
  | nil => rfl
  | cons b bytes ih =>
    simp only [bitsOfBytes, List.flatMap_cons, List.length_append, length_bitsOfByte,
      List.length_cons] at ih ⊢
    omega

@[simp] theorem bitsOfBytes_append (first second : List UInt8) :
    bitsOfBytes (first ++ second) = bitsOfBytes first ++ bitsOfBytes second :=
  List.flatMap_append

/-- Bit `i` of a byte string is bit `i mod 8` of byte `i / 8`. -/
theorem getD_bitsOfBytes (bytes : List UInt8) (i : ℕ) :
    (bitsOfBytes bytes).getD i false = (bytes.getD (i / 8) 0).toBitVec.getLsbD (i % 8) := by
  induction bytes generalizing i with
  | nil => simp [bitsOfBytes]
  | cons b bytes ih =>
    have hcons : bitsOfBytes (b :: bytes) = bitsOfByte b ++ bitsOfBytes bytes :=
      List.flatMap_cons
    rw [hcons]
    by_cases hi : i < 8
    · have hdiv : i / 8 = 0 := by omega
      have hmod : i % 8 = i := by omega
      have hbyte : i < (bitsOfByte b).length := by rwa [length_bitsOfByte]
      rw [List.getD_append _ _ _ _ hbyte, hdiv, hmod, List.getD_cons_zero,
        List.getD_eq_getElem _ _ hbyte]
      exact List.getElem_ofFn _
    · have hdiv : i / 8 = (i - 8) / 8 + 1 := by omega
      have hmod : i % 8 = (i - 8) % 8 := by omega
      rw [List.getD_append_right _ _ _ _ (by rw [length_bitsOfByte]; omega), length_bitsOfByte,
        hdiv, hmod, List.getD_cons_succ]
      exact ih (i - 8)

theorem drop_bitsOfBytes (bytes : List UInt8) (n : ℕ) :
    (bitsOfBytes bytes).drop (8 * n) = bitsOfBytes (bytes.drop n) := by
  rcases le_total n bytes.length with hn | hn
  · have hlength : (bitsOfBytes (bytes.take n)).length = 8 * n := by simp [hn]
    conv_lhs => rw [← List.take_append_drop n bytes, bitsOfBytes_append]
    rw [← hlength, List.drop_left]
  · rw [List.drop_of_length_le hn, List.drop_of_length_le (by simp; omega)]
    rfl

theorem take_bitsOfBytes (bytes : List UInt8) (n : ℕ) :
    (bitsOfBytes bytes).take (8 * n) = bitsOfBytes (bytes.take n) := by
  rcases le_total n bytes.length with hn | hn
  · have hlength : (bitsOfBytes (bytes.take n)).length = 8 * n := by simp [hn]
    conv_lhs => rw [← List.take_append_drop n bytes, bitsOfBytes_append]
    rw [← hlength, List.take_left]
  · rw [List.take_of_length_le hn, List.take_of_length_le (by simp; omega)]

/-- Byte `k` of a bit string. -/
def byteAt (bits : List Bool) (k : ℕ) : UInt8 :=
  UInt8.ofBitVec ((BitVec.ofBoolListLE (bits.drop (8 * k))).setWidth 8)

theorem getLsbD_byteAt (bits : List Bool) (k : ℕ) {b : ℕ} (hb : b < 8) :
    (byteAt bits k).toBitVec.getLsbD b = bits.getD (8 * k + b) false := by
  rw [byteAt, UInt8.toBitVec_ofBitVec, BitVec.getLsbD_setWidth, BitVec.getLsbD_ofBoolListLE]
  simp [List.getD_eq_getElem?_getD, hb]

/-! ### The two forms of the state -/

theorem length_toString (A : StateArray) : (toString A).length = 1600 := List.length_ofFn

theorem getD_toString (A : StateArray) {i : ℕ} (hi : i < 1600) :
    (toString A).getD i false =
      (A (Fin.ofNat 5 (i / 64)) (Fin.ofNat 5 (i / 64 / 5))).getLsbD (i % 64) := by
  rw [List.getD_eq_getElem _ _ (by rwa [length_toString])]
  exact List.getElem_ofFn _

/-- Bit `z` of lane `(x, y)` of a string. -/
theorem getLsbD_ofString (S : List Bool) (x y : Fin 5) {z : ℕ} (hz : z < 64) :
    (ofString S x y).getLsbD z = S.getD (64 * (5 * y.val + x.val) + z) false := by
  rw [ofString, BitVec.getLsbD_setWidth, BitVec.getLsbD_ofBoolListLE]
  simp [List.getD_eq_getElem?_getD, hz]

theorem ofString_toString (A : StateArray) : ofString (toString A) = A := by
  funext x y
  refine BitVec.eq_of_getLsbD_eq fun z hz ↦ ?_
  have hindex : 64 * (5 * y.val + x.val) + z < 1600 := by omega
  have hx : Fin.ofNat 5 ((64 * (5 * y.val + x.val) + z) / 64) = x := by
    apply Fin.ext; simp only [Fin.val_ofNat]; omega
  have hy : Fin.ofNat 5 ((64 * (5 * y.val + x.val) + z) / 64 / 5) = y := by
    apply Fin.ext; simp only [Fin.val_ofNat]; omega
  have hmod : (64 * (5 * y.val + x.val) + z) % 64 = z := by omega
  rw [getLsbD_ofString _ _ _ hz, getD_toString A hindex, hx, hy, hmod]

/-- Two strings of equal length with the same bits are the same string. -/
theorem string_ext {S S' : List Bool} (hlength : S.length = S'.length)
    (hbits : ∀ i, S.getD i false = S'.getD i false) : S = S' := by
  refine List.ext_getElem hlength fun i hi hi' ↦ ?_
  have hbit := hbits i
  rwa [List.getD_eq_getElem _ _ hi, List.getD_eq_getElem _ _ hi'] at hbit

theorem length_xorBlock {S B : List Bool} (hlength : B.length ≤ S.length) :
    (xorBlock S B).length = S.length := by
  simp only [xorBlock, List.length_zipWith, List.length_append, List.length_replicate]
  omega

theorem getD_xorBlock {S B : List Bool} (hlength : B.length ≤ S.length) (i : ℕ) :
    (xorBlock S B).getD i false = xor (S.getD i false) (B.getD i false) := by
  by_cases hi : i < S.length
  · rw [List.getD_eq_getElem _ _ (by rwa [length_xorBlock hlength]), List.getD_eq_getElem _ _ hi]
    simp only [xorBlock, List.getElem_zipWith, List.getElem_append]
    split_ifs with hB
    · rw [List.getD_eq_getElem _ _ hB]
    · rw [List.getD_eq_default _ _ (by omega), List.getElem_replicate]
  · rw [List.getD_eq_default _ _ (by rw [length_xorBlock hlength]; omega),
      List.getD_eq_default _ _ (by omega), List.getD_eq_default _ _ (by omega)]
    rfl

end Library.Fips202
