import EvMlDsa.Library.Sponge
import EvMlDsa.Lattice.Sign
import EvMlDsa.RefFips202

/-!
# SHAKE128 and SHAKE256

The incremental functions of `fips202.c`. The sponge is absorbed and squeezed in pieces, block by
block or byte by byte; all of it is one output stream of one message (`keccakAbsorb_eq`,
`keccakSqueeze_eq`, `keccakAbsorbOnce_eq_finalize`), and the stream is the one of the standard.
-/

set_option autoImplicit false
set_option relaxedAutoImplicit false

namespace EvMlDsa.Ref

open Library Library.FixedArray Library.Sponge

/-! ### The sponge -/

/-- `s[i / 8] ^= (uint64_t)b << 8 * (i % 8)`. -/
def xorByte (s : KeccakState) (i : ℕ) (b : UInt8) : KeccakState :=
  s.setIfInBounds (i / 8) (s.getD (i / 8) 0 ^^^ (b.toUInt64 <<< UInt64.ofNat (8 * (i % 8))))

/-- The byte `s[i / 8] >> 8 * (i % 8)`. -/
def stateByte (s : KeccakState) (i : ℕ) : UInt8 := store64 (s.getD (i / 8) 0) (i % 8)

/-- The sponge of Keccak. -/
def keccakOps : Ops KeccakState UInt8 where
  permute := keccakF1600StatePermute
  add := xorByte
  byteAt := stateByte

/-- `keccak_absorb`; `fuel` bounds the number of turns. -/
def keccakAbsorb (r : ℕ) : (fuel : ℕ) → KeccakState → (pos : ℕ) → (input : List UInt8) →
    KeccakState × ℕ
  | 0, s, pos, _ => (s, pos)
  | fuel + 1, s, pos, input =>
    if pos + input.length ≥ r then
      let s := addBytes keccakOps s pos (input.take (r - pos))
      keccakAbsorb r fuel (keccakF1600StatePermute s) 0 (input.drop (r - pos))
    else (addBytes keccakOps s pos input, pos + input.length)

/-- `keccak_finalize`. -/
def keccakFinalize (s : KeccakState) (pos r : ℕ) (p : UInt8) : KeccakState :=
  let s := s.setIfInBounds (pos / 8)
    (s.getD (pos / 8) 0 ^^^ (p.toUInt64 <<< UInt64.ofNat (8 * (pos % 8))))
  s.setIfInBounds (r / 8 - 1) (s.getD (r / 8 - 1) 0 ^^^ ((1 : UInt64) <<< 63))

/-- `keccak_squeeze`: the bytes written, the state and the new `pos`; `fuel` bounds the number of
turns. -/
def keccakSqueeze (r : ℕ) : (fuel outlen : ℕ) → KeccakState → (pos : ℕ) →
    List UInt8 × KeccakState × ℕ
  | 0, _, s, pos => ([], s, pos)
  | fuel + 1, outlen, s, pos =>
    if outlen = 0 then ([], s, pos)
    else
      let (s, pos) := if pos = r then (keccakF1600StatePermute s, 0) else (s, pos)
      let count := min (r - pos) outlen
      let (out, next) := keccakSqueeze r fuel (outlen - count) s (pos + count)
      ((List.range' pos count).map (stateByte s) ++ out, next)

/-- `keccak_squeezeblocks`: the bytes written and the state. -/
def keccakSqueezeblocks (r : ℕ) : (nblocks : ℕ) → KeccakState → List UInt8 × KeccakState
  | 0, s => ([], s)
  | nblocks + 1, s =>
    let s := keccakF1600StatePermute s
    let (out, next) := keccakSqueezeblocks r nblocks s
    ((List.range (8 * (r / 8))).map (stateByte s) ++ out, next)

/-! ### The interface -/

/-- The two functions. -/
inductive Shake where
  | shake128
  | shake256
deriving DecidableEq, Repr

namespace Shake

/-- `SHAKE128_RATE` and `SHAKE256_RATE`. -/
def rate : Shake → ℕ
  | shake128 => shake128Rate
  | shake256 => shake256Rate

/-- The function of the standard. -/
def standard : Shake → List Bool → ℕ → List Bool
  | shake128 => Fips202.shake128
  | shake256 => Fips202.shake256

/-- `keccak_state`. -/
structure State where
  s : KeccakState
  pos : ℕ

variable (shake : Shake)

/-- `shake128_init` and `shake256_init`. -/
def init : State := { s := Vector.replicate 25 0, pos := 0 }

/-- `shake128_absorb` and `shake256_absorb`. -/
def absorb (state : State) (input : List UInt8) : State :=
  let (s, pos) := keccakAbsorb shake.rate (input.length + 1) state.s state.pos input
  { s := s, pos := pos }

/-- `shake128_finalize` and `shake256_finalize`. -/
def finalize (state : State) : State :=
  { s := keccakFinalize state.s state.pos shake.rate 0x1F, pos := shake.rate }

/-- `shake128_squeeze` and `shake256_squeeze`. -/
def squeeze (outlen : ℕ) (state : State) : List UInt8 × State :=
  let (out, s, pos) := keccakSqueeze shake.rate outlen outlen state.s state.pos
  (out, { s := s, pos := pos })

/-- `shake128_absorb_once` and `shake256_absorb_once`. -/
def absorbOnce (input : List UInt8) : State :=
  { s := keccakAbsorbOnce shake.rate input 0x1F, pos := shake.rate }

/-- `shake128_squeezeblocks` and `shake256_squeezeblocks`. -/
def squeezeblocks (nblocks : ℕ) (state : State) : List UInt8 × State :=
  let (out, s) := keccakSqueezeblocks shake.rate nblocks state.s
  (out, { state with s := s })

/-- `shake128` and `shake256`. -/
def hash (outlen : ℕ) (input : List UInt8) : List UInt8 :=
  let state := shake.absorbOnce input
  let nblocks := outlen / shake.rate
  let (out, state) := shake.squeezeblocks nblocks state
  out ++ (shake.squeeze (outlen - nblocks * shake.rate) state).1

/-- `dilithium_shake128_stream_init` and `dilithium_shake256_stream_init`. -/
def streamInit (seed : List UInt8) (nonce : UInt16) : State :=
  shake.finalize (shake.absorb (shake.absorb init seed) (nonceBytes nonce))

/-- A call that squeezes: of `shake128_squeeze` or `shake256_squeeze` with `outlen`, or of
`shake128_squeezeblocks` or `shake256_squeezeblocks` with `nblocks`. -/
inductive Call where
  | squeeze (outlen : ℕ)
  | squeezeblocks (nblocks : ℕ)
deriving DecidableEq, Repr

/-- The number of bytes a call delivers. -/
def Call.length : Call → ℕ
  | .squeeze outlen => outlen
  | .squeezeblocks nblocks => shake.rate * nblocks

/-- What a sequence of calls delivers. -/
def run : List Call → State → List UInt8
  | [], _ => []
  | .squeeze outlen :: calls, state =>
    let (out, state) := shake.squeeze outlen state
    out ++ run calls state
  | .squeezeblocks nblocks :: calls, state =>
    let (out, state) := shake.squeezeblocks nblocks state
    out ++ run calls state

/-- Whole blocks are squeezed only where a block begins; `start` bytes were delivered before. -/
def Aligned : (start : ℕ) → List Call → Prop
  | _, [] => True
  | start, .squeeze outlen :: calls => Aligned (start + outlen) calls
  | start, .squeezeblocks nblocks :: calls =>
    shake.rate ∣ start ∧ Aligned (start + shake.rate * nblocks) calls

/-- The bytes that follow a message. -/
def stream (M : List UInt8) : ℕ → UInt8 :=
  Sponge.stream keccakOps shake.rate (shake.absorbOnce M).s

end Shake

/-! ### Absorbing -/

/-- Bit `z` of word `k` after bytes were added from a place on. -/
theorem getLsbD_addBytes (s : KeccakState) (pos : ℕ) (bytes : List UInt8) {k z : ℕ} (hk : k < 25)
    (hz : z < 64) :
    ((addBytes keccakOps s pos bytes).getD k 0).toBitVec.getLsbD z =
      xor ((s.getD k 0).toBitVec.getLsbD z)
        (decide (pos ≤ 8 * k + z / 8 ∧ 8 * k + z / 8 < pos + bytes.length) &&
          (bytes.getD (8 * k + z / 8 - pos) 0).toBitVec.getLsbD (z % 8)) := by
  induction bytes generalizing s pos with
  | nil =>
    have hempty : ¬(pos ≤ 8 * k + z / 8 ∧ 8 * k + z / 8 < pos + ([] : List UInt8).length) := by
      rw [List.length_nil]
      omega
    rw [addBytes, decide_eq_false hempty, Bool.false_and, Bool.xor_false]
  | cons b bytes ih =>
    have hbyte : ((keccakOps.add s pos b).getD k 0).toBitVec.getLsbD z =
        xor ((s.getD k 0).toBitVec.getLsbD z)
          (decide (8 * k + z / 8 = pos) && b.toBitVec.getLsbD (z % 8)) :=
      getLsbD_xorByte s b pos hk hz
    rw [addBytes, ih, hbyte, Bool.xor_assoc, List.length_cons]
    congr 1
    by_cases hplace : 8 * k + z / 8 = pos
    · have hfirst : 8 * k + z / 8 - pos = 0 := by omega
      have hlater : ¬(pos + 1 ≤ 8 * k + z / 8 ∧ 8 * k + z / 8 < pos + 1 + bytes.length) := by omega
      rw [decide_eq_true hplace, decide_eq_false hlater, hfirst, List.getD_cons_zero,
        decide_eq_true (by omega), Bool.false_and, Bool.xor_false]
    · by_cases hlater : pos + 1 ≤ 8 * k + z / 8
      · have hnext : 8 * k + z / 8 - pos = 8 * k + z / 8 - (pos + 1) + 1 := by omega
        have hrange : (pos + 1 ≤ 8 * k + z / 8 ∧ 8 * k + z / 8 < pos + 1 + bytes.length) ↔
            (pos ≤ 8 * k + z / 8 ∧ 8 * k + z / 8 < pos + (bytes.length + 1)) := by omega
        rw [decide_eq_false hplace, hnext, List.getD_cons_succ, Bool.false_and, Bool.false_xor]
        simp only [hrange]
      · rw [decide_eq_false hplace, decide_eq_false (by omega), decide_eq_false (by omega)]
        simp

/-- `keccak_absorb` absorbs its bytes one after the other. -/
theorem keccakAbsorb_eq {r fuel : ℕ} (s : KeccakState) {pos : ℕ} (hpos : pos < r)
    {input : List UInt8} (hfuel : input.length < fuel) :
    keccakAbsorb r fuel s pos input = absorb keccakOps r (s, pos) input := by
  induction fuel generalizing s pos input with
  | zero => omega
  | succ fuel ih =>
    rw [keccakAbsorb]
    split_ifs with hfull
    · have hblock : pos + (input.take (r - pos)).length = r := by
        rw [List.length_take]
        omega
      have hrest : (input.drop (r - pos)).length < fuel := by
        rw [List.length_drop]
        omega
      conv_rhs => rw [← List.take_append_drop (r - pos) input, absorb_append,
        absorb_fill keccakOps s hpos hblock]
      exact ih _ (by omega) hrest
    · rw [absorb_within keccakOps s (by omega)]

/-- Adding a full block by words is adding it by bytes. -/
theorem xorWords_eq_addBytes {r : ℕ} (hwords : 8 ∣ r) (s : KeccakState) {input : List UInt8}
    (hfull : r ≤ input.length) :
    xorWords s r (fun i ↦ input.getD i 0) = addBytes keccakOps s 0 (input.take r) := by
  refine state_ext fun k hk z hz ↦ ?_
  have hlength : (input.take r).length = r := List.length_take_of_le hfull
  have hbelow : 0 ≤ 8 * k + z / 8 ∧ 8 * k + z / 8 < 0 + (input.take r).length ↔ k < r / 8 := by
    omega
  rw [getD_xorWords s _ _ hk, getLsbD_addBytes _ _ _ hk hz, Nat.sub_zero]
  simp only [hbelow]
  split_ifs with hk'
  · have hread : (input.take r).getD (8 * k + z / 8) 0 = input.getD (8 * k + z / 8) 0 := by
      rw [List.getD_eq_getElem?_getD, List.getElem?_take_of_lt (by omega),
        List.getD_eq_getElem?_getD]
    rw [UInt64.toBitVec_xor, BitVec.getLsbD_xor, getLsbD_load64 _ hz, decide_eq_true hk', hread,
      Bool.true_and]
  · rw [decide_eq_false hk', Bool.false_and, Bool.xor_false]

/-- Adding the rest of a message byte by byte. -/
theorem xorBytes_eq_addBytes (s : KeccakState) (input : List UInt8) :
    xorBytes s (fun i ↦ input.getD i 0) input.length = addBytes keccakOps s 0 input := by
  refine state_ext fun k hk z hz ↦ ?_
  rw [getLsbD_xorBytes _ _ _ hk hz, getLsbD_addBytes _ _ _ hk hz, Nat.sub_zero, Nat.zero_add]
  simp only [Nat.zero_le, true_and]

/-- The loop over full blocks leaves a rest that is shorter than a block. -/
theorem absorbBlocks_absorb {r fuel : ℕ} (hr : 0 < r) (hwords : 8 ∣ r) (s : KeccakState)
    {input : List UInt8} (hfuel : input.length ≤ fuel) :
    (absorbBlocks r fuel s input).2.length < r ∧
      absorb keccakOps r (s, 0) input =
        absorb keccakOps r ((absorbBlocks r fuel s input).1, 0)
          (absorbBlocks r fuel s input).2 := by
  induction fuel generalizing s input with
  | zero =>
    have hempty : input.length < r := by omega
    exact ⟨hempty, rfl⟩
  | succ fuel ih =>
    rw [absorbBlocks]
    split_ifs with hfull
    · have hblock : 0 + (input.take r).length = r := by
        rw [Nat.zero_add, List.length_take_of_le hfull]
      have hrest : (input.drop r).length ≤ fuel := by
        rw [List.length_drop]
        omega
      obtain ⟨hshort, habsorb⟩ := ih (keccakF1600StatePermute
        (xorWords s r fun i ↦ input.getD i 0)) hrest
      refine ⟨hshort, habsorb.symm ▸ ?_⟩
      conv_lhs => rw [← List.take_append_drop r input, absorb_append,
        absorb_fill keccakOps s hr hblock]
      rw [xorWords_eq_addBytes hwords s hfull]
      rfl
    · have hshort : input.length < r := by omega
      exact ⟨hshort, rfl⟩

/-- `keccak_absorb_once` is the incremental absorption, finalized. -/
theorem keccakAbsorbOnce_eq_finalize {r : ℕ} (hr : 0 < r) (hwords : 8 ∣ r) (input : List UInt8)
    (p : UInt8) :
    keccakAbsorbOnce r input p =
      keccakFinalize (absorb keccakOps r (Vector.replicate 25 0, 0) input).1
        (absorb keccakOps r (Vector.replicate 25 0, 0) input).2 r p := by
  obtain ⟨hshort, habsorb⟩ := absorbBlocks_absorb hr hwords (Vector.replicate 25 0)
    (le_refl input.length)
  have htop : (r - 1) / 8 = r / 8 - 1 := by omega
  rw [habsorb, absorb_within keccakOps _ (by omega), ← xorBytes_eq_addBytes, Nat.zero_add,
    keccakAbsorbOnce, keccakFinalize, htop]
  rfl

/-! ### Squeezing -/

/-- Bytes of a block that was permuted in. -/
theorem map_stateByte {r : ℕ} (s : KeccakState) {n count : ℕ} (hfits : n % r + count ≤ r) :
    (List.range' (n % r) count).map (stateByte (keccakOps.permute^[n / r + 1] s)) =
      (List.range' n count).map (stream keccakOps r s) := by
  rw [List.range'_eq_map_range, List.range'_eq_map_range, List.map_map, List.map_map]
  refine List.map_congr_left fun j hj ↦ ?_
  have hlt := List.mem_range.mp hj
  exact (stream_within keccakOps s (by omega)).symm

/-- `keccak_squeeze` delivers the next bytes of the stream. -/
theorem keccakSqueeze_eq {r fuel outlen : ℕ} (hr : 0 < r) (s : KeccakState) (n : ℕ)
    (hfuel : outlen ≤ fuel) :
    keccakSqueeze r fuel outlen (squeezed keccakOps r s n).1 (squeezed keccakOps r s n).2 =
      ((List.range' n outlen).map (stream keccakOps r s), squeezed keccakOps r s (n + outlen)) := by
  induction fuel generalizing outlen n with
  | zero =>
    obtain rfl : outlen = 0 := by omega
    rfl
  | succ fuel ih =>
    rw [keccakSqueeze]
    by_cases hdone : outlen = 0
    · rw [if_pos hdone, hdone]
      rfl
    · have hmod := Nat.mod_lt n hr
      have hrefill : (if (squeezed keccakOps r s n).2 = r then
          (keccakF1600StatePermute (squeezed keccakOps r s n).1, 0)
            else ((squeezed keccakOps r s n).1, (squeezed keccakOps r s n).2)) =
          (keccakOps.permute^[n / r + 1] s, n % r) := refill_squeezed keccakOps hr s n
      rw [if_neg hdone, hrefill]
      dsimp only
      set count := min (r - n % r) outlen with hcount
      have hless : outlen - count ≤ fuel := by omega
      have hnext := ih (n + count) hless
      rw [squeezed_within keccakOps s (by omega) (by omega)] at hnext
      have hall : n + count + (outlen - count) = n + outlen := by omega
      rw [hnext, map_stateByte s (by omega), hall]
      dsimp only
      rw [← List.map_append, List.range'_append_1, Nat.add_sub_cancel' (by omega)]

/-- `keccak_squeezeblocks` delivers the next blocks of the stream. -/
theorem keccakSqueezeblocks_eq {r : ℕ} (hr : 0 < r) (hwords : 8 ∣ r) (s : KeccakState)
    (block nblocks : ℕ) :
    keccakSqueezeblocks r nblocks (keccakOps.permute^[block] s) =
      ((List.range' (r * block) (r * nblocks)).map (stream keccakOps r s),
        keccakOps.permute^[block + nblocks] s) := by
  induction nblocks generalizing block with
  | zero => rfl
  | succ nblocks ih =>
    have hpermute : keccakF1600StatePermute (keccakOps.permute^[block] s) =
        keccakOps.permute^[block + 1] s :=
      (Function.iterate_succ_apply' keccakOps.permute block s).symm
    have hbytes : (List.range (8 * (r / 8))).map (stateByte (keccakOps.permute^[block + 1] s)) =
        (List.range' (r * block) r).map (stream keccakOps r s) := by
      have hfits : r * block % r + r ≤ r := by rw [Nat.mul_mod_right, Nat.zero_add]
      have hblock := map_stateByte s hfits
      rw [Nat.mul_mod_right, Nat.mul_div_cancel_left _ hr, ← List.range_eq_range'] at hblock
      rw [Nat.mul_div_cancel' hwords, hblock]
    rw [keccakSqueezeblocks, hpermute, ih]
    dsimp only
    rw [hbytes, ← List.map_append, Nat.mul_succ r block, List.range'_append_1, Nat.mul_succ,
      Nat.add_comm (r * nblocks), Nat.add_right_comm block, Nat.add_assoc]

/-! ### The standard -/

/-- The bytes behind a message that ends at `pos`: the domain byte, zeros, and the top bit of the
last byte of the block. -/
def padding (r pos : ℕ) : List UInt8 :=
  (List.range' pos (r - pos)).map fun i ↦
    (if i = pos then 0x1F else 0) ||| (if i = r - 1 then 0x80 else 0)

@[simp] theorem length_padding (r pos : ℕ) : (padding r pos).length = r - pos := by simp [padding]

/-- The bits of the padding, placed in the block. -/
theorem getLsbD_padding {r pos i z : ℕ} (hpos : pos ≤ i) (hi : i < r) (hz : z < 8) :
    ((padding r pos).getD (i - pos) 0).toBitVec.getLsbD z =
      (decide (i = pos ∧ z < 5) ^^ decide (i = r - 1 ∧ z = 7)) := by
  have hdomain : ∀ z < 8, (0x1F : UInt8).toBitVec.getLsbD z = decide (z < 5) := by decide
  have htop : ∀ z < 8, (0x80 : UInt8).toBitVec.getLsbD z = decide (z = 7) := by decide
  have hread : (padding r pos).getD (i - pos) 0 =
      (if i = pos then 0x1F else 0) ||| (if i = r - 1 then 0x80 else 0) := by
    rw [List.getD_eq_getElem _ _ (by rw [length_padding]; omega)]
    simp only [padding, List.getElem_map, List.getElem_range', Nat.one_mul,
      Nat.add_sub_cancel' hpos]
  rw [hread, UInt8.toBitVec_or, BitVec.getLsbD_or]
  have hfirst : (if i = pos then (0x1F : UInt8) else 0).toBitVec.getLsbD z =
      decide (i = pos ∧ z < 5) := by
    by_cases h : i = pos
    · simp only [h, if_pos, hdomain z hz, true_and]
    · simp [h]
  have hlast : (if i = r - 1 then (0x80 : UInt8) else 0).toBitVec.getLsbD z =
      decide (i = r - 1 ∧ z = 7) := by
    by_cases h : i = r - 1
    · simp only [h, if_pos, htop z hz, true_and]
    · simp [h]
  rw [hfirst, hlast]
  by_cases hz7 : z = 7
  · simp [hz7]
  · simp [hz7]

/-- The zeros of the padding of a message whose last block holds `length % r` bytes. -/
theorem padZeros_eq {r length : ℕ} (hr : 0 < r) :
    ((-((8 * length + 4 : ℕ) : ℤ) - 2) % ((8 * r : ℕ) : ℤ)).toNat =
      8 * (r - length % r) - 6 := by
  have hdiv := Nat.div_add_mod length r
  have hmod := Nat.mod_lt length hr
  generalize length / r = q, length % r = pos at hdiv hmod ⊢
  have hsplit : (-((8 * length + 4 : ℕ) : ℤ) - 2) =
      ((8 * (r - pos) - 6 : ℕ) : ℤ) + ((8 * r : ℕ) : ℤ) * (-(q : ℤ) - 1) := by
    rw [← hdiv, Nat.cast_sub (by omega), Nat.cast_mul, Nat.cast_sub hmod.le]
    push_cast
    ring
  rw [hsplit, Int.add_mul_emod_self_left, Int.emod_eq_of_lt (by omega) (by omega),
    Int.toNat_natCast]

/-- The bits of the padding. -/
theorem getD_suffix (zeros i : ℕ) :
    ([true, true, true, true] ++ (true :: List.replicate zeros false ++ [true])).getD i false =
      decide (i < 5 ∨ i = zeros + 5) := by
  have hlength : (List.replicate 5 true).length = 5 := List.length_replicate
  have hshape : [true, true, true, true] ++ (true :: List.replicate zeros false ++ [true]) =
      List.replicate 5 true ++ (List.replicate zeros false ++ [true]) := rfl
  rw [hshape]
  by_cases hones : i < 5
  · rw [List.getD_append _ _ _ _ (by rwa [hlength]), List.getD_replicate _ hones,
      decide_eq_true (Or.inl hones)]
  · rw [List.getD_append_right _ _ _ _ (by omega), hlength]
    rcases Nat.lt_trichotomy (i - 5) zeros with hlt | heq | hgt
    · rw [List.getD_append _ _ _ _ (by simpa using hlt), List.getD_replicate _ hlt,
        decide_eq_false (by omega)]
    · rw [List.getD_append_right _ _ _ _ (by simp [heq]), List.length_replicate, heq,
        Nat.sub_self, decide_eq_true (by omega)]
      rfl
    · rw [List.getD_eq_default _ _ (by simp; omega), decide_eq_false (by omega)]

/-- The bits `1111` and the padding of a message of bytes. -/
theorem bitsOfBytes_padding {r : ℕ} (hr : 0 < r) (length : ℕ) :
    Fips202.bitsOfBytes (padding r (length % r)) =
      [true, true, true, true] ++ Fips202.pad10star1 (8 * r) (8 * length + 4) := by
  have hmod := Nat.mod_lt length hr
  rw [Fips202.pad10star1, padZeros_eq hr]
  generalize length % r = pos at hmod ⊢
  refine Fips202.string_ext (by simp; omega) fun i ↦ ?_
  rw [Fips202.getD_bitsOfBytes, getD_suffix]
  by_cases hi : i / 8 < r - pos
  · have hplace : i / 8 = i / 8 + pos - pos := by omega
    rw [hplace, getLsbD_padding (by omega) (by omega) (Nat.mod_lt _ (by decide))]
    by_cases hfirst : i < 5
    · rw [decide_eq_true (by omega), decide_eq_false (by omega), decide_eq_true (Or.inl hfirst)]
      rfl
    · rw [decide_eq_false (by omega), Bool.false_xor]
      congr 1
      apply propext
      omega
  · rw [List.getD_eq_default _ _ (by rw [length_padding]; omega), decide_eq_false (by omega)]
    exact BitVec.getLsbD_zero

/-- `keccak_finalize` adds the padding. -/
theorem keccakFinalize_eq {r pos : ℕ} (hwords : 8 ∣ r) (hpos : pos < r) (s : KeccakState) :
    keccakFinalize s pos r 0x1F = addBytes keccakOps s pos (padding r pos) := by
  have htop : ((1 : UInt64) <<< 63) =
      (0x80 : UInt8).toUInt64 <<< UInt64.ofNat (8 * ((r - 1) % 8)) := by
    have hlast : (r - 1) % 8 = 7 := by omega
    rw [hlast]
    decide
  have hword : r / 8 - 1 = (r - 1) / 8 := by omega
  refine state_ext fun k hk z hz ↦ ?_
  rw [keccakFinalize, hword, htop, getLsbD_xorByte _ _ _ hk hz, getLsbD_xorByte _ _ _ hk hz,
    getLsbD_addBytes _ _ _ hk hz, length_padding, Bool.xor_assoc]
  congr 1
  have hdomain : ∀ z < 8, (0x1F : UInt8).toBitVec.getLsbD z = decide (z < 5) := by decide
  have hfinal : ∀ z < 8, (0x80 : UInt8).toBitVec.getLsbD z = decide (z = 7) := by decide
  rw [hdomain _ (Nat.mod_lt _ (by decide)), hfinal _ (Nat.mod_lt _ (by decide)),
    ← Bool.decide_and, ← Bool.decide_and]
  by_cases hplace : pos ≤ 8 * k + z / 8 ∧ 8 * k + z / 8 < pos + (r - pos)
  · rw [getLsbD_padding hplace.1 (by omega) (Nat.mod_lt _ (by decide)), decide_eq_true hplace,
      Bool.true_and]
  · rw [decide_eq_false (by omega), decide_eq_false (by omega), decide_eq_false hplace,
      Bool.false_and]
    rfl

/-- Adding a block of bytes is adding its bits. -/
theorem stateBits_addBytes (s : KeccakState) {block : List UInt8} (hlength : block.length ≤ 200) :
    stateBits (addBytes keccakOps s 0 block) =
      Fips202.xorBlock (stateBits s) (Fips202.bitsOfBytes block) := by
  have hbits : (Fips202.bitsOfBytes block).length ≤ (stateBits s).length := by
    rw [Fips202.length_bitsOfBytes, length_stateBits]
    omega
  refine Fips202.string_ext (by rw [Fips202.length_xorBlock hbits]; simp) fun i ↦ ?_
  rw [Fips202.getD_xorBlock hbits, Fips202.getD_bitsOfBytes]
  by_cases hi : i < 1600
  · have hbyte : 8 * (i / 64) + i % 64 / 8 = i / 8 := by omega
    have hbit : i % 64 % 8 = i % 8 := by omega
    rw [getD_stateBits _ hi, getD_stateBits _ hi, getLsbD_addBytes _ _ _ (by omega) (by omega),
      hbyte, hbit, Nat.sub_zero, Nat.zero_add]
    by_cases hblock : i / 8 < block.length
    · simp [hblock]
    · rw [List.getD_eq_default block _ (by omega)]
      simp [hblock]
  · rw [List.getD_eq_default _ _ (by simp; omega), List.getD_eq_default _ _ (by simp; omega),
      List.getD_eq_default block _ (by omega)]
    simp

/-- The blocks of a padded message. -/
theorem absorb_bitsOfBytes {r : ℕ} (hr : r ≤ 200) (bytes : List UInt8) (count : ℕ) :
    Fips202.absorb Fips202.keccakP 1600 (8 * r) (Fips202.bitsOfBytes bytes) count =
      stateBits (Sponge.absorbBlocks keccakOps r (Vector.replicate 25 0) count bytes) := by
  induction count with
  | zero => exact stateBits_zero.symm
  | succ count ih =>
    have hblock : Fips202.blockAt (8 * r) (Fips202.bitsOfBytes bytes) count =
        Fips202.bitsOfBytes ((bytes.drop (r * count)).take r) := by
      have hstart : count * (8 * r) = 8 * (r * count) := by ring
      rw [Fips202.blockAt, hstart, Fips202.drop_bitsOfBytes, Fips202.take_bitsOfBytes]
    rw [Fips202.absorb] at ih ⊢
    rw [Sponge.absorbBlocks] at ih ⊢
    rw [List.range_succ, List.foldl_append, List.foldl_append, ih, List.foldl_cons,
      List.foldl_nil, List.foldl_cons, List.foldl_nil, hblock,
      ← stateBits_addBytes _ ((List.length_take_le _ _).trans hr), keccakP_stateBits,
      ← keccakF1600StatePermute_eq]
    rfl

/-- The bytes of the state are its bits. -/
theorem take_stateBits (s : KeccakState) {count : ℕ} (hcount : count ≤ 200) :
    (stateBits s).take (8 * count) =
      Fips202.bitsOfBytes ((List.range count).map (stateByte s)) := by
  refine Fips202.string_ext (by simp; omega) fun i ↦ ?_
  rw [Fips202.getD_bitsOfBytes]
  by_cases hi : i < 8 * count
  · have hbyte : ((List.range count).map (stateByte s)).getD (i / 8) 0 = stateByte s (i / 8) := by
      rw [List.getD_eq_getElem _ _ (by simp; omega), List.getElem_map, List.getElem_range]
    have hstored : (stateByte s (i / 8)).toBitVec.getLsbD (i % 8) =
        (s.getD (i / 8 / 8) 0).toBitVec.getLsbD (8 * (i / 8 % 8) + i % 8) :=
      getLsbD_storedByte_little _ (Nat.mod_lt _ (by decide)) (Nat.mod_lt _ (by decide))
    have hword : i / 8 / 8 = i / 64 := by omega
    have hbit : 8 * (i / 8 % 8) + i % 8 = i % 64 := by omega
    rw [hbyte, hstored, hword, hbit, ← getD_stateBits s (by omega), List.getD_eq_getElem?_getD,
      List.getElem?_take_of_lt hi, List.getD_eq_getElem?_getD]
  · rw [List.getD_eq_default _ _ (by simp; omega), List.getD_eq_default _ _ (by simp; omega)]
    exact BitVec.getLsbD_zero.symm

/-- The standard's squeezing delivers the bytes of the stream. -/
theorem squeeze_stateBits {r : ℕ} [NeZero (8 * r)] (hr : 0 < r) (hr' : r ≤ 200) (s : KeccakState)
    (block count : ℕ) :
    Fips202.squeeze Fips202.keccakP (8 * r) (stateBits (keccakOps.permute^[block + 1] s))
        (8 * count) =
      Fips202.bitsOfBytes ((List.range' (r * block) count).map (stream keccakOps r s)) := by
  have hfront : ∀ block, ∀ count ≤ r,
      (stateBits (keccakOps.permute^[block + 1] s)).take (8 * count) =
        Fips202.bitsOfBytes ((List.range' (r * block) count).map (stream keccakOps r s)) := by
    intro block count hcount
    have hfits : r * block % r + count ≤ r := by rwa [Nat.mul_mod_right, Nat.zero_add]
    have hbytes := map_stateByte s hfits
    rw [Nat.mul_mod_right, Nat.mul_div_cancel_left _ hr, ← List.range_eq_range'] at hbytes
    rw [take_stateBits _ (by omega), hbytes]
  induction count using Nat.strong_induction_on generalizing block with
  | _ count ih =>
    rw [Fips202.squeeze]
    split_ifs with hshort
    · exact hfront block count (by omega)
    · have hpermute : Fips202.keccakP (stateBits (keccakOps.permute^[block + 1] s)) =
          stateBits (keccakOps.permute^[block + 1 + 1] s) := by
        rw [keccakP_stateBits, ← keccakF1600StatePermute_eq,
          Function.iterate_succ_apply' keccakOps.permute (block + 1)]
        rfl
      have hrest : 8 * count - 8 * r = 8 * (count - r) := by omega
      have hnext := ih (count - r) (by omega) (block + 1)
      rw [hfront block r le_rfl, hpermute, hrest, hnext, ← Fips202.bitsOfBytes_append,
        ← List.map_append, Nat.mul_succ, List.range'_append_1, Nat.add_sub_cancel' (by omega)]

/-- The sponge of the standard delivers the stream of the finalized state. -/
theorem sponge_eq {r : ℕ} [NeZero (8 * r)] (hr : 0 < r) (hr' : r ≤ 200) (hwords : 8 ∣ r)
    (M : List UInt8) (count : ℕ) :
    Fips202.sponge Fips202.keccakP Fips202.pad10star1 1600 (8 * r)
        (Fips202.bitsOfBytes M ++ [true, true, true, true]) (8 * count) =
      Fips202.bitsOfBytes
        ((List.range count).map (stream keccakOps r (keccakAbsorbOnce r M 0x1F))) := by
  have hmod := Nat.mod_lt M.length hr
  have hdiv := Nat.div_add_mod M.length r
  set padded := M ++ padding r (M.length % r) with hpadded
  have hlength : padded.length = r * (M.length / r + 1) := by
    rw [hpadded, List.length_append, length_padding, Nat.mul_succ]
    omega
  have hstring : Fips202.bitsOfBytes M ++ [true, true, true, true] ++
      Fips202.pad10star1 (8 * r) (Fips202.bitsOfBytes M ++ [true, true, true, true]).length =
        Fips202.bitsOfBytes padded := by
    rw [hpadded, Fips202.bitsOfBytes_append, bitsOfBytes_padding hr, List.append_assoc,
      List.length_append, Fips202.length_bitsOfBytes]
    rfl
  have hblocks : (Fips202.bitsOfBytes padded).length / (8 * r) = M.length / r + 1 := by
    rw [Fips202.length_bitsOfBytes, hlength, ← Nat.mul_assoc, Nat.mul_div_cancel_left _ (by omega)]
  -- the padded message fills its blocks, so that its absorption ends with a permutation
  have hcount : padded.length / r = M.length / r + 1 := by
    rw [hlength, Nat.mul_div_cancel_left _ hr]
  have hstate : absorb keccakOps r (Vector.replicate 25 0, 0) padded =
      (Sponge.absorbBlocks keccakOps r (Vector.replicate 25 0) (M.length / r + 1) padded,
        0) := by
    rw [absorb_eq_blocks keccakOps hr, hcount, ← hlength, List.drop_length, hlength,
      Nat.mul_mod_right]
    rfl
  have hfinal : absorb keccakOps r (Vector.replicate 25 0, 0) padded =
      (keccakOps.permute (keccakAbsorbOnce r M 0x1F), 0) := by
    rw [hpadded, absorb_append, keccakAbsorbOnce_eq_finalize hr hwords]
    rw [absorb_eq_blocks keccakOps hr _ M,
      absorb_fill keccakOps _ hmod (by rw [length_padding]; omega), keccakFinalize_eq hwords hmod]
  have hsqueeze := squeeze_stateBits hr hr' (keccakAbsorbOnce r M 0x1F) 0 count
  rw [Nat.mul_zero, ← List.range_eq_range', Nat.zero_add, Function.iterate_one] at hsqueeze
  rw [Fips202.sponge, hstring, hblocks, absorb_bitsOfBytes hr', ← hsqueeze]
  rw [hstate] at hfinal
  rw [(Prod.mk.inj hfinal).1]

/-! ### The two functions -/

namespace Shake

variable (shake : Shake)

theorem rate_pos : 0 < shake.rate := by cases shake <;> decide

theorem rate_le : shake.rate ≤ 200 := by cases shake <;> decide

theorem dvd_rate : 8 ∣ shake.rate := by cases shake <;> decide

/-- The state after `n` bytes of output. -/
def delivered (s : KeccakState) (n : ℕ) : State :=
  { s := (squeezed keccakOps shake.rate s n).1, pos := (squeezed keccakOps shake.rate s n).2 }

/-- After whole pieces the state holds the absorption of all their bytes. -/
theorem foldl_absorb (pieces : List (List UInt8)) :
    pieces.foldl shake.absorb init =
      { s := (Sponge.absorb keccakOps shake.rate (init.s, init.pos) pieces.flatten).1,
        pos := (Sponge.absorb keccakOps shake.rate (init.s, init.pos) pieces.flatten).2 } := by
  induction pieces using List.reverseRecOn with
  | nil => rfl
  | append_singleton pieces piece ih =>
    have hpos : (Sponge.absorb keccakOps shake.rate (init.s, init.pos) pieces.flatten).2 <
        shake.rate := absorb_pos_lt keccakOps shake.rate_pos shake.rate_pos _
    rw [List.foldl_append, ih, List.foldl_cons, List.foldl_nil, List.flatten_append,
      absorb_append, List.flatten_singleton, Shake.absorb,
      keccakAbsorb_eq _ hpos (Nat.lt_succ_self _)]

/-- Absorbing in pieces and finalizing is absorbing at once. -/
theorem finalize_absorb (pieces : List (List UInt8)) :
    shake.finalize (pieces.foldl shake.absorb init) = shake.absorbOnce pieces.flatten := by
  rw [foldl_absorb, finalize, absorbOnce,
    keccakAbsorbOnce_eq_finalize shake.rate_pos shake.dvd_rate]
  rfl

theorem absorbOnce_eq_delivered (M : List UInt8) :
    shake.absorbOnce M = shake.delivered (shake.absorbOnce M).s 0 := rfl

theorem squeeze_delivered (s : KeccakState) (n outlen : ℕ) :
    shake.squeeze outlen (shake.delivered s n) =
      ((List.range' n outlen).map (Sponge.stream keccakOps shake.rate s),
        shake.delivered s (n + outlen)) := by
  rw [squeeze, delivered, keccakSqueeze_eq shake.rate_pos s n le_rfl]
  rfl

theorem squeezeblocks_delivered (s : KeccakState) {n : ℕ} (hblock : shake.rate ∣ n)
    (nblocks : ℕ) :
    shake.squeezeblocks nblocks (shake.delivered s n) =
      ((List.range' n (shake.rate * nblocks)).map (Sponge.stream keccakOps shake.rate s),
        shake.delivered s (n + shake.rate * nblocks)) := by
  obtain ⟨block, rfl⟩ := hblock
  rw [squeezeblocks, delivered, delivered, ← Nat.mul_add, squeezed_blocks keccakOps shake.rate_pos,
    squeezed_blocks keccakOps shake.rate_pos, keccakSqueezeblocks_eq shake.rate_pos shake.dvd_rate]

/-- Any calls deliver the stream, whatever they ask for at once. -/
theorem run_delivered (s : KeccakState) {n : ℕ} {calls : List Call}
    (haligned : shake.Aligned n calls) :
    shake.run calls (shake.delivered s n) =
      (List.range' n (calls.map (Call.length shake)).sum).map
        (Sponge.stream keccakOps shake.rate s) := by
  induction calls generalizing n with
  | nil => rfl
  | cons call calls ih =>
    rw [List.map_cons, List.sum_cons, ← List.range'_append_1, List.map_append]
    cases call with
    | squeeze outlen =>
      rw [run, squeeze_delivered]
      exact congrArg _ (ih haligned)
    | squeezeblocks nblocks =>
      rw [run, squeezeblocks_delivered shake s haligned.1]
      exact congrArg _ (ih haligned.2)

/-- The stream of a message is the output of the standard's function. -/
theorem standard_eq (M : List UInt8) (count : ℕ) :
    shake.standard (Fips202.bitsOfBytes M) (8 * count) =
      Fips202.bitsOfBytes ((List.range count).map (shake.stream M)) := by
  have hsponge : ∀ (_ : NeZero (8 * shake.rate)), Fips202.sponge Fips202.keccakP
      Fips202.pad10star1 1600 (8 * shake.rate)
      (Fips202.bitsOfBytes M ++ [true, true, true, true]) (8 * count) =
        Fips202.bitsOfBytes ((List.range count).map (shake.stream M)) :=
    fun _ ↦ sponge_eq shake.rate_pos shake.rate_le shake.dvd_rate M count
  cases shake with
  | shake128 => exact hsponge ⟨by decide⟩
  | shake256 => exact hsponge ⟨by decide⟩

/-- The one-call functions deliver the stream. -/
theorem hash_eq (outlen : ℕ) (M : List UInt8) :
    shake.hash outlen M = (List.range outlen).map (shake.stream M) := by
  have hle := Nat.div_mul_le_self outlen shake.rate
  rw [hash, absorbOnce_eq_delivered]
  dsimp only
  rw [squeezeblocks_delivered shake _ (dvd_zero _)]
  dsimp only
  rw [squeeze_delivered, ← List.map_append, List.range'_append_1, List.range_eq_range',
    Nat.mul_comm, Nat.add_sub_cancel' hle]
  rfl

/-- `dilithium_shake128_stream_init` and `dilithium_shake256_stream_init` set up the stream of the
seed and the nonce. -/
theorem streamInit_eq (seed : List UInt8) (nonce : UInt16) :
    shake.streamInit seed nonce = shake.absorbOnce (seed ++ nonceBytes nonce) := by
  have hpieces := finalize_absorb shake [seed, nonceBytes nonce]
  rwa [List.flatten_cons, List.flatten_singleton] at hpieces

/-- In any order and any sizes of calls, the output is the one of the standard. -/
theorem bitsOfBytes_run (pieces : List (List UInt8)) {calls : List Call}
    (haligned : shake.Aligned 0 calls) :
    Fips202.bitsOfBytes (shake.run calls (shake.finalize (pieces.foldl shake.absorb init))) =
      shake.standard (Fips202.bitsOfBytes pieces.flatten)
        (8 * (calls.map (Call.length shake)).sum) := by
  rw [finalize_absorb, absorbOnce_eq_delivered, run_delivered shake _ haligned, standard_eq,
    List.range_eq_range']
  rfl

theorem bitsOfBytes_run_pieces :
    Aligned shake128 0 [.squeezeblocks 1, .squeeze 5, .squeeze 0] ∧
      Fips202.bitsOfBytes (shake128.run [.squeezeblocks 1, .squeeze 5, .squeeze 0]
          (shake128.finalize ([[1], [2, 3]].foldl shake128.absorb init))) =
        shake128.standard (Fips202.bitsOfBytes [1, 2, 3]) (8 * 173) :=
  have haligned : Aligned shake128 0 [.squeezeblocks 1, .squeeze 5, .squeeze 0] :=
    ⟨dvd_zero _, trivial⟩
  ⟨haligned, bitsOfBytes_run shake128 [[1], [2, 3]] haligned⟩

/-- `shake128` and `shake256` are the functions of the standard. -/
theorem bitsOfBytes_hash (outlen : ℕ) (M : List UInt8) :
    Fips202.bitsOfBytes (shake.hash outlen M) =
      shake.standard (Fips202.bitsOfBytes M) (8 * outlen) := by
  rw [hash_eq, standard_eq]

end Shake

/-! ### The functions as the samplers use them -/

/-- The extendable output functions of `fips202.c`. -/
def shakeXof : Xof where
  shake128 := Shake.shake128.stream
  shake256 := Shake.shake256.stream

/-- The blocks the samplers read are the blocks `shake128_squeezeblocks` and
`shake256_squeezeblocks` write. -/
theorem squeezeblocks_streamInit (shake : Shake) (seed : List UInt8) (nonce : UInt16)
    (block nblocks : ℕ) :
    (shake.squeezeblocks nblocks
        (shake.squeezeblocks block (shake.streamInit seed nonce)).2).1 =
      EvMlDsa.squeezeblocks shake.rate (shake.stream (seed ++ nonceBytes nonce)) block nblocks := by
  rw [Shake.streamInit_eq, Shake.absorbOnce_eq_delivered,
    Shake.squeezeblocks_delivered shake _ (dvd_zero _)]
  dsimp only
  rw [Nat.zero_add, Shake.squeezeblocks_delivered shake _ (dvd_mul_right _ _)]
  rfl

/-- The hashes of keys and messages are calls of `shake256`. -/
theorem squeeze256_shakeXof (outlen : ℕ) (input : List UInt8) :
    (shakeXof.squeeze256 outlen input).toList = Shake.shake256.hash outlen input := by
  rw [Shake.hash_eq]
  refine List.ext_getElem (by simp) fun i hi hi' ↦ ?_
  have hbyte : (shakeXof.squeeze256 outlen input).toList[i] = Shake.shake256.stream input i := by
    rw [Vector.getElem_toList]
    exact Vector.getElem_ofFn _
  rw [hbyte, List.getElem_map, List.getElem_range]

end EvMlDsa.Ref
