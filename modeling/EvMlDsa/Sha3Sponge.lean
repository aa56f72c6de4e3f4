import EvMlDsa.KeccakRound

/-!
# `ev_sha3_256` is SHA3-256

The state of the code read as a string of 1600 bits (`stateBits`) goes through the same values as
the sponge of the standard: a block added byte by byte is the block of bits
(`stateBits_xorBytes`), the loop over full blocks is the absorption of the blocks before the last
(`absorbLoop_eq`), and the padded buffer is the last block of `M ‖ 01 ‖ 10*1`
(`bitsOfBytes_paddedBlock`). On a little-endian host the four stored words are the first 256 bits
of the state (`bitsOfBytes_storeDigest`). The main result is `evSha3_256_eq`.
-/

set_option autoImplicit false
set_option relaxedAutoImplicit false

namespace EvMlDsa

open Library.FixedArray Library

/-! ### The state as a bit string -/

/-- The 1600 bits of the state. -/
def stateBits (s : KeccakState) : List Bool := Fips202.toString (laneArray s)

@[simp] theorem length_stateBits (s : KeccakState) : (stateBits s).length = 1600 :=
  Fips202.length_toString _

theorem getD_stateBits (s : KeccakState) {i : ℕ} (hi : i < 1600) :
    (stateBits s).getD i false = (s.getD (i / 64) 0).toBitVec.getLsbD (i % 64) := by
  have hword : 5 * (Fin.ofNat 5 (i / 64 / 5)).val + (Fin.ofNat 5 (i / 64)).val = i / 64 := by
    simp only [Fin.val_ofNat]; omega
  rw [stateBits, Fips202.getD_toString _ hi, laneArray, hword]

/-- `keccakf` is `KECCAK-p[1600, 24]` on the string of the state. -/
theorem keccakP_stateBits (s : KeccakState) :
    Fips202.keccakP (stateBits s) = stateBits (keccakf s) := by
  rw [Fips202.keccakP, stateBits, Fips202.ofString_toString, stateBits, laneArray_keccakf]

theorem stateBits_zero : stateBits (Vector.replicate 25 0) = List.replicate 1600 false := by
  refine Fips202.string_ext (by rw [length_stateBits, List.length_replicate]) fun i ↦ ?_
  have hzero : (List.replicate 1600 false).getD i false = false := by
    rw [List.getD_eq_getElem?_getD, List.getElem?_getD_replicate_default_eq]
  rw [hzero]
  by_cases hi : i < 1600
  · rw [getD_stateBits _ hi, getD_eq_getElem _ _ (by omega), Vector.getElem_replicate]
    exact BitVec.getLsbD_zero
  · exact List.getD_eq_default _ _ (by rw [length_stateBits]; omega)

/-! ### Adding a block -/

/-- A byte shifted into place `m` of a word supplies the bits of that place. -/
theorem getLsbD_shiftedByte (b : UInt8) {m z : ℕ} (hm : m < 8) (hz : z < 64) :
    (b.toUInt64 <<< UInt64.ofNat (8 * m)).toBitVec.getLsbD z =
      (decide (z / 8 = m) && b.toBitVec.getLsbD (z % 8)) := by
  have hshift : ((UInt64.ofNat (8 * m)).toBitVec % 64).toNat = 8 * m := by
    simp; omega
  rw [UInt64.toBitVec_shiftLeft, BitVec.shiftLeft_eq', BitVec.getLsbD_shiftLeft, hshift,
    UInt8.toBitVec_toUInt64, BitVec.getLsbD_setWidth]
  by_cases hplace : z / 8 = m
  · have hbelow : ¬ z < 8 * m := by omega
    have hbit : z - 8 * m = z % 8 := by omega
    have hbit' : z % 8 < 64 := by omega
    simp [hplace, hbelow, hbit, hbit', hz]
  · rcases Nat.lt_or_ge z (8 * m) with hbelow | habove
    · simp [hplace, hbelow]
    · rw [BitVec.getLsbD_of_ge b.toBitVec (z - 8 * m) (by omega)]
      simp [hplace]

/-- Bit `z` of word `k` after the first `count` bytes of a block. -/
theorem getLsbD_xorBytes (st : KeccakState) (input : ℕ → UInt8) (count : ℕ) {k z : ℕ} (hk : k < 25)
    (hz : z < 64) :
    ((xorBytes st input count).getD k 0).toBitVec.getLsbD z =
      xor ((st.getD k 0).toBitVec.getLsbD z)
        (decide (8 * k + z / 8 < count) && (input (8 * k + z / 8)).toBitVec.getLsbD (z % 8)) := by
  unfold xorBytes
  induction count with
  | zero => simp
  | succ count ih =>
    rw [List.range_succ, List.foldl_append, List.foldl_cons, List.foldl_nil, getD_setIfInBounds]
    by_cases hword : count / 8 = k
    · rw [if_pos ⟨hword, hk⟩, hword, UInt64.toBitVec_xor, BitVec.getLsbD_xor, ih,
        getLsbD_shiftedByte _ (Nat.mod_lt _ (by decide)) hz]
      by_cases hbyte : z / 8 = count % 8
      · have hindex : 8 * k + z / 8 = count := by omega
        rw [hindex]
        simp [hbyte]
      · have hlt : 8 * k + z / 8 < count + 1 ↔ 8 * k + z / 8 < count := by omega
        simp [hbyte, hlt]
    · have hlt : 8 * k + z / 8 < count + 1 ↔ 8 * k + z / 8 < count := by omega
      rw [if_neg (fun h ↦ hword h.1), ih]
      simp only [hlt]

/-- Adding a block of bytes is adding its bits. -/
theorem stateBits_xorBytes (st : KeccakState) {block : List UInt8} {input : ℕ → UInt8}
    (hlength : block.length = rate) (hinput : ∀ i < rate, input i = block.getD i 0) :
    stateBits (xorBytes st input rate) =
      Fips202.xorBlock (stateBits st) (Fips202.bitsOfBytes block) := by
  have hbits : (Fips202.bitsOfBytes block).length ≤ (stateBits st).length := by
    rw [Fips202.length_bitsOfBytes, length_stateBits, hlength]
    decide
  refine Fips202.string_ext (by rw [Fips202.length_xorBlock hbits]; simp) fun i ↦ ?_
  rw [Fips202.getD_xorBlock hbits, Fips202.getD_bitsOfBytes]
  by_cases hi : i < 1600
  · have hbyte : 8 * (i / 64) + i % 64 / 8 = i / 8 := by omega
    have hbit : i % 64 % 8 = i % 8 := by omega
    rw [getD_stateBits _ hi, getD_stateBits _ hi, getLsbD_xorBytes _ _ _ (by omega) (by omega),
      hbyte, hbit]
    by_cases hblock : i / 8 < rate
    · rw [hinput _ hblock]
      simp [hblock]
    · rw [List.getD_eq_default block _ (by omega)]
      simp [hblock]
  · have hblock : block.length ≤ i / 8 := by rw [hlength]; unfold rate; omega
    rw [List.getD_eq_default _ _ (by simp; omega), List.getD_eq_default _ _ (by simp; omega),
      List.getD_eq_default _ _ hblock]
    simp

/-! ### Full blocks -/

/-- The loop over full blocks, with enough fuel, runs once for every full block of the input. -/
theorem absorbLoop_eq (fuel : ℕ) (st : KeccakState) (input : List UInt8)
    (hfuel : input.length / rate ≤ fuel) :
    absorbLoop fuel st input =
      ((List.range (input.length / rate)).foldl
        (fun st i ↦ keccakf (xorBytes st (fun k ↦ input.getD (rate * i + k) 0) rate)) st,
        input.drop (rate * (input.length / rate))) := by
  induction fuel generalizing st input with
  | zero =>
    rw [Nat.le_zero.mp hfuel]
    rfl
  | succ fuel ih =>
    rw [absorbLoop]
    split_ifs with hfull
    · have hcount : input.length / rate = (input.drop rate).length / rate + 1 := by
        rw [List.length_drop, ← Nat.div_eq_sub_div (by decide) hfull]
      have hread : ∀ i k, (input.drop rate).getD (rate * i + k) 0 =
          input.getD (rate * (i + 1) + k) 0 := fun i k ↦ by
        rw [List.getD_eq_getElem?_getD, List.getElem?_drop, List.getD_eq_getElem?_getD]
        congr 2
        ring
      rw [ih _ _ (by omega), hcount, List.range_succ_eq_map, List.foldl_cons, List.foldl_map]
      simp only [hread, List.drop_drop, mul_zero, zero_add, Nat.succ_eq_add_one, mul_add, mul_one,
        add_comm rate]
    · have hcount : input.length / rate = 0 := Nat.div_eq_of_lt (by omega)
      rw [hcount]
      rfl

/-! ### The last block -/

/-- The bytes of the padded buffer: the rest of the input, the domain byte, zeros, and the top bit
of the last byte. -/
theorem getD_paddedBlock {input : List UInt8} {k : ℕ}
    (hk : k < rate) :
    (paddedBlock input).getD k 0 =
      (if k = input.length then 0x06 else input.getD k 0) |||
        (if k = rate - 1 then 0x80 else 0) := by
  have hrate : rate = 136 := rfl
  have hcopied : (fillFrom 0 (fun i ↦ input.getD i 0) (Vector.replicate 136 0 : Vector UInt8 136)
      input.length).getD k 0 = input.getD k 0 := by
    have hcell := getD_fillFrom 0 (fun i ↦ input.getD i 0)
      (Vector.replicate 136 0 : Vector UInt8 136) input.length 0 (show 0 + k < 136 by omega)
    rw [zero_add] at hcell
    rw [hcell]
    split_ifs with hcopy
    · rfl
    · rw [List.getD_eq_default _ _ (by omega), getD_eq_getElem _ _ (by omega),
        Vector.getElem_replicate]
  have hmarked : ((fillFrom 0 (fun i ↦ input.getD i 0)
      (Vector.replicate 136 0 : Vector UInt8 136) input.length).setIfInBounds input.length
        0x06).getD k 0 = if k = input.length then 0x06 else input.getD k 0 := by
    have hcomm : input.length = k ∧ k < 136 ↔ k = input.length :=
      ⟨fun h ↦ h.1.symm, fun h ↦ ⟨h.symm, hk⟩⟩
    rw [getD_setIfInBounds, hcopied]
    simp only [hcomm]
  rw [paddedBlock, getD_setIfInBounds]
  by_cases hlast : k = rate - 1
  · subst hlast
    rw [if_pos ⟨rfl, hk⟩, hmarked, if_pos rfl]
  · rw [if_neg (fun h ↦ hlast h.1.symm), hmarked, if_neg hlast, UInt8.or_zero]

/-- The bits behind the message in its last block. -/
theorem getD_suffix (zeros i : ℕ) :
    (false :: true :: true :: (List.replicate zeros false ++ [true])).getD i false =
      decide (i = 1 ∨ i = 2 ∨ i = zeros + 3) := by
  rcases i with _ | _ | _ | i
  · simp
  · simp
  · simp
  · simp only [List.getD_cons_succ]
    rcases Nat.lt_trichotomy i zeros with hlt | rfl | hgt
    · rw [List.getD_append _ _ _ _ (by simpa using hlt), List.getD_replicate _ hlt]
      simp; omega
    · rw [List.getD_append_right _ _ _ _ (by simp)]
      simp
    · rw [List.getD_eq_default _ _ (by simp; omega)]
      simp; omega

/-- The padding of a message whose last block holds `rest` bytes. -/
theorem pad10star1_eq {length rest : ℕ} (hrest : length % rate = rest) :
    [false, true] ++ Fips202.pad10star1 1088 (8 * length + 2) =
      false :: true :: true :: (List.replicate (1084 - 8 * rest) false ++ [true]) := by
  have hzeros : ((-((8 * length + 2 : ℕ) : ℤ) - 2) % ((1088 : ℕ) : ℤ)).toNat = 1084 - 8 * rest := by
    unfold rate at hrest
    omega
  rw [Fips202.pad10star1, hzeros]
  rfl

theorem getLsbD_domainByte {b : ℕ} (hb : b < 8) :
    (0x06 : UInt8).toBitVec.getLsbD b = decide (b = 1 ∨ b = 2) := by
  interval_cases b <;> rfl

theorem getLsbD_finalByte {b : ℕ} (hb : b < 8) :
    (0x80 : UInt8).toBitVec.getLsbD b = decide (b = 7) := by
  interval_cases b <;> rfl

/-- The padded buffer is the last block of the padded message. -/
theorem bitsOfBytes_paddedBlock {input : List UInt8} {length : ℕ}
    (hinput : length % rate = input.length) :
    Fips202.bitsOfBytes (paddedBlock input).toList =
      Fips202.bitsOfBytes input ++ ([false, true] ++ Fips202.pad10star1 1088 (8 * length + 2)) := by
  have hlt : input.length < rate := hinput ▸ Nat.mod_lt _ (by decide)
  have hrate : rate = 136 := rfl
  rw [pad10star1_eq hinput]
  refine Fips202.string_ext (by simp; omega) fun i ↦ ?_
  rw [Fips202.getD_bitsOfBytes, getD_toList]
  by_cases hi : i < 1088
  · have hbound : i / 8 < rate := by omega
    have hbit : i % 8 < 8 := Nat.mod_lt _ (by decide)
    rw [getD_paddedBlock hbound, UInt8.toBitVec_or, BitVec.getLsbD_or]
    have hfinal : (if i / 8 = rate - 1 then (0x80 : UInt8) else 0).toBitVec.getLsbD (i % 8) =
        decide (i = 1087) := by
      split_ifs with hbyte
      · rw [getLsbD_finalByte hbit]
        congr 1
        apply propext
        omega
      · rw [decide_eq_false (by omega)]
        exact BitVec.getLsbD_zero
    rw [hfinal]
    by_cases hmessage : i < 8 * input.length
    · rw [if_neg (by omega), List.getD_append _ _ _ _ (by simpa using hmessage),
        Fips202.getD_bitsOfBytes, decide_eq_false (by omega), Bool.or_false]
    · rw [List.getD_append_right _ _ _ _ (by simp; omega), Fips202.length_bitsOfBytes, getD_suffix]
      by_cases hdomain : i / 8 = input.length
      · rw [if_pos hdomain, getLsbD_domainByte hbit, ← Bool.decide_or]
        congr 1
        apply propext
        omega
      · rw [if_neg hdomain, List.getD_eq_default input _ (by omega)]
        simp only [UInt8.toBitVec_ofNat, BitVec.getLsbD_zero, Bool.false_or]
        congr 1
        apply propext
        omega
  · rw [getD_of_size_le _ _ (by omega), List.getD_eq_default _ _ (by simp; omega)]
    exact BitVec.getLsbD_zero

/-! ### The digest -/

theorem getLsbD_storedByte_little (word : UInt64) {k b : ℕ} (hk : k < 8) (hb : b < 8) :
    (storedByte .little word k).toBitVec.getLsbD b = word.toBitVec.getLsbD (8 * k + b) := by
  have hshift : ((UInt64.ofNat (8 * k)).toBitVec % 64).toNat = 8 * k := by
    simp; omega
  simp only [storedByte, UInt64.toBitVec_toUInt8, BitVec.getLsbD_setWidth,
    UInt64.toBitVec_shiftRight, BitVec.ushiftRight_eq', BitVec.getLsbD_ushiftRight, hshift, hb,
    decide_true, Bool.true_and]

/-- On a little-endian host the digest is the first 256 bits of the state. -/
theorem bitsOfBytes_storeDigest (st : KeccakState) :
    Fips202.bitsOfBytes (storeDigest .little st).toList = (stateBits st).take 256 := by
  refine Fips202.string_ext (by simp) fun i ↦ ?_
  rw [Fips202.getD_bitsOfBytes, getD_toList]
  by_cases hi : i < 256
  · have hword : i / 8 / 8 = i / 64 := by omega
    have hbit : 8 * (i / 8 % 8) + i % 8 = i % 64 := by omega
    have htake : ((stateBits st).take 256).getD i false = (stateBits st).getD i false := by
      rw [List.getD_eq_getElem?_getD, List.getElem?_take_of_lt hi, List.getD_eq_getElem?_getD]
    rw [htake, getD_stateBits _ (by omega), getD_eq_getElem _ _ (by omega), storeDigest,
      Vector.getElem_ofFn, getLsbD_storedByte_little _ (by omega) (by omega), hword, hbit]
  · rw [getD_of_size_le _ _ (by omega), List.getD_eq_default _ _ (by simp; omega)]
    exact BitVec.getLsbD_zero

/-! ### The hash -/

/-- A message of `q` full blocks and a rest, padded, is the bits of its full blocks and of the
padded buffer. -/
theorem padded_eq (input : List UInt8) :
    Fips202.bitsOfBytes input ++ [false, true] ++
        Fips202.pad10star1 1088 (Fips202.bitsOfBytes input ++ [false, true]).length =
      Fips202.bitsOfBytes (input.take (rate * (input.length / rate)) ++
        (paddedBlock (input.drop (rate * (input.length / rate)))).toList) := by
  have hrest : input.length % rate = (input.drop (rate * (input.length / rate))).length := by
    rw [List.length_drop]
    have hdiv := Nat.div_add_mod input.length rate
    omega
  have hlength : (Fips202.bitsOfBytes input ++ [false, true]).length = 8 * input.length + 2 := by
    simp
  rw [hlength, Fips202.bitsOfBytes_append, bitsOfBytes_paddedBlock hrest, ← List.append_assoc,
    ← Fips202.bitsOfBytes_append, List.take_append_drop, List.append_assoc]

/-- Block `i` of a string of bytes. -/
theorem blockAt_bitsOfBytes (bytes : List UInt8) (i : ℕ) :
    Fips202.blockAt 1088 (Fips202.bitsOfBytes bytes) i =
      Fips202.bitsOfBytes ((bytes.drop (rate * i)).take rate) := by
  have hstart : i * 1088 = 8 * (rate * i) := by unfold rate; omega
  have hcount : 1088 = 8 * rate := rfl
  rw [Fips202.blockAt, hstart, Fips202.drop_bitsOfBytes, hcount, Fips202.take_bitsOfBytes]

/-- The full blocks of `bytes` absorbed one after the other. -/
theorem absorb_bitsOfBytes (bytes : List UInt8) {n : ℕ} (hn : rate * n ≤ bytes.length) :
    Fips202.absorb Fips202.keccakP 1600 1088 (Fips202.bitsOfBytes bytes) n =
      stateBits ((List.range n).foldl
        (fun st i ↦ keccakf (xorBytes st (fun k ↦ bytes.getD (rate * i + k) 0) rate))
        (Vector.replicate 25 0)) := by
  induction n with
  | zero => exact stateBits_zero.symm
  | succ n ih =>
    have hblock : ((bytes.drop (rate * n)).take rate).length = rate := by
      rw [List.length_take, List.length_drop]
      unfold rate at hn ⊢
      omega
    have hread : ∀ k < rate, bytes.getD (rate * n + k) 0 =
        ((bytes.drop (rate * n)).take rate).getD k 0 := fun k hk ↦ by
      rw [List.getD_eq_getElem?_getD, List.getD_eq_getElem?_getD, List.getElem?_take_of_lt hk,
        List.getElem?_drop]
    have hfront := ih (by unfold rate at hn ⊢; omega)
    rw [Fips202.absorb] at hfront ⊢
    rw [List.range_succ, List.foldl_append, List.foldl_append, hfront, List.foldl_cons,
      List.foldl_nil, List.foldl_cons, List.foldl_nil, blockAt_bitsOfBytes,
      ← stateBits_xorBytes _ hblock hread, keccakP_stateBits]

theorem xorBytes_congr (st : KeccakState) {input input' : ℕ → UInt8} {count : ℕ}
    (hinput : ∀ i < count, input i = input' i) :
    xorBytes st input count = xorBytes st input' count :=
  List.foldl_ext _ _ _ fun st i hi ↦ by rw [hinput i (List.mem_range.mp hi)]

/-- The state the code reads the digest from is the absorbed padded message. -/
theorem absorb_padded (M : List UInt8) :
    let absorbed := absorbLoop M.length (Vector.replicate 25 0) M
    let padded := M.take (rate * (M.length / rate)) ++ (paddedBlock absorbed.2).toList
    Fips202.absorb Fips202.keccakP 1600 1088 (Fips202.bitsOfBytes padded) (M.length / rate + 1) =
      stateBits (keccakf
        (xorBytes absorbed.1 (fun i ↦ (paddedBlock absorbed.2).getD i 0) rate)) := by
  intro absorbed padded
  have hfull : rate * (M.length / rate) ≤ M.length := Nat.mul_div_le _ _
  have htake : (M.take (rate * (M.length / rate))).length = rate * (M.length / rate) := by
    rw [List.length_take, min_eq_left hfull]
  have hpadded : padded.length = rate * (M.length / rate + 1) := by
    simp only [padded, List.length_append, htake, Vector.length_toList, mul_add, mul_one]
    rfl
  have hloop : absorbed.1 = (List.range (M.length / rate)).foldl
      (fun st i ↦ keccakf (xorBytes st (fun k ↦ padded.getD (rate * i + k) 0) rate))
      (Vector.replicate 25 0) := by
    simp only [absorbed]
    rw [absorbLoop_eq _ _ _ (Nat.div_le_self _ _)]
    refine List.foldl_ext _ _ _ fun st i hi ↦ congrArg keccakf (xorBytes_congr st fun k hk ↦ ?_)
    have hindex : rate * i + k < rate * (M.length / rate) := by
      have hblock : rate * (i + 1) ≤ rate * (M.length / rate) :=
        Nat.mul_le_mul_left _ (List.mem_range.mp hi)
      rw [mul_add] at hblock
      omega
    rw [List.getD_append _ _ _ _ (by rwa [htake]), List.getD_eq_getElem?_getD,
      List.getD_eq_getElem?_getD, List.getElem?_take_of_lt hindex]
  have hlast : ∀ i < rate, padded.getD (rate * (M.length / rate) + i) 0 =
      (paddedBlock absorbed.2).getD i 0 := fun i _ ↦ by
    rw [List.getD_append_right _ _ _ _ (by omega), htake, Nat.add_sub_cancel_left, getD_toList]
  rw [absorb_bitsOfBytes _ hpadded.ge, List.range_succ, List.foldl_append, ← hloop, List.foldl_cons,
    List.foldl_nil, xorBytes_congr _ hlast]

/-- The state the digest is read from. -/
def finalState (M : List UInt8) : KeccakState :=
  let absorbed := absorbLoop M.length (Vector.replicate 25 0) M
  let buf := paddedBlock absorbed.2
  keccakf (xorBytes absorbed.1 (fun i ↦ buf.getD i 0) rate)

theorem evSha3_256_eq_storeDigest (host : ByteOrder) (M : List UInt8) :
    evSha3_256 host M = storeDigest host (finalState M) := rfl

/-- SHA3-256 is the first 256 bits of that state. -/
theorem sha3_256_bitsOfBytes (M : List UInt8) :
    Fips202.sha3_256 (Fips202.bitsOfBytes M) = (stateBits (finalState M)).take 256 := by
  have habsorbed : (absorbLoop M.length (Vector.replicate 25 0) M).2 =
      M.drop (rate * (M.length / rate)) := by
    rw [absorbLoop_eq _ _ _ (Nat.div_le_self _ _)]
  have hstate := absorb_padded M
  simp only [habsorbed] at hstate
  simp only [finalState, habsorbed]
  rw [← hstate, Fips202.sha3_256, Fips202.keccak512, Fips202.sponge, padded_eq]
  have hblocks : (Fips202.bitsOfBytes (M.take (rate * (M.length / rate)) ++
      (paddedBlock (M.drop (rate * (M.length / rate)))).toList)).length / 1088 =
        M.length / rate + 1 := by
    have hfull : rate * (M.length / rate) ≤ M.length := Nat.mul_div_le _ _
    rw [Fips202.length_bitsOfBytes, List.length_append, List.length_take, min_eq_left hfull,
      Vector.length_toList]
    unfold rate
    omega
  simp only [hblocks]
  rw [Fips202.squeeze, if_pos (by decide)]

/-- `ev_sha3_256` on a little-endian host is SHA3-256. -/
theorem evSha3_256_eq (M : List UInt8) :
    Fips202.bitsOfBytes (evSha3_256 .little M).toList =
      Fips202.sha3_256 (Fips202.bitsOfBytes M) := by
  rw [evSha3_256_eq_storeDigest, bitsOfBytes_storeDigest, sha3_256_bitsOfBytes]

end EvMlDsa
