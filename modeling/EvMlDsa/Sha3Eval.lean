import EvMlDsa.Sha3Sponge

/-!
# Evaluating the hash

`keccakf` on lists of natural numbers (`permuteWords`), with the primitive operations of the kernel
on literals, so that a digest of a concrete message is computed in the kernel within seconds. Every
loop of the round has its counterpart here (`thetaWords_wordList`, `rhoPiWords_wordList`,
`chiWords_wordList`), and `wordList_keccakf` and `wordList_xorBytes` carry a whole digest over.
-/

set_option autoImplicit false
set_option relaxedAutoImplicit false

namespace EvMlDsa

open Library.FixedArray

/-! ### The round on words -/

/-- The words of a state as natural numbers. -/
def wordList (s : KeccakState) : List ℕ := (List.range 25).map fun k ↦ (s.getD k 0).toNat

/-- `ROL`. -/
def rolWord (x n : ℕ) : ℕ :=
  Nat.lor (Nat.mod (Nat.shiftLeft x n) 18446744073709551616) (Nat.shiftRight x (Nat.sub 64 n))

/-- The parity of a column. -/
def columnParityWord (a b c d e : ℕ) : ℕ := Nat.xor (Nat.xor (Nat.xor (Nat.xor a b) c) d) e

/-- The column step. -/
def thetaWords : List ℕ → List ℕ
  | [a, b, c, d, e,
     f, g, h, i, j,
     k, l, m, n, o,
     p, q, r, s, t,
     u, v, w, x, y] =>
    let bc0 := columnParityWord a f k p u
    let bc1 := columnParityWord b g l q v
    let bc2 := columnParityWord c h m r w
    let bc3 := columnParityWord d i n s x
    let bc4 := columnParityWord e j o t y
    let t0 := Nat.xor bc4 (rolWord bc1 1)
    let t1 := Nat.xor bc0 (rolWord bc2 1)
    let t2 := Nat.xor bc1 (rolWord bc3 1)
    let t3 := Nat.xor bc2 (rolWord bc4 1)
    let t4 := Nat.xor bc3 (rolWord bc0 1)
    [Nat.xor a t0, Nat.xor b t1, Nat.xor c t2, Nat.xor d t3, Nat.xor e t4,
     Nat.xor f t0, Nat.xor g t1, Nat.xor h t2, Nat.xor i t3, Nat.xor j t4,
     Nat.xor k t0, Nat.xor l t1, Nat.xor m t2, Nat.xor n t3, Nat.xor o t4,
     Nat.xor p t0, Nat.xor q t1, Nat.xor r t2, Nat.xor s t3, Nat.xor t t4,
     Nat.xor u t0, Nat.xor v t1, Nat.xor w t2, Nat.xor x t3, Nat.xor y t4]
  | s => s

/-- The third loop. -/
def rhoPiWords : List ℕ → List ℕ
  | [a, b, c, d, e,
     f, g, h, i, j,
     k, l, m, n, o,
     p, q, r, s, t,
     u, v, w, x, y] =>
    [a, rolWord g 44, rolWord m 43, rolWord s 21, rolWord y 14,
     rolWord d 28, rolWord j 20, rolWord k 3, rolWord q 45, rolWord w 61,
     rolWord b 1, rolWord h 6, rolWord n 25, rolWord t 8, rolWord u 18,
     rolWord e 27, rolWord f 36, rolWord l 10, rolWord r 15, rolWord x 56,
     rolWord c 62, rolWord i 55, rolWord o 39, rolWord p 41, rolWord v 2]
  | s => s

/-- `a ^ (~b & c)`. -/
def chiNat (a b c : ℕ) : ℕ := Nat.xor a (Nat.xor c (Nat.land b c))

/-- The row step, row by row. -/
def chiWords : List ℕ → List ℕ
  | a :: b :: c :: d :: e :: rest =>
    chiNat a b c :: chiNat b c d :: chiNat c d e :: chiNat d e a :: chiNat e a b :: chiWords rest
  | rest => rest

/-- The round constant. -/
def iotaWords (rc : ℕ) : List ℕ → List ℕ
  | a :: rest => Nat.xor a rc :: rest
  | [] => []

/-- The body of the round loop. -/
def roundWords (s : List ℕ) (rc : ℕ) : List ℕ := iotaWords rc (chiWords (rhoPiWords (thetaWords s)))

/-- `keccakf`. -/
def permuteWords (s : List ℕ) : List ℕ := (RC.map (·.toNat)).foldl roundWords s

/-! ### Agreement with the code -/

theorem toNat_rol (x : UInt64) {n : ℕ} (hpos : 0 < n) (hn : n < 64) :
    (rol x n).toNat = rolWord x.toNat n := by
  have hleft : (UInt64.ofNat n).toNat = n := UInt64.toNat_ofNat_of_lt' (show n < 2 ^ 64 by omega)
  have hright : (UInt64.ofNat (64 - n)).toNat = 64 - n :=
    UInt64.toNat_ofNat_of_lt' (show 64 - n < 2 ^ 64 by omega)
  rw [rol, UInt64.toNat_or, UInt64.toNat_shiftLeft, UInt64.toNat_shiftRight, hleft, hright,
    Nat.mod_eq_of_lt hn, Nat.mod_eq_of_lt (show 64 - n < 64 by omega)]
  rfl

theorem toNat_chi (a b c : UInt64) :
    (a ^^^ (~~~b &&& c)).toNat = chiNat a.toNat b.toNat c.toNat := by
  have hbits : ~~~b &&& c = c ^^^ (b &&& c) := by
    rw [← UInt64.toBitVec_inj]
    refine BitVec.eq_of_getLsbD_eq fun i hi ↦ ?_
    simp only [UInt64.toBitVec_and, UInt64.toBitVec_not, UInt64.toBitVec_xor, BitVec.getLsbD_and,
      BitVec.getLsbD_not, BitVec.getLsbD_xor, hi, decide_true, Bool.true_and]
    cases b.toBitVec.getLsbD i <;> cases c.toBitVec.getLsbD i <;> rfl
  rw [hbits, UInt64.toNat_xor, UInt64.toNat_xor, UInt64.toNat_and]
  rfl

theorem thetaWords_wordList (s : KeccakState) :
    thetaWords (wordList s) = wordList (thetaLoop (columnLoop s) s) := by
  let parity : ℕ → ℕ := fun i ↦ columnParityWord (s.getD i 0).toNat (s.getD (i + 5) 0).toNat
    (s.getD (i + 10) 0).toNat (s.getD (i + 15) 0).toNat (s.getD (i + 20) 0).toNat
  have hparity {i : ℕ} (hi : i < 5) : ((columnLoop s).getD i 0).toNat = parity i := by
    simp only [getD_columnLoop s hi, UInt64.toNat_xor]
    rfl
  have hword : ∀ k ∈ List.range 25, ((thetaLoop (columnLoop s) s).getD k 0).toNat =
      Nat.xor (s.getD k 0).toNat
        (Nat.xor (parity ((k % 5 + 4) % 5)) (rolWord (parity ((k % 5 + 1) % 5)) 1)) := by
    intro k hk
    rw [getD_thetaLoop _ _ (List.mem_range.mp hk), UInt64.toNat_xor, UInt64.toNat_xor,
      toNat_rol _ (by decide) (by decide), hparity (Nat.mod_lt _ (by decide)),
      hparity (Nat.mod_lt _ (by decide))]
    rfl
  rw [wordList.eq_1 (thetaLoop _ _), List.map_congr_left hword]
  rfl

theorem rhoPiWords_wordList (s : KeccakState) :
    rhoPiWords (wordList s) = wordList (rhoPiLoop s) := by
  obtain ⟨-, hvisited, hrest⟩ := rhoPiTurns s le_rfl
  have hturn : ∀ k < 25, k ≠ 0 → PI.idxOf k < 24 ∧ PI.getD (PI.idxOf k) 0 = k ∧
      0 < RHO.getD (PI.idxOf k) 0 ∧ RHO.getD (PI.idxOf k) 0 < 64 := by decide
  have hzero : ∀ i < 24, PI.getD i 0 ≠ 0 := by decide
  have hword : ∀ k ∈ List.range 25, ((rhoPiLoop s).getD k 0).toNat =
      if k = 0 then (s.getD 0 0).toNat
      else rolWord (s.getD (carriedFrom (PI.idxOf k)) 0).toNat (RHO.getD (PI.idxOf k) 0) := by
    intro k hk
    split_ifs with hk0
    · rw [hk0]
      exact congrArg UInt64.toNat (hrest 0 hzero)
    · obtain ⟨hi, htarget, hpos, hsmall⟩ := hturn k (List.mem_range.mp hk) hk0
      have hmoved := hvisited _ hi
      rw [htarget] at hmoved
      rw [← toNat_rol _ hpos hsmall]
      exact congrArg UInt64.toNat hmoved
  rw [wordList.eq_1 (rhoPiLoop s), List.map_congr_left hword]
  rfl

theorem chiWords_wordList (s : KeccakState) : chiWords (wordList s) = wordList (chiLoop s) := by
  have hword : ∀ k ∈ List.range 25, ((chiLoop s).getD k 0).toNat =
      chiNat (s.getD (5 * (k / 5) + k % 5) 0).toNat
        (s.getD (5 * (k / 5) + (k % 5 + 1) % 5) 0).toNat
        (s.getD (5 * (k / 5) + (k % 5 + 2) % 5) 0).toNat := by
    intro k hk
    have hk' := List.mem_range.mp hk
    have hvalue := getD_chiLoop s (show k / 5 < 5 by omega) (Nat.mod_lt k (show 5 > 0 by decide))
    rw [Nat.div_add_mod] at hvalue
    rw [hvalue, chiWord, toNat_chi]
  rw [wordList.eq_1 (chiLoop s), List.map_congr_left hword]
  rfl

theorem iotaWords_wordList (s : KeccakState) (rc : UInt64) :
    iotaWords rc.toNat (wordList s) = wordList (s.setIfInBounds 0 (s.getD 0 0 ^^^ rc)) := by
  have hword : ∀ k ∈ List.range 25, ((s.setIfInBounds 0 (s.getD 0 0 ^^^ rc)).getD k 0).toNat =
      if k = 0 then Nat.xor (s.getD 0 0).toNat rc.toNat else (s.getD k 0).toNat := by
    intro k hk
    rw [getD_setIfInBounds]
    by_cases hk0 : k = 0
    · rw [if_pos ⟨hk0.symm, List.mem_range.mp hk⟩, if_pos hk0, UInt64.toNat_xor]
      rfl
    · rw [if_neg (fun h ↦ hk0 h.1.symm), if_neg hk0]
  rw [wordList.eq_1 (Vector.setIfInBounds _ _ _), List.map_congr_left hword]
  rfl

theorem roundWords_wordList (s : KeccakState) (round : ℕ) :
    roundWords (wordList s) (RC.getD round 0).toNat = wordList (keccakRound s round) := by
  rw [roundWords, thetaWords_wordList, rhoPiWords_wordList, chiWords_wordList, iotaWords_wordList]
  rfl

theorem wordList_keccakf (s : KeccakState) : wordList (keccakf s) = permuteWords (wordList s) := by
  have hconstants :
      RC.map (·.toNat) = (List.range 24).map fun round ↦ (RC.getD round 0).toNat := rfl
  rw [keccakf, permuteWords, hconstants, List.foldl_map]
  exact (List.foldl_hom wordList fun s round ↦ roundWords_wordList s round).symm

/-! ### The sponge on words -/

/-- Absorbing a block adds its words. -/
theorem wordList_xorBytes (st : KeccakState) (input : ℕ → UInt8) (count : ℕ) :
    wordList (xorBytes st input count) = List.zipWith Nat.xor (wordList st)
      (wordList (xorBytes (Vector.replicate 25 0) input count)) := by
  have hword : ∀ k ∈ List.range 25, ((xorBytes st input count).getD k 0).toNat =
      Nat.xor (st.getD k 0).toNat
        ((xorBytes (Vector.replicate 25 0) input count).getD k 0).toNat := by
    intro k hk
    have hk' := List.mem_range.mp hk
    have hsum : (xorBytes st input count).getD k 0 =
        st.getD k 0 ^^^ (xorBytes (Vector.replicate 25 0) input count).getD k 0 := by
      rw [← UInt64.toBitVec_inj]
      refine BitVec.eq_of_getLsbD_eq fun z hz ↦ ?_
      rw [UInt64.toBitVec_xor, BitVec.getLsbD_xor, getLsbD_xorBytes st _ _ hk' hz,
        getLsbD_xorBytes _ _ _ hk' hz, getD_eq_getElem (Vector.replicate 25 0) 0 hk',
        Vector.getElem_replicate]
      simp
    rw [hsum, UInt64.toNat_xor]
    rfl
  rw [wordList.eq_1 (xorBytes st input count), List.map_congr_left hword]
  rfl

/-- The words of a block. -/
def blockWords (input : ℕ → UInt8) : List ℕ :=
  wordList (xorBytes (Vector.replicate 25 0) input rate)

theorem blockWords_congr {input input' : ℕ → UInt8} (hsame : ∀ k < rate, input k = input' k) :
    blockWords input = blockWords input' := by
  have hloop : xorBytes (Vector.replicate 25 0) input rate =
      xorBytes (Vector.replicate 25 0) input' rate := by
    refine List.foldl_ext _ _ _ fun st k hk ↦ ?_
    rw [hsame k (List.mem_range.mp hk)]
  rw [blockWords, blockWords, hloop]

/-- The words of the blocks of a message, the padded one last. -/
def messageBlocks (input : List UInt8) : List (List ℕ) :=
  let full := input.length / rate
  let buf := paddedBlock (input.drop (rate * full))
  ((List.range full).map fun i ↦ blockWords fun k ↦ input.getD (rate * i + k) 0) ++
    [blockWords fun k ↦ buf.getD k 0]

/-- The words of the state after the last block. -/
def absorbWords (blocks : List (List ℕ)) : List ℕ :=
  blocks.foldl (fun words block ↦ permuteWords (List.zipWith Nat.xor words block))
    (List.replicate 25 0)

theorem permuteWords_absorb (st : KeccakState) (input : ℕ → UInt8) :
    permuteWords (List.zipWith Nat.xor (wordList st) (blockWords input)) =
      wordList (keccakf (xorBytes st input rate)) := by
  rw [wordList_keccakf, wordList_xorBytes st, blockWords]

theorem headD_wordList (s : KeccakState) : (wordList s).headD 0 = (s.getD 0 0).toNat := rfl

/-- The words of the state the digest is read from. -/
theorem wordList_finalState (input : List UInt8) :
    wordList (finalState input) = absorbWords (messageBlocks input) := by
  have hzero : List.replicate 25 0 = wordList (Vector.replicate 25 0) := rfl
  have hfull (full : ℕ) : ((List.range full).map fun i ↦
      blockWords fun k ↦ input.getD (rate * i + k) 0).foldl
        (fun words block ↦ permuteWords (List.zipWith Nat.xor words block))
        (wordList (Vector.replicate 25 0)) =
      wordList ((List.range full).foldl
        (fun st i ↦ keccakf (xorBytes st (fun k ↦ input.getD (rate * i + k) 0) rate))
        (Vector.replicate 25 0)) := by
    induction full with
    | zero => rfl
    | succ full ih =>
      rw [List.range_succ, List.map_append, List.foldl_append, ih, List.foldl_append,
        List.map_singleton, List.foldl_cons, List.foldl_nil, permuteWords_absorb, List.foldl_cons,
        List.foldl_nil]
  rw [finalState, absorbLoop_eq _ _ _ (Nat.div_le_self _ _), absorbWords, messageBlocks,
    List.foldl_append, hzero, hfull, List.foldl_cons, List.foldl_nil, permuteWords_absorb]

/-! ### Digests -/

theorem getD_wordList (st : KeccakState) {k : ℕ} (hk : k < 25) :
    (wordList st).getD k 0 = (st.getD k 0).toNat := by
  have hmap : (wordList st)[k]? = some (st.getD k 0).toNat := by
    rw [wordList, List.getElem?_map, List.getElem?_range hk]
    rfl
  rw [List.getD_eq_getElem?_getD, hmap]
  rfl

/-- The bytes of the first words of a state, least significant first. -/
def digestBytes (words : List ℕ) : List UInt8 :=
  (List.range 32).map fun i ↦ UInt8.ofNat (words.getD (i / 8) 0 >>> (8 * (i % 8)))

theorem storedByte_little (word : UInt64) {j : ℕ} (hj : j < 8) :
    storedByte .little word j = UInt8.ofNat (word.toNat >>> (8 * j)) := by
  have hshift : (UInt64.ofNat (8 * j)).toNat = 8 * j :=
    UInt64.toNat_ofNat_of_lt' (show 8 * j < 2 ^ 64 by omega)
  refine UInt8.toNat_inj.mp ?_
  rw [storedByte, UInt64.toNat_toUInt8, UInt64.toNat_shiftRight, hshift,
    Nat.mod_eq_of_lt (show 8 * j < 64 by omega), UInt8.toNat_ofNat']

theorem toList_storeDigest (st : KeccakState) :
    (storeDigest .little st).toList = digestBytes (wordList st) := by
  have hbyte {i : ℕ} (hi : i < 32) :
      (storeDigest .little st).toList[i]? = (digestBytes (wordList st))[i]? := by
    rw [digestBytes, List.getElem?_map, List.getElem?_range hi, Option.map_some,
      getD_wordList _ (by omega), ← storedByte_little _ (Nat.mod_lt _ (by decide)),
      Vector.getElem?_toList, storeDigest, Vector.getElem?_ofFn, dif_pos hi]
  refine List.ext_getElem? fun i ↦ ?_
  by_cases hi : i < 32
  · exact hbyte hi
  · rw [List.getElem?_eq_none, List.getElem?_eq_none]
    · rw [digestBytes, List.length_map, List.length_range]
      omega
    · rw [Vector.length_toList]
      omega

/-- A digest on a little-endian host is read from the first four words. -/
theorem toList_evSha3_256 {input : List UInt8} {words : List ℕ}
    (hwords : (wordList (finalState input)).take 4 = words) :
    (evSha3_256 .little input).toList = digestBytes words := by
  rw [evSha3_256_eq_storeDigest, toList_storeDigest, digestBytes, digestBytes]
  refine List.map_congr_left fun i hi ↦ ?_
  have hi' : i / 8 < 4 := by
    rw [List.mem_range] at hi
    omega
  rw [← hwords, List.getD_eq_getElem?_getD, List.getD_eq_getElem?_getD,
    List.getElem?_take_of_lt hi']

/-- A digest is not the zero block if the first byte of its first word is not. -/
theorem evSha3_256_ne_zero {input : List UInt8} {word : UInt64}
    (hword : ((finalState input).getD 0 0).toNat = word.toNat)
    (hbyte : storedByte .little word 0 ≠ 0) : evSha3_256 .little input ≠ 0 := by
  intro hzero
  rw [evSha3_256_eq_storeDigest] at hzero
  have hfirst := congrArg (fun digest : Block ↦ digest[0]) hzero
  simp only [storeDigest, Vector.getElem_ofFn] at hfirst
  rw [← UInt64.toNat_inj.mp hword] at hbyte
  exact hbyte hfirst

end EvMlDsa
