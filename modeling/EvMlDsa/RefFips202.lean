import EvMlDsa.Sha3Eval

/-!
# The vendored SHA3-256

The part of the Dilithium reference `fips202.c` that computes SHA3-256: a permutation that holds
its 25 lanes in named variables and does two rounds in every turn of its loop, and a sponge that
adds full blocks word by word and the rest and the padding byte by byte.

The permutation is the one of the standalone implementation (`keccakF1600StatePermute_eq`): a half
turn is one round, compared word by word over the natural numbers. `keccakAbsorbOnce_eq` compares
the states before the last permutation bit by bit, and `evSha3_256_eq_sha3_256` is the agreement of
the two hashes on a little-endian host.
-/

set_option autoImplicit false
set_option relaxedAutoImplicit false

namespace EvMlDsa.Ref

open Library.FixedArray

/-! ### The permutation -/

/-- `ROL`. -/
def rol (a : UInt64) (offset : ℕ) : UInt64 :=
  (a <<< UInt64.ofNat offset) ^^^ (a >>> UInt64.ofNat (64 - offset))

/-- `KeccakF_RoundConstants`. -/
def keccakFRoundConstants : List UInt64 :=
  [0x0000000000000001, 0x0000000000008082, 0x800000000000808a, 0x8000000080008000,
   0x000000000000808b, 0x0000000080000001, 0x8000000080008081, 0x8000000000008009,
   0x000000000000008a, 0x0000000000000088, 0x0000000080008009, 0x000000008000000a,
   0x000000008000808b, 0x800000000000008b, 0x8000000000008089, 0x8000000000008003,
   0x8000000000008002, 0x8000000000000080, 0x000000000000800a, 0x800000008000000a,
   0x8000000080008081, 0x8000000000008080, 0x0000000080000001, 0x8000000080008008]

/-- The variables `Aba .. Asu`, and `Eba .. Esu`. -/
structure Lanes where
  (ba be bi bo bu : UInt64)
  (ga ge gi go gu : UInt64)
  (ka ke ki ko ku : UInt64)
  (ma me mi mo mu : UInt64)
  (sa se si so su : UInt64)

/-- The first half of a turn, from the `A` lanes to the `E` lanes. The second half is the same text
with the two sets of lanes exchanged, and writes every `A` lane. -/
def thetaRhoPiChiIota (round : ℕ) (A : Lanes) : Lanes :=
  let BCa := A.ba ^^^ A.ga ^^^ A.ka ^^^ A.ma ^^^ A.sa
  let BCe := A.be ^^^ A.ge ^^^ A.ke ^^^ A.me ^^^ A.se
  let BCi := A.bi ^^^ A.gi ^^^ A.ki ^^^ A.mi ^^^ A.si
  let BCo := A.bo ^^^ A.go ^^^ A.ko ^^^ A.mo ^^^ A.so
  let BCu := A.bu ^^^ A.gu ^^^ A.ku ^^^ A.mu ^^^ A.su
  let Da := BCu ^^^ rol BCe 1
  let De := BCa ^^^ rol BCi 1
  let Di := BCe ^^^ rol BCo 1
  let Do := BCi ^^^ rol BCu 1
  let Du := BCo ^^^ rol BCa 1
  let Aba := A.ba ^^^ Da
  let BCa := Aba
  let Age := A.ge ^^^ De
  let BCe := rol Age 44
  let Aki := A.ki ^^^ Di
  let BCi := rol Aki 43
  let Amo := A.mo ^^^ Do
  let BCo := rol Amo 21
  let Asu := A.su ^^^ Du
  let BCu := rol Asu 14
  let Eba := BCa ^^^ (~~~BCe &&& BCi)
  let Eba := Eba ^^^ keccakFRoundConstants.getD round 0
  let Ebe := BCe ^^^ (~~~BCi &&& BCo)
  let Ebi := BCi ^^^ (~~~BCo &&& BCu)
  let Ebo := BCo ^^^ (~~~BCu &&& BCa)
  let Ebu := BCu ^^^ (~~~BCa &&& BCe)
  let Abo := A.bo ^^^ Do
  let BCa := rol Abo 28
  let Agu := A.gu ^^^ Du
  let BCe := rol Agu 20
  let Aka := A.ka ^^^ Da
  let BCi := rol Aka 3
  let Ame := A.me ^^^ De
  let BCo := rol Ame 45
  let Asi := A.si ^^^ Di
  let BCu := rol Asi 61
  let Ega := BCa ^^^ (~~~BCe &&& BCi)
  let Ege := BCe ^^^ (~~~BCi &&& BCo)
  let Egi := BCi ^^^ (~~~BCo &&& BCu)
  let Ego := BCo ^^^ (~~~BCu &&& BCa)
  let Egu := BCu ^^^ (~~~BCa &&& BCe)
  let Abe := A.be ^^^ De
  let BCa := rol Abe 1
  let Agi := A.gi ^^^ Di
  let BCe := rol Agi 6
  let Ako := A.ko ^^^ Do
  let BCi := rol Ako 25
  let Amu := A.mu ^^^ Du
  let BCo := rol Amu 8
  let Asa := A.sa ^^^ Da
  let BCu := rol Asa 18
  let Eka := BCa ^^^ (~~~BCe &&& BCi)
  let Eke := BCe ^^^ (~~~BCi &&& BCo)
  let Eki := BCi ^^^ (~~~BCo &&& BCu)
  let Eko := BCo ^^^ (~~~BCu &&& BCa)
  let Eku := BCu ^^^ (~~~BCa &&& BCe)
  let Abu := A.bu ^^^ Du
  let BCa := rol Abu 27
  let Aga := A.ga ^^^ Da
  let BCe := rol Aga 36
  let Ake := A.ke ^^^ De
  let BCi := rol Ake 10
  let Ami := A.mi ^^^ Di
  let BCo := rol Ami 15
  let Aso := A.so ^^^ Do
  let BCu := rol Aso 56
  let Ema := BCa ^^^ (~~~BCe &&& BCi)
  let Eme := BCe ^^^ (~~~BCi &&& BCo)
  let Emi := BCi ^^^ (~~~BCo &&& BCu)
  let Emo := BCo ^^^ (~~~BCu &&& BCa)
  let Emu := BCu ^^^ (~~~BCa &&& BCe)
  let Abi := A.bi ^^^ Di
  let BCa := rol Abi 62
  let Ago := A.go ^^^ Do
  let BCe := rol Ago 55
  let Aku := A.ku ^^^ Du
  let BCi := rol Aku 39
  let Ama := A.ma ^^^ Da
  let BCo := rol Ama 41
  let Ase := A.se ^^^ De
  let BCu := rol Ase 2
  let Esa := BCa ^^^ (~~~BCe &&& BCi)
  let Ese := BCe ^^^ (~~~BCi &&& BCo)
  let Esi := BCi ^^^ (~~~BCo &&& BCu)
  let Eso := BCo ^^^ (~~~BCu &&& BCa)
  let Esu := BCu ^^^ (~~~BCa &&& BCe)
  ⟨Eba, Ebe, Ebi, Ebo, Ebu,
   Ega, Ege, Egi, Ego, Egu,
   Eka, Eke, Eki, Eko, Eku,
   Ema, Eme, Emi, Emo, Emu,
   Esa, Ese, Esi, Eso, Esu⟩

/-- `copyFromState`. -/
def copyFromState (state : KeccakState) : Lanes :=
  ⟨state.getD 0 0, state.getD 1 0, state.getD 2 0, state.getD 3 0, state.getD 4 0,
   state.getD 5 0, state.getD 6 0, state.getD 7 0, state.getD 8 0, state.getD 9 0,
   state.getD 10 0, state.getD 11 0, state.getD 12 0, state.getD 13 0, state.getD 14 0,
   state.getD 15 0, state.getD 16 0, state.getD 17 0, state.getD 18 0, state.getD 19 0,
   state.getD 20 0, state.getD 21 0, state.getD 22 0, state.getD 23 0, state.getD 24 0⟩

/-- `copyToState`. -/
def copyToState (A : Lanes) : KeccakState :=
  #v[A.ba, A.be, A.bi, A.bo, A.bu,
     A.ga, A.ge, A.gi, A.go, A.gu,
     A.ka, A.ke, A.ki, A.ko, A.ku,
     A.ma, A.me, A.mi, A.mo, A.mu,
     A.sa, A.se, A.si, A.so, A.su]

/-- `KeccakF1600_StatePermute`. -/
def keccakF1600StatePermute (state : KeccakState) : KeccakState :=
  copyToState ((List.range' 0 12 2).foldl
    (fun A round ↦ thetaRhoPiChiIota (round + 1) (thetaRhoPiChiIota round A))
    (copyFromState state))

/-! ### One round -/

/-- The two parts of a rotation have no bit in common. -/
theorem rol_eq (a : UInt64) {offset : ℕ} (hpos : 0 < offset) (hoffset : offset < 64) :
    rol a offset = EvMlDsa.rol a offset := by
  have hleft : ((UInt64.ofNat offset).toBitVec % 64).toNat = offset := by
    simp; omega
  have hright : ((UInt64.ofNat (64 - offset)).toBitVec % 64).toNat = 64 - offset := by
    simp; omega
  rw [rol, EvMlDsa.rol, ← UInt64.toBitVec_inj]
  refine BitVec.eq_of_getLsbD_eq fun i hi ↦ ?_
  simp only [UInt64.toBitVec_xor, UInt64.toBitVec_or, UInt64.toBitVec_shiftLeft,
    UInt64.toBitVec_shiftRight, BitVec.shiftLeft_eq', BitVec.ushiftRight_eq', BitVec.getLsbD_xor,
    BitVec.getLsbD_or, BitVec.getLsbD_shiftLeft, BitVec.getLsbD_ushiftRight, hleft, hright]
  rcases Nat.lt_or_ge i offset with hlow | hhigh
  · simp [hlow]
  · rw [BitVec.getLsbD_of_ge a.toBitVec (64 - offset + i) (by omega), Bool.xor_false,
      Bool.or_false]

theorem wordList_copyToState (A : Lanes) :
    wordList (copyToState A) =
    [A.ba.toNat, A.be.toNat, A.bi.toNat, A.bo.toNat, A.bu.toNat,
      A.ga.toNat, A.ge.toNat, A.gi.toNat, A.go.toNat, A.gu.toNat,
      A.ka.toNat, A.ke.toNat, A.ki.toNat, A.ko.toNat, A.ku.toNat,
      A.ma.toNat, A.me.toNat, A.mi.toNat, A.mo.toNat, A.mu.toNat,
      A.sa.toNat, A.se.toNat, A.si.toNat, A.so.toNat, A.su.toNat] :=
  rfl

/-- A half turn is one round of the standalone permutation. -/
theorem wordList_thetaRhoPiChiIota (round : ℕ) (A : Lanes) :
    wordList (copyToState (thetaRhoPiChiIota round A)) =
      roundWords (wordList (copyToState A)) (RC.getD round 0).toNat := by
  rw [wordList_copyToState, wordList_copyToState]
  unfold thetaRhoPiChiIota
  simp (disch := decide) only [rol_eq]
  simp (disch := decide) only [↓toNat_chi, UInt64.toNat_xor, toNat_rol]
  rfl

theorem wordList_injective {s t : KeccakState} (h : wordList s = wordList t) : s = t := by
  refine Vector.ext fun k hk ↦ ?_
  have hword := congrArg (List.getD · k 0) h
  simp only [wordList, List.getD_eq_getElem?_getD, List.getElem?_map, List.getElem?_range hk,
    Option.map_some, Option.getD_some, getD_eq_getElem _ _ hk] at hword
  exact UInt64.toNat_inj.mp hword

theorem copyToState_thetaRhoPiChiIota (round : ℕ) (A : Lanes) :
    copyToState (thetaRhoPiChiIota round A) = keccakRound (copyToState A) round :=
  wordList_injective (by rw [wordList_thetaRhoPiChiIota, roundWords_wordList])

theorem copyToState_copyFromState (state : KeccakState) :
    copyToState (copyFromState state) = state :=
  wordList_injective (by rw [wordList_copyToState]; rfl)

/-- Two steps in every turn of a loop. -/
theorem foldl_range'_two {State : Type*} (step : State → ℕ → State) (start : State) (turns : ℕ) :
    (List.range' 0 turns 2).foldl (fun state i ↦ step (step state i) (i + 1)) start =
      (List.range (2 * turns)).foldl step start := by
  induction turns with
  | zero => rfl
  | succ turns ih =>
    have htwice : 2 * (turns + 1) = 2 * turns + 1 + 1 := by ring
    rw [List.range'_concat, List.foldl_append, ih, htwice, List.range_succ, List.range_succ,
      List.foldl_append, List.foldl_append, Nat.zero_add]
    rfl

/-- The two permutations agree on every state. -/
theorem keccakF1600StatePermute_eq (state : KeccakState) :
    keccakF1600StatePermute state = keccakf state := by
  have hturn : ∀ A round, copyToState (thetaRhoPiChiIota (round + 1) (thetaRhoPiChiIota round A)) =
      keccakRound (keccakRound (copyToState A) round) (round + 1) := by
    intro A round
    rw [copyToState_thetaRhoPiChiIota, copyToState_thetaRhoPiChiIota]
  have hloop : (List.range' 0 12 2).foldl
      (fun s round ↦ keccakRound (keccakRound s round) (round + 1))
        (copyToState (copyFromState state)) = keccakF1600StatePermute state :=
    List.foldl_hom copyToState fun A round ↦ (hturn A round).symm
  rw [← hloop, copyToState_copyFromState, foldl_range'_two]
  rfl

/-! ### The sponge -/

/-- `load64` of the bytes read through `x`. -/
def load64 (x : ℕ → UInt8) : UInt64 :=
  (List.range 8).foldl (fun r i ↦ r ||| ((x i).toUInt64 <<< UInt64.ofNat (8 * i))) 0

/-- Byte `i` of `store64`. -/
def store64 (u : UInt64) (i : ℕ) : UInt8 := (u >>> UInt64.ofNat (8 * i)).toUInt8

/-- The loop `for (i = 0; i < r / 8; i++) s[i] ^= load64(in + 8 * i)`. -/
def xorWords (s : KeccakState) (r : ℕ) (input : ℕ → UInt8) : KeccakState :=
  (List.range (r / 8)).foldl (fun s i ↦
    s.setIfInBounds i (s.getD i 0 ^^^ load64 fun j ↦ input (8 * i + j))) s

/-- The loop over full blocks, with what is left of the input; `fuel` bounds the number of
turns. -/
def absorbBlocks (r : ℕ) : (fuel : ℕ) → KeccakState → List UInt8 → KeccakState × List UInt8
  | 0, s, input => (s, input)
  | fuel + 1, s, input =>
    if r ≤ input.length then
      absorbBlocks r fuel (keccakF1600StatePermute (xorWords s r fun i ↦ input.getD i 0))
        (input.drop r)
    else (s, input)

/-- `keccak_absorb_once`. -/
def keccakAbsorbOnce (r : ℕ) (input : List UInt8) (p : UInt8) : KeccakState :=
  let (s, input) := absorbBlocks r input.length (Vector.replicate 25 0) input
  let s := (List.range input.length).foldl (fun s i ↦ s.setIfInBounds (i / 8)
    (s.getD (i / 8) 0 ^^^ ((input.getD i 0).toUInt64 <<< UInt64.ofNat (8 * (i % 8))))) s
  let i := input.length
  let s := s.setIfInBounds (i / 8)
    (s.getD (i / 8) 0 ^^^ (p.toUInt64 <<< UInt64.ofNat (8 * (i % 8))))
  s.setIfInBounds ((r - 1) / 8) (s.getD ((r - 1) / 8) 0 ^^^ ((1 : UInt64) <<< 63))

/-- `SHA3_256_RATE`. -/
def sha3_256Rate : ℕ := 136

/-- `sha3_256`. -/
def sha3_256 (input : List UInt8) : Block :=
  let s := keccakF1600StatePermute (keccakAbsorbOnce sha3_256Rate input 0x06)
  Vector.ofFn fun k ↦ store64 (s.getD (k.val / 8) 0) (k.val % 8)

/-! ### The states of the two sponges -/

/-- Bit `z` of a loaded word. -/
theorem getLsbD_load64 (x : ℕ → UInt8) {z : ℕ} (hz : z < 64) :
    (load64 x).toBitVec.getLsbD z = (x (z / 8)).toBitVec.getLsbD (z % 8) := by
  have hbytes : ∀ n ≤ 8, ((List.range n).foldl
      (fun r i ↦ r ||| ((x i).toUInt64 <<< UInt64.ofNat (8 * i))) (0 : UInt64)).toBitVec.getLsbD z =
        (decide (z / 8 < n) && (x (z / 8)).toBitVec.getLsbD (z % 8)) := by
    intro n hn
    induction n with
    | zero => simp
    | succ n ih =>
      rw [List.range_succ, List.foldl_append, List.foldl_cons, List.foldl_nil, UInt64.toBitVec_or,
        BitVec.getLsbD_or, ih (by omega), getLsbD_shiftedByte _ (by omega) hz]
      by_cases hplace : z / 8 = n
      · simp [hplace]
      · have hlt : z / 8 < n + 1 ↔ z / 8 < n := by omega
        simp [hplace, hlt]
  have hall := hbytes 8 le_rfl
  rwa [decide_eq_true (by omega : z / 8 < 8), Bool.true_and] at hall

/-- States are compared bit by bit. -/
theorem state_ext {s t : KeccakState}
    (h : ∀ k < 25, ∀ z < 64, (s.getD k 0).toBitVec.getLsbD z = (t.getD k 0).toBitVec.getLsbD z) :
    s = t := by
  refine Vector.ext fun k hk ↦ ?_
  rw [← UInt64.toBitVec_inj]
  refine BitVec.eq_of_getLsbD_eq fun z hz ↦ ?_
  have hbit := h k hk z hz
  rwa [getD_eq_getElem _ _ hk, getD_eq_getElem _ _ hk] at hbit

theorem getD_xorWords (s : KeccakState) (r : ℕ) (input : ℕ → UInt8) {k : ℕ} (hk : k < 25) :
    (xorWords s r input).getD k 0 =
      if k < r / 8 then s.getD k 0 ^^^ load64 fun j ↦ input (8 * k + j) else s.getD k 0 := by
  unfold xorWords
  induction r / 8 with
  | zero => simp
  | succ n ih =>
    rw [List.range_succ, List.foldl_append, List.foldl_cons, List.foldl_nil, getD_setIfInBounds, ih]
    by_cases hword : n = k
    · subst hword
      rw [if_pos ⟨rfl, hk⟩, ih, if_neg (lt_irrefl n), if_pos (Nat.lt_succ_self n)]
    · have hlt : k < n + 1 ↔ k < n := by omega
      rw [if_neg (fun h ↦ hword h.1)]
      simp only [hlt]

/-- Adding a block by words is adding it by bytes. -/
theorem xorWords_eq (s : KeccakState) (input : ℕ → UInt8) :
    xorWords s sha3_256Rate input = xorBytes s input rate := by
  refine state_ext fun k hk z hz ↦ ?_
  have hfull : k < sha3_256Rate / 8 ↔ 8 * k + z / 8 < rate := by
    unfold sha3_256Rate rate
    omega
  rw [getD_xorWords s _ input hk, getLsbD_xorBytes s input rate hk hz]
  simp only [hfull]
  split_ifs with hbelow
  · rw [UInt64.toBitVec_xor, BitVec.getLsbD_xor, getLsbD_load64 _ hz]
    simp [hbelow]
  · simp [hbelow]

theorem absorbBlocks_eq (fuel : ℕ) (s : KeccakState) (input : List UInt8) :
    absorbBlocks sha3_256Rate fuel s input = absorbLoop fuel s input := by
  induction fuel generalizing s input with
  | zero => rfl
  | succ fuel ih =>
    rw [absorbBlocks, absorbLoop, xorWords_eq, keccakF1600StatePermute_eq, ih]
    rfl

/-- Bit `z` of word `k` after one byte is added at a place of the block. -/
theorem getLsbD_xorByte (s : KeccakState) (b : UInt8) (i : ℕ) {k z : ℕ} (hk : k < 25)
    (hz : z < 64) :
    ((s.setIfInBounds (i / 8)
        (s.getD (i / 8) 0 ^^^ (b.toUInt64 <<< UInt64.ofNat (8 * (i % 8))))).getD k
          0).toBitVec.getLsbD z =
      xor ((s.getD k 0).toBitVec.getLsbD z)
        (decide (8 * k + z / 8 = i) && b.toBitVec.getLsbD (z % 8)) := by
  rw [getD_setIfInBounds]
  by_cases hword : i / 8 = k
  · have hplace : 8 * k + z / 8 = i ↔ z / 8 = i % 8 := by omega
    rw [if_pos ⟨hword, hk⟩, hword, UInt64.toBitVec_xor, BitVec.getLsbD_xor,
      getLsbD_shiftedByte _ (Nat.mod_lt _ (by decide)) hz]
    simp only [hplace]
  · have hplace : ¬ 8 * k + z / 8 = i := by omega
    rw [if_neg (fun h ↦ hword h.1)]
    simp [hplace]

/-- What is added for the last block: the rest of the message, the domain byte behind it and the top
bit of the block. -/
theorem getLsbD_lastBlock {rest : List UInt8} (hrest : rest.length < rate) {i z : ℕ} (hz : z < 8) :
    (decide (i < rate) && ((paddedBlock rest).getD i 0).toBitVec.getLsbD z) =
      xor (xor (decide (i < rest.length) && (rest.getD i 0).toBitVec.getLsbD z)
        (decide (i = rest.length) && (0x06 : UInt8).toBitVec.getLsbD z))
        (decide (i = rate - 1) && (0x80 : UInt8).toBitVec.getLsbD z) := by
  by_cases hi : i < rate
  · have hdisjoint : ∀ z < 8,
        ((0x06 : UInt8).toBitVec.getLsbD z || (0x80 : UInt8).toBitVec.getLsbD z) =
          xor ((0x06 : UInt8).toBitVec.getLsbD z) ((0x80 : UInt8).toBitVec.getLsbD z) := by decide
    rw [getD_paddedBlock hi, UInt8.toBitVec_or, BitVec.getLsbD_or, decide_eq_true hi, Bool.true_and]
    by_cases hend : i = rest.length
    · rw [if_pos hend, decide_eq_true hend, decide_eq_false (by omega : ¬ i < rest.length)]
      by_cases hlast : i = rate - 1
      · rw [if_pos hlast, decide_eq_true hlast, hdisjoint z hz]
        simp
      · rw [if_neg hlast, decide_eq_false hlast]
        simp
    · rw [if_neg hend, decide_eq_false hend]
      by_cases hinside : i < rest.length
      · have hlast : ¬ i = rate - 1 := by omega
        rw [if_neg hlast, decide_eq_true hinside, decide_eq_false hlast]
        simp
      · rw [List.getD_eq_default rest 0 (by omega), decide_eq_false hinside]
        by_cases hlast : i = rate - 1
        · rw [if_pos hlast, decide_eq_true hlast]
          simp
        · rw [if_neg hlast, decide_eq_false hlast]
          simp
  · have hlength : ¬ i < rest.length := by omega
    have hend : ¬ i = rest.length := by omega
    have hlast : ¬ i = rate - 1 := by omega
    simp [hi, hlength, hend, hlast]

/-- `keccak_absorb_once` is the absorption of the padded message without the last permutation. -/
theorem keccakAbsorbOnce_eq (M : List UInt8) :
    keccakF1600StatePermute (keccakAbsorbOnce sha3_256Rate M 0x06) = finalState M := by
  have habsorbed := absorbLoop_eq M.length (Vector.replicate 25 0) M (Nat.div_le_self _ _)
  have hrest : (absorbLoop M.length (Vector.replicate 25 0) M).2.length < rate := by
    have hdiv := Nat.div_add_mod M.length rate
    have hmod : M.length % rate < rate := Nat.mod_lt _ (by decide)
    rw [habsorbed, List.length_drop]
    omega
  rw [keccakF1600StatePermute_eq, finalState]
  refine congrArg keccakf (state_ext fun k hk z hz ↦ ?_)
  have htop : ((1 : UInt64) <<< 63) =
      (0x80 : UInt8).toUInt64 <<< UInt64.ofNat (8 * ((sha3_256Rate - 1) % 8)) := by decide
  rw [keccakAbsorbOnce, absorbBlocks_eq]
  dsimp only
  rw [htop, getLsbD_xorByte _ _ _ hk hz, getLsbD_xorByte _ _ _ hk hz, ← xorBytes,
    getLsbD_xorBytes _ _ _ hk hz, getLsbD_xorBytes _ _ _ hk hz,
    getLsbD_lastBlock hrest (Nat.mod_lt z (by decide))]
  simp only [Bool.xor_assoc]
  rfl

/-- The vendored hash returns what `ev_sha3_256` returns on a little-endian host. -/
theorem evSha3_256_eq_sha3_256 (input : List UInt8) :
    evSha3_256 .little input = sha3_256 input := by
  rw [evSha3_256_eq_storeDigest, sha3_256, keccakAbsorbOnce_eq]
  rfl

end EvMlDsa.Ref
