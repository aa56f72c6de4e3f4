import EvMlDsa.Library.FixedArray
import EvMlDsa.Params

/-!
# The standalone SHA3-256 and the hash wrappers

`keccakf` updates 25 words in place: a column step with five words of scratch, one pass along the
24-cycle of `PI` that rotates and moves the words, a row step, and the round constant.
`evSha3_256` absorbs full blocks of 136 bytes straight from the input and the remainder from a
padded buffer. Its last loop stores four words through a `uint64_t` pointer, so the digest depends
on the byte order of the host.
-/

set_option autoImplicit false
set_option relaxedAutoImplicit false

namespace EvMlDsa

open Library.FixedArray

/-- 32 bytes: a seed, a digest or a matrix seed. -/
abbrev Block := Vector UInt8 32

/-- The byte order in which the host stores a word. -/
inductive ByteOrder where
  | little
  | big
deriving DecidableEq, Repr

/-! ### Keccak-f[1600] -/

abbrev KeccakState := Vector UInt64 25

def RC : List UInt64 :=
  [0x0000000000000001, 0x0000000000008082, 0x800000000000808a, 0x8000000080008000,
   0x000000000000808b, 0x0000000080000001, 0x8000000080008081, 0x8000000000008009,
   0x000000000000008a, 0x0000000000000088, 0x0000000080008009, 0x000000008000000a,
   0x000000008000808b, 0x800000000000008b, 0x8000000000008089, 0x8000000000008003,
   0x8000000000008002, 0x8000000000000080, 0x000000000000800a, 0x800000008000000a,
   0x8000000080008081, 0x8000000000008080, 0x0000000080000001, 0x8000000080008008]

def RHO : List ℕ :=
  [1, 3, 6, 10, 15, 21, 28, 36, 45, 55, 2, 14, 27, 41, 56, 8, 25, 43, 62, 18, 39, 61, 20, 44]

def PI : List ℕ :=
  [10, 7, 11, 17, 18, 3, 5, 16, 8, 21, 24, 4, 15, 23, 19, 13, 12, 2, 20, 14, 22, 9, 6, 1]

/-- `ROL`. -/
def rol (x : UInt64) (n : ℕ) : UInt64 := (x <<< UInt64.ofNat n) ||| (x >>> UInt64.ofNat (64 - n))

/-- The offsets the loops `for (j = 0; j < 25; j += 5)` run through. -/
def rowOffsets : List ℕ := [0, 5, 10, 15, 20]

/-- The first loop: the column parities in the scratch words. -/
def columnLoop (s : KeccakState) : Vector UInt64 5 :=
  fillFrom 0 (fun i ↦ s.getD i 0 ^^^ s.getD (i + 5) 0 ^^^ s.getD (i + 10) 0 ^^^
    s.getD (i + 15) 0 ^^^ s.getD (i + 20) 0) (Vector.replicate 5 0) 5

/-- The second loop: every column absorbs its two neighbours. -/
def thetaLoop (bc : Vector UInt64 5) (s : KeccakState) : KeccakState :=
  (List.range 5).foldl (fun s i ↦
    let t := bc.getD ((i + 4) % 5) 0 ^^^ rol (bc.getD ((i + 1) % 5) 0) 1
    rowOffsets.foldl (fun s j ↦ s.setIfInBounds (j + i) (s.getD (j + i) 0 ^^^ t)) s) s

/-- One turn of the third loop: word `PI[i]` is replaced by the carried word, rotated, and is
carried on. -/
def rhoPiTurn (carried : KeccakState × UInt64) (i : ℕ) : KeccakState × UInt64 :=
  let j := PI.getD i 0
  (carried.1.setIfInBounds j (rol carried.2 (RHO.getD i 0)), carried.1.getD j 0)

/-- The third loop. -/
def rhoPiLoop (s : KeccakState) : KeccakState :=
  ((List.range 24).foldl rhoPiTurn (s, s.getD 1 0)).1

/-- One turn of the fourth loop: the row at offset `j` is copied to the scratch words and combined
from there. -/
def chiRow (s : KeccakState) (j : ℕ) : KeccakState :=
  let bc : Vector UInt64 5 := fillFrom 0 (fun i ↦ s.getD (j + i) 0) (Vector.replicate 5 0) 5
  fillFrom j (fun i ↦ bc.getD i 0 ^^^ (~~~bc.getD ((i + 1) % 5) 0 &&& bc.getD ((i + 2) % 5) 0)) s 5

/-- The fourth loop. -/
def chiLoop (s : KeccakState) : KeccakState := rowOffsets.foldl chiRow s

/-- The body of the round loop. -/
def keccakRound (s : KeccakState) (round : ℕ) : KeccakState :=
  let s := chiLoop (rhoPiLoop (thetaLoop (columnLoop s) s))
  s.setIfInBounds 0 (s.getD 0 0 ^^^ RC.getD round 0)

/-- `keccakf`. -/
def keccakf (s : KeccakState) : KeccakState := (List.range 24).foldl keccakRound s

/-! ### The sponge -/

/-- Bytes of a block. -/
def rate : ℕ := 136

/-- The loop that adds one block, read through `input`, into the state. -/
def xorBytes (st : KeccakState) (input : ℕ → UInt8) (count : ℕ) : KeccakState :=
  (List.range count).foldl (fun st i ↦ st.setIfInBounds (i / 8)
    (st.getD (i / 8) 0 ^^^ ((input i).toUInt64 <<< UInt64.ofNat (8 * (i % 8))))) st

/-- The loop over full blocks, with what is left of the input; `fuel` bounds the number of
turns. -/
def absorbLoop : ℕ → KeccakState → List UInt8 → KeccakState × List UInt8
  | 0, st, input => (st, input)
  | fuel + 1, st, input =>
    if rate ≤ input.length then
      absorbLoop fuel (keccakf (xorBytes st (fun i ↦ input.getD i 0) rate)) (input.drop rate)
    else (st, input)

/-- The last block: the rest of the input, the domain padding, and the final bit. -/
def paddedBlock (input : List UInt8) : Vector UInt8 136 :=
  let buf : Vector UInt8 136 := Vector.replicate 136 0
  let buf := fillFrom 0 (fun i ↦ input.getD i 0) buf input.length
  let buf := buf.setIfInBounds input.length 0x06
  buf.setIfInBounds (rate - 1) (buf.getD (rate - 1) 0 ||| 0x80)

/-- Byte `k` of a word stored by a host of the given byte order. -/
def storedByte (host : ByteOrder) (word : UInt64) (k : ℕ) : UInt8 :=
  match host with
  | .little => (word >>> UInt64.ofNat (8 * k)).toUInt8
  | .big => (word >>> UInt64.ofNat (8 * (7 - k))).toUInt8

/-- The four words stored to `out`. -/
def storeDigest (host : ByteOrder) (st : KeccakState) : Block :=
  Vector.ofFn fun i ↦ storedByte host (st.getD (i.val / 8) 0) (i.val % 8)

/-- `ev_sha3_256`. -/
def evSha3_256 (host : ByteOrder) (input : List UInt8) : Block :=
  let absorbed := absorbLoop input.length (Vector.replicate 25 0) input
  let buf := paddedBlock absorbed.2
  storeDigest host (keccakf (xorBytes absorbed.1 (fun i ↦ buf.getD i 0) rate))

/-! ### The hash wrappers -/

/-- `ev_derive_child`. -/
def evDeriveChild (host : ByteOrder) (seed : Block) (dom : UInt8) : Block :=
  evSha3_256 host (dom :: seed.toList)

/-- `ev_hash_node`. -/
def evHashNode (host : ByteOrder) (L R : Block) : Block :=
  evSha3_256 host (evDomNode :: (L.toList ++ R.toList))

/-- The four bytes of a word, most significant first. -/
def bigEndian (word : UInt32) : Vector UInt8 4 :=
  #v[(word >>> 24).toUInt8, (word >>> 16).toUInt8, (word >>> 8).toUInt8, word.toUInt8]

/-- The word of four bytes, most significant first. -/
def readBigEndian (bytes : Vector UInt8 4) : UInt32 :=
  (bytes[0].toUInt32 <<< 24) ||| (bytes[1].toUInt32 <<< 16) ||| (bytes[2].toUInt32 <<< 8) |||
    bytes[3].toUInt32

/-- `ev_period_rho`. -/
def evPeriodRho (host : ByteOrder) (rho : Block) (period : UInt32) : Block :=
  evSha3_256 host (evDomMatrix :: (rho.toList ++ (bigEndian period).toList))

end EvMlDsa
