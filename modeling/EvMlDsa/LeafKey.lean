import EvMlDsa.Dilithium
import EvMlDsa.Scheme

/-!
# The scheme on bytes

`ev_leaf_keypair` over the vendored lattice arithmetic (`Vendored`), the operations the scheme
really runs on (`bytePrimitives`), and `ev_sign` and `ev_verify` on the bytes of a signature. That
`ev_leaf_keypair` overwrites both of its buffers is a fact about the packing loops
(`evLeafKeypair_overwrites`).
-/

set_option autoImplicit false
set_option relaxedAutoImplicit false

namespace EvMlDsa

open Library.FixedArray

set_option maxRecDepth 2000 in
/-- The vendored functions of the leaf layer: the hash, the samplers, the arithmetic modulo `Q`, and
leaf signing and verification with empty context. -/
structure Vendored (mode : DilithiumMode) (Rnd : Type) where
  /-- `shake256` -/
  shake256 : (outlen : ℕ) → List UInt8 → Vector UInt8 outlen
  /-- `polyvec_matrix_expand` -/
  polyvecMatrixExpand : Block → Vector (Vector Poly mode.L) mode.K
  /-- `polyvecl_uniform_eta` -/
  polyveclUniformEta : List UInt8 → UInt16 → Vector Poly mode.L
  /-- `polyveck_uniform_eta` -/
  polyveckUniformEta : List UInt8 → UInt16 → Vector Poly mode.K
  /-- `polyvecl_ntt` -/
  polyveclNtt : Vector Poly mode.L → Vector Poly mode.L
  /-- `polyvec_matrix_pointwise_montgomery` -/
  polyvecMatrixPointwiseMontgomery :
    Vector (Vector Poly mode.L) mode.K → Vector Poly mode.L → Vector Poly mode.K
  /-- `polyveck_reduce` -/
  polyveckReduce : Vector Poly mode.K → Vector Poly mode.K
  /-- `polyveck_invntt_tomont` -/
  polyveckInvnttTomont : Vector Poly mode.K → Vector Poly mode.K
  /-- `crypto_sign_signature`: return code and the bytes written -/
  cryptoSignSignature : Rnd → List UInt8 → Vector UInt8 (cryptoSecretkeybytes mode) →
    ℤ × List UInt8
  /-- `crypto_sign_verify` -/
  cryptoSignVerify : List UInt8 → List UInt8 → Vector UInt8 (cryptoPublickeybytes mode) → ℤ

section Leaf

variable {mode : DilithiumMode} {Rnd : Type} (vendored : Vendored mode Rnd)

/-- `ev_leaf_keypair`: the two buffers after the call. -/
def evLeafKeypair (rhoP leafSeed : Block) (leafPk : Vector UInt8 (cryptoPublickeybytes mode))
    (leafSk : Vector UInt8 (cryptoSecretkeybytes mode)) :
    Vector UInt8 (cryptoPublickeybytes mode) × Vector UInt8 (cryptoSecretkeybytes mode) :=
  let buf := evDomLeafkey :: UInt8.ofNat mode.K :: UInt8.ofNat mode.L :: leafSeed.toList
  let exp := (vendored.shake256 (crhBytes + seedBytes) buf).toList
  let rhoprime := exp.take crhBytes
  let key := exp.drop crhBytes
  let mat := vendored.polyvecMatrixExpand rhoP
  let s1 := vendored.polyveclUniformEta rhoprime 0
  let s2 := vendored.polyveckUniformEta rhoprime (UInt16.ofNat mode.L)
  let s1hat := vendored.polyveclNtt s1
  let t := vendored.polyvecMatrixPointwiseMontgomery mat s1hat
  let t := vendored.polyveckReduce t
  let t := vendored.polyveckInvnttTomont t
  let t := polyveckAdd t s2
  let t := polyveckCaddq t
  let (t1, t0) := polyveckPower2round t
  let leafPk := packPk mode leafPk rhoP.toList t1
  let tr := (vendored.shake256 trBytes leafPk.toList).toList
  (leafPk, packSk mode leafSk rhoP.toList tr key t0 s1 s2)

/-- Nothing of the former contents of the buffers is left. -/
theorem evLeafKeypair_overwrites (rhoP leafSeed : Block)
    (leafPk leafPk' : Vector UInt8 (cryptoPublickeybytes mode))
    (leafSk leafSk' : Vector UInt8 (cryptoSecretkeybytes mode)) :
    evLeafKeypair vendored rhoP leafSeed leafPk leafSk =
      evLeafKeypair vendored rhoP leafSeed leafPk' leafSk' := by
  have hrho : rhoP.toList.length = seedBytes := Vector.length_toList
  have hpk (t1 : Vector Poly mode.K) :
      packPk mode leafPk rhoP.toList t1 = packPk mode leafPk' rhoP.toList t1 := by
    rw [← Vector.toList_inj, toList_packPk _ _ hrho, toList_packPk _ _ hrho]
  have hsk {tr key : List UInt8} (htr : tr.length = trBytes) (hkey : key.length = seedBytes)
      (t0 : Vector Poly mode.K) (s1 : Vector Poly mode.L) (s2 : Vector Poly mode.K) :
      packSk mode leafSk rhoP.toList tr key t0 s1 s2 =
        packSk mode leafSk' rhoP.toList tr key t0 s1 s2 := by
    rw [← Vector.toList_inj, toList_packSk _ _ hrho htr hkey, toList_packSk _ _ hrho htr hkey]
  simp only [evLeafKeypair, hpk]
  rw [hsk Vector.length_toList (by simp)]

/-- The public key starts with the seed of the matrix. -/
theorem take_evLeafKeypair (rhoP leafSeed : Block)
    (leafPk : Vector UInt8 (cryptoPublickeybytes mode))
    (leafSk : Vector UInt8 (cryptoSecretkeybytes mode)) :
    ((evLeafKeypair vendored rhoP leafSeed leafPk leafSk).1.toList).take seedBytes =
      rhoP.toList := by
  have hrho : rhoP.toList.length = seedBytes := Vector.length_toList
  simp only [evLeafKeypair, toList_packPk _ _ hrho, pkBytes]
  rw [← hrho, List.take_left]

/-- So does the secret key. -/
theorem take_evLeafKeypair_snd (rhoP leafSeed : Block)
    (leafPk : Vector UInt8 (cryptoPublickeybytes mode))
    (leafSk : Vector UInt8 (cryptoSecretkeybytes mode)) :
    ((evLeafKeypair vendored rhoP leafSeed leafPk leafSk).2.toList).take seedBytes =
      rhoP.toList := by
  have hrho : rhoP.toList.length = seedBytes := Vector.length_toList
  simp only [evLeafKeypair]
  rw [toList_packSk _ _ hrho Vector.length_toList (by simp), skBytes]
  simp only [List.append_assoc]
  rw [← hrho, List.take_left]

end Leaf

/-! ### Regions of a buffer -/

/-- A packed `t1`. -/
abbrev PackedT1 (mode : DilithiumMode) := Vector UInt8 (t1Bytes mode)

/-- The buffer of a leaf public key. -/
def LeafPk.toBuffer {mode : DilithiumMode} (leafPk : LeafPk Block (PackedT1 mode)) :
    Vector UInt8 (cryptoPublickeybytes mode) :=
  Vector.ofFn fun i ↦
    if i.val < seedBytes then leafPk.rho.getD i.val 0 else leafPk.t1.getD (i.val - seedBytes) 0

/-- The two regions of the buffer of a leaf public key. -/
def LeafPk.ofBuffer {mode : DilithiumMode} (buffer : Vector UInt8 (cryptoPublickeybytes mode)) :
    LeafPk Block (PackedT1 mode) where
  rho := Vector.ofFn fun i ↦ buffer.getD i.val 0
  t1 := Vector.ofFn fun i ↦ buffer.getD (seedBytes + i.val) 0

theorem LeafPk.getElem_toBuffer {mode : DilithiumMode} (leafPk : LeafPk Block (PackedT1 mode))
    {k : ℕ} (hk : k < cryptoPublickeybytes mode) :
    leafPk.toBuffer[k] =
      if k < 32 then leafPk.rho.getD k 0 else leafPk.t1.getD (k - 32) 0 :=
  Vector.getElem_ofFn hk

theorem LeafPk.toList_toBuffer {mode : DilithiumMode} (leafPk : LeafPk Block (PackedT1 mode)) :
    leafPk.toBuffer.toList = leafPk.rho.toList ++ leafPk.t1.toList := by
  have hlength : leafPk.toBuffer.toList.length =
      (leafPk.rho.toList ++ leafPk.t1.toList).length := by
    rw [Vector.length_toList, List.length_append, Vector.length_toList, Vector.length_toList]
    rfl
  refine List.ext_getElem hlength fun k hk hk' ↦ ?_
  have hsize : k < 32 + t1Bytes mode := by simpa using hk'
  rw [List.getElem_append, Vector.getElem_toList, LeafPk.getElem_toBuffer]
  simp only [Vector.length_toList, Vector.getElem_toList]
  split_ifs with hrho
  · exact getD_eq_getElem _ _ hrho
  · exact getD_eq_getElem _ _ (by omega)

theorem LeafPk.toBuffer_ofBuffer {mode : DilithiumMode}
    (buffer : Vector UInt8 (cryptoPublickeybytes mode)) :
    (LeafPk.ofBuffer buffer).toBuffer = buffer := by
  refine Vector.ext fun k hk ↦ ?_
  have hsize : k < 32 + t1Bytes mode := hk
  rw [LeafPk.getElem_toBuffer]
  simp only [LeafPk.ofBuffer]
  split_ifs with hrho
  · rw [getD_eq_getElem _ _ hrho, Vector.getElem_ofFn, getD_eq_getElem _ _ hk]
  · have hindex : seedBytes + (k - 32) = k := show 32 + (k - 32) = k by omega
    rw [getD_eq_getElem _ _ (show k - 32 < t1Bytes mode by omega), Vector.getElem_ofFn, hindex,
      getD_eq_getElem _ _ hk]

theorem LeafPk.toList_t1_ofBuffer {mode : DilithiumMode}
    (buffer : Vector UInt8 (cryptoPublickeybytes mode)) :
    (LeafPk.ofBuffer buffer).t1.toList = buffer.toList.drop seedBytes := by
  have hregions := LeafPk.toList_toBuffer (.ofBuffer buffer)
  rw [LeafPk.toBuffer_ofBuffer] at hregions
  rw [hregions]
  exact (List.drop_left' Vector.length_toList).symm

/-- The operations of the scheme on bytes. -/
def bytePrimitives (host : ByteOrder) {mode : DilithiumMode} {Rnd : Type}
    (vendored : Vendored mode Rnd) :
    Primitives Block (PackedT1 mode) (Vector UInt8 (cryptoSecretkeybytes mode)) (List UInt8)
      Rnd where
  evDeriveChild := evDeriveChild host
  evHashNode := evHashNode host
  hashLeaf t1 := evSha3_256 host (evDomLeaf :: t1.toList)
  evPeriodRho := evPeriodRho host
  hashRoot seed := evSha3_256 host seed.toList
  evLeafKeypair rhoP leafSeed leafPk leafSk :=
    let (leafPk, leafSk) := evLeafKeypair vendored rhoP leafSeed leafPk.toBuffer leafSk
    (.ofBuffer leafPk, leafSk)
  zeroSk := Vector.replicate _ 0
  cryptoSignSignature := vendored.cryptoSignSignature
  cryptoSignVerify fswa cm leafPk := vendored.cryptoSignVerify fswa cm leafPk.toBuffer
  evLeafKeypair_overwrites rhoP leafSeed leafPk leafPk' leafSk leafSk' := by
    simp only [evLeafKeypair_overwrites vendored rhoP leafSeed leafPk.toBuffer leafPk'.toBuffer
      leafSk leafSk']
  evLeafKeypair_rho rhoP leafSeed leafPk leafSk := by
    have htake := take_evLeafKeypair vendored rhoP leafSeed leafPk.toBuffer leafSk
    refine Vector.ext fun k hk ↦ ?_
    have hbyte : (((evLeafKeypair vendored rhoP leafSeed leafPk.toBuffer leafSk).1.toList).take
        32).getD k 0 = rhoP.toList.getD k 0 := congrArg (List.getD · k 0) htake
    rw [List.getD_eq_getElem?_getD, List.getElem?_take_of_lt hk, ← List.getD_eq_getElem?_getD,
      getD_toList, getD_toList, getD_eq_getElem rhoP 0 hk] at hbyte
    simp only [LeafPk.ofBuffer, Vector.getElem_ofFn]
    exact hbyte

/-! ### Signatures as bytes -/

/-- `ev_sig_bytes`, in the 32-bit arithmetic of its operands. -/
def evSigBytes (mode : DilithiumMode) (depth : UInt32) : UInt32 :=
  UInt32.ofNat (4 + cryptoBytes mode + t1Bytes mode) + depth * UInt32.ofNat evHashBytes

/-- The `size` bytes at an offset, if they are in bounds. -/
def bytesAt (sig : List UInt8) (off size : ℕ) : Option (Vector UInt8 size) :=
  if off + size ≤ sig.length then some (Vector.ofFn fun i ↦ sig.getD (off + i.val) 0) else none

/-- The bytes of a leaf signature, if they are in bounds. -/
def fswaAt (mode : DilithiumMode) (sig : List UInt8) : Option (List UInt8) :=
  (bytesAt sig 4 (cryptoBytes mode)).map (·.toList)

/-- Where the path starts. -/
def pathOffset (mode : DilithiumMode) : ℕ := 4 + cryptoBytes mode + t1Bytes mode

/-- The whole 32-byte blocks from `pathOffset` to the end of the signature. -/
def pathBlocks (mode : DilithiumMode) (sig : List UInt8) : List Block :=
  (List.range ((sig.length - pathOffset mode) / 32)).map fun i ↦
    Vector.ofFn fun j ↦ sig.getD (pathOffset mode + 32 * i + j.val) 0

/-- What `ev_sign` leaves: return code, the bytes from `sig` on, and `*siglen` where it is set. -/
structure SignOutput where
  ret : ℤ
  sig : List UInt8
  siglen : Option ℕ
deriving DecidableEq

section Bytes

variable (host : ByteOrder) {mode : DilithiumMode} {Rnd : Type} (vendored : Vendored mode Rnd)
  (legacy : Bool)

/-- The bytes of the fields written, in order. -/
def SignResult.bytes {mode : DilithiumMode}
    (result : SignResult Block (PackedT1 mode) (List UInt8)) : List UInt8 :=
  (result.tag.elim [] (·.toList)) ++ result.fswa.getD [] ++ (result.t1.elim [] (·.toList)) ++
    (result.path.getD []).flatMap (·.toList)

/-- `ev_sign`. -/
def evSign (sk : EvSk Block (PackedT1 mode) (Vector UInt8 (cryptoSecretkeybytes mode)))
    (m : List UInt8) (rnd : Rnd) (allocated : Bool) : Option SignOutput := do
  let result ← evSignFields (bytePrimitives host vendored) sk m rnd allocated
  let sl := (result.fswa.getD []).length
  -- `s - sig` behind the last field
  let siglen := 4 + sl + t1Bytes mode + (sk.par.depth * UInt32.ofNat evHashBytes).toNat
  return ⟨result.ret, result.bytes, if result.ret = 0 then some siglen else none⟩

/-- `ev_verify`. -/
def evVerify (alloc : ℕ → Bool) (pk : EvPk Block) (m sig : List UInt8) :
    Option (VerifyResult Block (PackedT1 mode)) :=
  if sig.length ≠ (evSigBytes mode pk.par.depth).toNat then some ⟨-1, []⟩
  else do
    let tag ← bytesAt sig 0 4
    evVerifyFields (bytePrimitives host vendored) legacy alloc pk m tag (fswaAt mode sig)
      (bytesAt sig (4 + cryptoBytes mode) (t1Bytes mode)) (pathBlocks mode sig)

end Bytes

end EvMlDsa
