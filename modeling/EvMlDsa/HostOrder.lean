import EvMlDsa.AllocationFailure
import EvMlDsa.DomainSeparation

/-!
# The byte order of the host

`ev_sha3_256` reads its input byte by byte but stores the digest as four words. A little-endian host
stores the bytes of SHA3-256; a big-endian one stores the bytes of each word backwards
(`evSha3_256_eq_hostDigest`), so both agree exactly on the messages whose digest reads the same
either way, word by word (`digestIsLaneBytes_iff`). A verification returns the same on both hosts
exactly if both digests of the leaf lead to the root or neither does, and then, in new mode, the
leaf signature is valid under both matrix seeds or under neither (`ret_evVerify_eq_iff`). That is so
whenever everything that is hashed reads the same either way (`evVerify_host_eq`), and in general it
is not (`evSha3_256_host_counterexample`).
-/

set_option autoImplicit false
set_option relaxedAutoImplicit false

namespace EvMlDsa

open Library.FixedArray Library Library.HashTree

/-! ### Digests -/

theorem getLsbD_storedByte_big (word : UInt64) {k b : ℕ} (hk : k < 8) (hb : b < 8) :
    (storedByte .big word k).toBitVec.getLsbD b = word.toBitVec.getLsbD (8 * (7 - k) + b) :=
  getLsbD_storedByte_little word (by omega : 7 - k < 8) hb

/-- Byte `8 i + j` of the digest is bits `8 j .. 8 j + 7` of lane `i` of the final state, on every
host. -/
def DigestIsLaneBytes (M : List UInt8) : Prop :=
  ∀ host, ∀ i < 4, ∀ j < 8, ∀ b < 8,
    ((evSha3_256 host M).getD (8 * i + j) 0).toBitVec.getLsbD b =
      ((finalState M).getD i 0).toBitVec.getLsbD (8 * j + b)

/-- Every 8-byte word of a digest reads the same backwards. -/
def PalindromicWords (digest : List Bool) : Prop :=
  ∀ i < 4, ∀ j < 8, ∀ b < 8,
    digest.getD (8 * (8 * i + j) + b) false = digest.getD (8 * (8 * i + (7 - j)) + b) false

/-- A byte of the digest, on either host. -/
theorem getLsbD_evSha3_256 (host : ByteOrder) (M : List UInt8) {i j b : ℕ} (hi : i < 4) (hj : j < 8)
    (hb : b < 8) :
    ((evSha3_256 host M).getD (8 * i + j) 0).toBitVec.getLsbD b =
      ((finalState M).getD i 0).toBitVec.getLsbD
        (8 * (match host with | .little => j | .big => 7 - j) + b) := by
  have hword : (8 * i + j) / 8 = i := by omega
  have hbyte : (8 * i + j) % 8 = j := by omega
  rw [evSha3_256_eq_storeDigest, getD_eq_getElem _ _ (by omega), storeDigest, Vector.getElem_ofFn,
    hword, hbyte]
  cases host with
  | little => exact getLsbD_storedByte_little _ hj hb
  | big => exact getLsbD_storedByte_big _ hj hb

/-- A bit of the SHA3-256 digest. -/
theorem getD_sha3_256 (M : List UInt8) {i j b : ℕ} (hi : i < 4) (hj : j < 8) (hb : b < 8) :
    (Fips202.sha3_256 (Fips202.bitsOfBytes M)).getD (8 * (8 * i + j) + b) false =
      ((finalState M).getD i 0).toBitVec.getLsbD (8 * j + b) := by
  have hindex : 8 * (8 * i + j) + b < 256 := by omega
  have hword : (8 * (8 * i + j) + b) / 64 = i := by omega
  have hbit : (8 * (8 * i + j) + b) % 64 = 8 * j + b := by omega
  rw [sha3_256_bitsOfBytes, List.getD_eq_getElem?_getD, List.getElem?_take_of_lt hindex,
    ← List.getD_eq_getElem?_getD, getD_stateBits _ (by omega), hword, hbit]

/-- The hosts store the same digest, the bytes of the lanes, exactly if the words of SHA3-256 read
the same backwards. -/
theorem digestIsLaneBytes_iff (M : List UInt8) :
    DigestIsLaneBytes M ↔ PalindromicWords (Fips202.sha3_256 (Fips202.bitsOfBytes M)) := by
  constructor
  · intro hlanes i hi j hj b hb
    have hbig := hlanes .big i hi j hj b hb
    rw [getLsbD_evSha3_256 .big M hi hj hb] at hbig
    rw [getD_sha3_256 M hi hj hb, getD_sha3_256 M hi (by omega) hb]
    exact hbig.symm
  · intro hwords host i hi j hj b hb
    rw [getLsbD_evSha3_256 host M hi hj hb]
    cases host with
    | little => rfl
    | big =>
      have hword := hwords i hi j hj b hb
      rw [getD_sha3_256 M hi hj hb, getD_sha3_256 M hi (by omega) hb] at hword
      exact hword.symm

theorem evSha3_256_big_eq {M : List UInt8}
    (hwords : PalindromicWords (Fips202.sha3_256 (Fips202.bitsOfBytes M))) :
    evSha3_256 .big M = evSha3_256 .little M := by
  refine Vector.ext fun k hk ↦ ?_
  rw [← UInt8.toBitVec_inj]
  refine BitVec.eq_of_getLsbD_eq fun b hb ↦ ?_
  have hlanes := (digestIsLaneBytes_iff M).mpr hwords
  have hbig := hlanes .big (k / 8) (by omega) (k % 8) (by omega) b hb
  have hlittle := hlanes .little (k / 8) (by omega) (k % 8) (by omega) b hb
  rw [Nat.div_add_mod, getD_eq_getElem _ _ hk] at hbig hlittle
  exact hbig.trans hlittle.symm

/-- Hosts that agree on a digest both store the bytes of the lanes. -/
theorem digestIsLaneBytes_of_big_eq {M : List UInt8}
    (h : evSha3_256 .big M = evSha3_256 .little M) : DigestIsLaneBytes M := by
  intro host i hi j hj b hb
  have hlittle := getLsbD_evSha3_256 .little M hi hj hb
  cases host with
  | little => exact hlittle
  | big => rwa [h]

/-- The bytes of the SHA3-256 digest of a byte string. -/
def sha3Digest (M : List UInt8) : Block :=
  Vector.ofFn fun k ↦ Fips202.byteAt (Fips202.sha3_256 (Fips202.bitsOfBytes M)) k.val

/-- Every 8-byte word backwards. -/
def reverseWords (digest : Block) : Block :=
  Vector.ofFn fun k ↦ digest.getD (8 * (k.val / 8) + (7 - k.val % 8)) 0

/-- The digest of a byte string as a host of the given byte order stores it. -/
def hostDigest (host : ByteOrder) (M : List UInt8) : Block :=
  match host with
  | .little => sha3Digest M
  | .big => reverseWords (sha3Digest M)

theorem evSha3_256_eq_hostDigest (host : ByteOrder) (M : List UInt8) :
    evSha3_256 host M = hostDigest host M := by
  have hdigest (k : ℕ) (hk : k < 32) (b : ℕ) (hb : b < 8) :
      ((sha3Digest M).getD k 0).toBitVec.getLsbD b =
        ((finalState M).getD (k / 8) 0).toBitVec.getLsbD (8 * (k % 8) + b) := by
    have hbyte := Fips202.getLsbD_byteAt (Fips202.sha3_256 (Fips202.bitsOfBytes M)) k hb
    have hindex : 8 * k + b = 8 * (8 * (k / 8) + k % 8) + b := by omega
    rw [hindex, getD_sha3_256 M (by omega) (by omega) hb] at hbyte
    rw [getD_eq_getElem _ _ hk, sha3Digest, Vector.getElem_ofFn, hbyte]
  refine Vector.ext fun k hk ↦ ?_
  rw [← UInt8.toBitVec_inj]
  refine BitVec.eq_of_getLsbD_eq fun b hb ↦ ?_
  have hstored := getLsbD_evSha3_256 host M (i := k / 8) (j := k % 8) (by omega) (by omega) hb
  rw [Nat.div_add_mod, getD_eq_getElem _ _ hk] at hstored
  rw [hstored]
  cases host with
  | little => rw [← getD_eq_getElem _ 0 hk, hostDigest, hdigest k hk b hb]
  | big =>
    have hword : (8 * (k / 8) + (7 - k % 8)) / 8 = k / 8 := by omega
    have hbyte : (8 * (k / 8) + (7 - k % 8)) % 8 = 7 - k % 8 := by omega
    rw [hostDigest, reverseWords, Vector.getElem_ofFn, hdigest _ (by omega) b hb, hword, hbyte]

/-- On a message whose digest reads the same backwards all hosts agree. -/
theorem evSha3_256_host_eq {M : List UInt8}
    (hwords : PalindromicWords (Fips202.sha3_256 (Fips202.bitsOfBytes M)))
    (host host' : ByteOrder) :
    evSha3_256 host M = evSha3_256 host' M := by
  cases host <;> cases host'
  · rfl
  · exact (evSha3_256_big_eq hwords).symm
  · exact evSha3_256_big_eq hwords
  · rfl

/-! ### Verification -/

/-- A climb depends on the node hash at the pairs it hashes only. -/
theorem verifyLoop_congr {Block : Type*} {evHashNode evHashNode' : Block → Block → Block}
    {path : List Block} {l idx : ℕ} {cur root : Block} {pairs : List (Block × Block)}
    (hloop : verifyLoop evHashNode path l idx cur = some (root, pairs))
    (hsame : ∀ pair ∈ pairs, evHashNode' pair.1 pair.2 = evHashNode pair.1 pair.2) :
    verifyLoop evHashNode' path l idx cur = some (root, pairs) := by
  induction l generalizing idx cur pairs with
  | zero => exact hloop
  | succ l ih =>
    rw [verifyLoop, Option.bind_eq_bind, Option.bind_eq_some_iff] at hloop ⊢
    obtain ⟨sib, hsib, hrest⟩ := hloop
    refine ⟨sib, hsib, ?_⟩
    simp only [Option.bind_eq_bind, Option.bind_eq_some_iff, Option.pure_def, Option.some.injEq,
      Prod.mk.injEq] at hrest ⊢
    obtain ⟨⟨root', pairs'⟩, htail, rfl, rfl⟩ := hrest
    refine ⟨⟨root', pairs'⟩, ?_, rfl, rfl⟩
    rw [hsame _ List.mem_cons_self]
    exact ih htail fun pair hpair ↦ hsame pair (List.mem_cons_of_mem _ hpair)

/-- So does the verification of a path. -/
theorem evMerkleVerify_congr {Block : Type*} [DecidableEq Block]
    {evHashNode evHashNode' : Block → Block → Block} {root : Block} {par : EvParams} {p : UInt32}
    {leafDigest : Block} {path : List Block} {code : ℤ} {pairs : List (Block × Block)}
    (hverify : evMerkleVerify evHashNode root par p leafDigest path = some (code, pairs))
    (hsame : ∀ pair ∈ pairs, evHashNode' pair.1 pair.2 = evHashNode pair.1 pair.2) :
    evMerkleVerify evHashNode' root par p leafDigest path = some (code, pairs) := by
  simp only [evMerkleVerify, Option.bind_eq_bind, Option.bind_eq_some_iff, Option.pure_def,
    Option.some.injEq, Prod.mk.injEq] at hverify ⊢
  obtain ⟨⟨cur, pairs'⟩, hloop, hcode, rfl⟩ := hverify
  exact ⟨(cur, pairs'), verifyLoop_congr hloop hsame, hcode, rfl⟩

section Scheme

variable {Block T1 LeafSk Fswa Rnd : Type} [Zero Block] [DecidableEq Block]
  {prims prims' : Primitives Block T1 LeafSk Fswa Rnd} {legacy : Bool}

omit [DecidableEq Block] in
/-- A leaf digest depends on the leaf hash at the value it hashes only. -/
theorem evMerkleLeafdigest_congr {allocated : Bool} {val : Option T1} {digest : Block}
    {hashed : List (HashInput Block T1)}
    (hdigest : evMerkleLeafdigest prims allocated val = some (digest, hashed))
    (hsame : ∀ t, .leaf t ∈ hashed → prims'.hashLeaf t = prims.hashLeaf t) :
    evMerkleLeafdigest prims' allocated val = some (digest, hashed) := by
  unfold evMerkleLeafdigest at hdigest ⊢
  cases allocated with
  | false => exact hdigest
  | true =>
    obtain ⟨t, rfl, hhash⟩ := Option.bind_eq_some_iff.mp hdigest
    obtain ⟨rfl, rfl⟩ := Prod.mk.inj (Option.some.inj hhash)
    simp [hsame t (List.mem_singleton_self _)]

/-- The outcome of a verification depends on the hashes at the inputs it records, on the leaf
verification and, behind the return codes -2 and -3, on the matrix seed. -/
theorem evVerifyFields_congr {alloc : ℕ → Bool} {pk : EvPk Block} {m : List UInt8}
    {tag : Vector UInt8 4} {fswa : Option Fswa} {t1 : Option T1} {path : List Block}
    {result : VerifyResult Block T1}
    (hverify : evVerifyFields prims legacy alloc pk m tag fswa t1 path = some result)
    (hleaf : ∀ t, .leaf t ∈ result.hashed → prims'.hashLeaf t = prims.hashLeaf t)
    (hnode : ∀ left right, .node left right ∈ result.hashed →
      prims'.evHashNode left right = prims.evHashNode left right)
    (hseed : result.ret ≠ -2 → result.ret ≠ -3 →
      evMatrixSeed prims' legacy pk.rho (readBigEndian tag) =
        evMatrixSeed prims legacy pk.rho (readBigEndian tag))
    (hsign : prims'.cryptoSignVerify = prims.cryptoSignVerify) :
    evVerifyFields prims' legacy alloc pk m tag fswa t1 path = some result := by
  unfold evVerifyFields at hverify ⊢
  by_cases hT : pk.par.T ≤ readBigEndian tag
  · simp only [if_pos hT] at hverify ⊢
    exact hverify
  simp only [if_neg hT, Option.bind_eq_bind, Option.bind_eq_some_iff] at hverify
  obtain ⟨⟨dg, leafHashed⟩, hdigest, ⟨ok, pairs⟩, hopens, hrest⟩ := hverify
  -- whatever the outcome, these are the inputs of the result
  have hhashed : result.hashed = leafHashed ++ pairs.map fun pair ↦ .node pair.1 pair.2 := by
    split_ifs at hrest with hok hm halloc
    · exact congrArg VerifyResult.hashed (Option.some.inj hrest).symm
    · simp at hrest
    · simp only [Option.bind_eq_some_iff] at hrest
      obtain ⟨_, -, _, -, hrest⟩ := hrest
      exact congrArg VerifyResult.hashed (Option.some.inj hrest).symm
    · simp only [Option.bind_eq_some_iff] at hrest
      obtain ⟨_, -, hrest⟩ := hrest
      exact congrArg VerifyResult.hashed (Option.some.inj hrest).symm
  have hdigest' : evMerkleLeafdigest prims' (alloc 0) t1 = some (dg, leafHashed) := by
    apply evMerkleLeafdigest_congr hdigest
    intro t ht
    apply hleaf
    rw [hhashed]
    exact List.mem_append_left _ ht
  have hopens' : evMerkleVerify prims'.evHashNode pk.root pk.par (readBigEndian tag) dg path =
      some (ok, pairs) := by
    apply evMerkleVerify_congr hopens
    intro pair hpair
    apply hnode
    rw [hhashed]
    exact List.mem_append_right _ (List.mem_map_of_mem hpair)
  simp only [if_neg hT, hdigest', hopens', hsign, Option.bind_eq_bind, Option.bind_some]
  by_cases hok : ok = 0
  · simp only [if_pos hok] at hrest ⊢
    exact hrest
  · have hreached : result.ret ≠ -2 ∧ result.ret ≠ -3 := by
      rw [if_neg hok] at hrest
      split_ifs at hrest with hm halloc
      · simp at hrest
      · simp only [Option.bind_eq_some_iff] at hrest
        obtain ⟨_, -, _, -, hrest⟩ := hrest
        have hret := congrArg VerifyResult.ret (Option.some.inj hrest)
        dsimp only at hret
        split_ifs at hret <;> omega
      · simp only [Option.bind_eq_some_iff] at hrest
        obtain ⟨_, -, hrest⟩ := hrest
        have hret := congrArg VerifyResult.ret (Option.some.inj hrest)
        dsimp only at hret
        omega
    rw [hseed hreached.1 hreached.2]
    exact hrest

/-- The return code of `ev_verify` behind the root check. -/
def leafVerdict (prims : Primitives Block T1 LeafSk Fswa Rnd) (legacy granted : Bool)
    (pk : EvPk Block) (m : List UInt8) (tag : Vector UInt8 4) (fswa : Option Fswa)
    (t1 : Option T1) : Option ℤ :=
  t1.bind fun t1 ↦
    if 2 ^ 64 ≤ 1 + 4 + m.length then none
    else if granted then
      fswa.map fun σ ↦
        if prims.cryptoSignVerify σ (compositeMessage tag m)
          ⟨evMatrixSeed prims legacy pk.rho (readBigEndian tag), t1⟩ = 0 then 0 else -5
    else some (-4)

/-- The return code on the fields of a signature whose tag is in the lifetime. -/
theorem ret_evVerifyFields {alloc : ℕ → Bool} {pk : EvPk Block} {m : List UInt8}
    {tag : Vector UInt8 4} {fswa : Option Fswa} {t1 : Option T1} {path : List Block}
    (htag : readBigEndian tag < pk.par.T) :
    (evVerifyFields prims legacy alloc pk m tag fswa t1 path).map VerifyResult.ret =
      (evMerkleLeafdigest prims (alloc 0) t1).bind fun (dg, _) ↦
        if ∀ l < pk.par.depth.toNat, pathSlot l < path.length then
          if climb prims.evHashNode (pathSiblings path pk.root) pk.par.depth.toNat
              (readBigEndian tag).toNat dg = pk.root then
            leafVerdict prims legacy (alloc 1) pk m tag fswa t1
          else some (-3)
        else none := by
  rw [evVerifyFields, if_neg (UInt32.not_le.mpr htag), Option.bind_eq_bind, Option.map_bind]
  refine Option.bind_congr fun ⟨dg, leafHashed⟩ _ ↦ ?_
  by_cases hbound : ∀ l < pk.par.depth.toNat, pathSlot l < path.length
  · simp only [evMerkleVerify, verifyLoop_eq prims.evHashNode path pk.root hbound,
      Option.bind_eq_bind, Option.bind_some, Option.pure_def, Function.comp_apply]
    rw [if_pos hbound]
    by_cases hroot : climb prims.evHashNode (pathSiblings path pk.root) pk.par.depth.toNat
        (readBigEndian tag).toNat dg = pk.root
    · simp only [if_pos hroot, one_ne_zero, if_false, leafVerdict, Option.map_bind]
      refine Option.bind_congr fun t _ ↦ ?_
      simp only [Function.comp_apply]
      split_ifs with hm halloc
      · rfl
      · rw [Option.map_bind]
        cases fswa <;> rfl
      · rfl
    · simp only [if_neg hroot, if_true, Option.map_some]
  · obtain ⟨l, hl, hout⟩ : ∃ l < pk.par.depth.toNat, path.length ≤ pathSlot l := by
      simpa only [not_forall, not_lt, exists_prop] using hbound
    simp only [evMerkleVerify, verifyLoop_eq_none prims.evHashNode hl hout, Option.bind_eq_bind,
      Option.bind_none, Function.comp_apply, Option.map_none, if_neg hbound]

omit [Zero Block] [DecidableEq Block] in
/-- Behind the root check the codes are 0, -4 and -5. -/
theorem leafVerdict_code {granted : Bool} {pk : EvPk Block} {m : List UInt8}
    {tag : Vector UInt8 4} {fswa : Option Fswa} {t1 : Option T1} {code : ℤ}
    (hcode : leafVerdict prims legacy granted pk m tag fswa t1 = some code) :
    code = 0 ∨ code = -4 ∨ code = -5 := by
  obtain ⟨t, -, hcode⟩ := Option.bind_eq_some_iff.mp hcode
  split_ifs at hcode with hm hgranted
  · obtain ⟨σ, -, hcode⟩ := Option.map_eq_some_iff.mp hcode
    split_ifs at hcode <;> omega
  · exact Or.inr (Or.inl (Option.some.inj hcode).symm)

/-- Behind the length check -1 is not returned. -/
theorem ret_ne_of_evVerifyFields {alloc : ℕ → Bool} {pk : EvPk Block} {m : List UInt8}
    {tag : Vector UInt8 4} {fswa : Option Fswa} {t1 : Option T1} {path : List Block}
    {result : VerifyResult Block T1}
    (hverify : evVerifyFields prims legacy alloc pk m tag fswa t1 path = some result) :
    result.ret ≠ -1 := by
  have hret := congrArg (Option.map VerifyResult.ret) hverify
  by_cases hT : pk.par.T ≤ readBigEndian tag
  · rw [evVerifyFields, if_pos hT] at hret
    have hcode : -2 = result.ret := Option.some.inj hret
    omega
  · rw [ret_evVerifyFields (UInt32.not_le.mp hT), Option.map_some,
      Option.bind_eq_some_iff] at hret
    obtain ⟨⟨dg, leafHashed⟩, -, hret⟩ := hret
    dsimp only at hret
    split_ifs at hret with hbound hroot
    · have hcode := leafVerdict_code hret
      omega
    · have hcode : -3 = result.ret := Option.some.inj hret
      omega

end Scheme

section Bytes

variable {mode : DilithiumMode}

set_option maxRecDepth 2000 in
/-- The call behind an input of the leaf or tree hash. -/
def HashInput.call : HashInput Block (PackedT1 mode) → HashCall
  | .leaf t1 => .leaf mode t1
  | .node left right => .node left right

/-- The digest of a call reads the same on both hosts. -/
def HashCall.HostIndependent (call : HashCall) : Prop :=
  PalindromicWords (Fips202.sha3_256 (Fips202.bitsOfBytes call.input))

variable {Rnd : Type} (vendored : Vendored mode Rnd) (legacy : Bool)

/-- The calls of `ev_sha3_256` in a verification: those of the leaf and the nodes, and in new mode
that of the matrix seed, which is reached behind the return codes -1, -2 and -3. -/
def VerifyResult.calls (pk : EvPk Block) (sig : List UInt8)
    (result : VerifyResult Block (PackedT1 mode)) : List HashCall :=
  result.hashed.map HashInput.call ++
    if legacy ∨ result.ret ∈ [-1, -2, -3] then []
    else ((bytesAt sig 0 4).map fun tag ↦ HashCall.matrix pk.rho (readBigEndian tag)).toList

variable {host host' : ByteOrder}

/-- A verification has the same outcome on every host if everything it hashes on one reads the same
either way. -/
theorem evVerify_host_eq {alloc : ℕ → Bool} {pk : EvPk Block} {m sig : List UInt8}
    {result : VerifyResult Block (PackedT1 mode)}
    (hverify : evVerify host vendored legacy alloc pk m sig = some result)
    (hcalls : ∀ call ∈ result.calls legacy pk sig, call.HostIndependent) :
    evVerify host' vendored legacy alloc pk m sig = some result := by
  unfold evVerify at hverify ⊢
  by_cases hlength : sig.length ≠ (evSigBytes mode pk.par.depth).toNat
  · rw [if_pos hlength] at hverify ⊢
    exact hverify
  rw [if_neg hlength, Option.bind_eq_bind, Option.bind_eq_some_iff] at hverify ⊢
  obtain ⟨tag, htag, hfields⟩ := hverify
  have hhashed : ∀ x ∈ result.hashed, x.call.HostIndependent :=
    fun x hx ↦ hcalls _ (List.mem_append_left _ (List.mem_map_of_mem hx))
  have hsign : (bytePrimitives host' vendored).cryptoSignVerify =
      (bytePrimitives host vendored).cryptoSignVerify := by
    simp only [bytePrimitives]
  refine ⟨tag, htag, evVerifyFields_congr hfields ?_ ?_ ?_ hsign⟩
  · intro t ht
    have hleaf := hhashed (.leaf t) ht
    exact evSha3_256_host_eq hleaf host' host
  · intro left right hmem
    have hnode := hhashed (.node left right) hmem
    exact evSha3_256_host_eq hnode host' host
  · intro hlifetime hroot
    cases hlegacy : legacy with
    | true => simp only [evMatrixSeed, if_true]
    | false =>
      have hlengthRet : result.ret ≠ -1 := ret_ne_of_evVerifyFields hfields
      have hmatrix : HashCall.matrix pk.rho (readBigEndian tag) ∈ result.calls legacy pk sig := by
        refine List.mem_append_right _ ?_
        rw [if_neg (by simp [hlegacy, hlengthRet, hlifetime, hroot]), htag]
        exact List.mem_singleton_self _
      exact evSha3_256_host_eq (hcalls _ hmatrix) host' host

/-! ### When the verdicts agree -/

/-- The `t1` in a signature. -/
def t1At (mode : DilithiumMode) (sig : List UInt8) : Option (PackedT1 mode) :=
  bytesAt sig (4 + cryptoBytes mode) (t1Bytes mode)

/-- With `hash` in place of SHA3-256, the leaf digest of a signature leads to the root along its
path. `granted` is the outcome of the allocation of the leaf digest. -/
def ReachesRoot (mode : DilithiumMode) (hash : List UInt8 → Block) (granted : Bool)
    (pk : EvPk Block) (sig : List UInt8) (tag : Vector UInt8 4) : Prop :=
  ∃ dg, (if granted then (t1At mode sig).map fun t1 ↦ hash (HashCall.leaf mode t1).input
      else some 0) = some dg ∧
    (∀ l < pk.par.depth.toNat, pathSlot l < (pathBlocks mode sig).length) ∧
    climb (fun L R ↦ hash (HashCall.node L R).input) (pathSiblings (pathBlocks mode sig) pk.root)
      pk.par.depth.toNat (readBigEndian tag).toNat dg = pk.root

/-- The condition for equal verdicts about a signature of the right length with a tag in the
lifetime. The two hosts find the root, or neither does. If they do, and the message fits and its
memory is granted, the leaf signature is valid under the matrix seeds of both or of neither. -/
structure SameVerdict (alloc : ℕ → Bool) (pk : EvPk Block) (m sig : List UInt8)
    (tag : Vector UInt8 4) : Prop where
  root : ReachesRoot mode (hostDigest .big) (alloc 0) pk sig tag ↔
    ReachesRoot mode (hostDigest .little) (alloc 0) pk sig tag
  leaf : legacy = false → ReachesRoot mode (hostDigest .little) (alloc 0) pk sig tag →
    ∀ σ t1, fswaAt mode sig = some σ → t1At mode sig = some t1 → 1 + 4 + m.length < 2 ^ 64 →
      alloc 1 = true →
        let seed host := hostDigest host (HashCall.matrix pk.rho (readBigEndian tag)).input
        let accepts host :=
          vendored.cryptoSignVerify σ (compositeMessage tag m) (LeafPk.toBuffer ⟨seed host, t1⟩) = 0
        accepts .big ↔ accepts .little

section Verdict

variable {vendored legacy} {alloc : ℕ → Bool} {pk : EvPk Block} {m sig : List UInt8}
  {tag : Vector UInt8 4}

theorem hashLeaf_eq_hostDigest (host : ByteOrder) (t1 : PackedT1 mode) :
    (bytePrimitives host vendored).hashLeaf t1 = hostDigest host (HashCall.leaf mode t1).input :=
  evSha3_256_eq_hostDigest host _

theorem evHashNode_eq_hostDigest (host : ByteOrder) :
    (bytePrimitives host vendored).evHashNode =
      fun L R ↦ hostDigest host (HashCall.node L R).input :=
  funext₂ fun _ _ ↦ evSha3_256_eq_hostDigest host _

theorem evMatrixSeed_eq_hostDigest (host : ByteOrder) (rho : Block) (period : UInt32) :
    evMatrixSeed (bytePrimitives host vendored) false rho period =
      hostDigest host (HashCall.matrix rho period).input :=
  evSha3_256_eq_hostDigest host _

/-- What leads to the root was read. -/
theorem ReachesRoot.readable {hash : List UInt8 → Block} {granted : Bool}
    (hroot : ReachesRoot mode hash granted pk sig tag) :
    (granted = true → (t1At mode sig).isSome = true) ∧
      ∀ l < pk.par.depth.toNat, pathSlot l < (pathBlocks mode sig).length := by
  obtain ⟨dg, hdigest, hbound, -⟩ := hroot
  refine ⟨fun hgranted ↦ ?_, hbound⟩
  rw [if_pos hgranted] at hdigest
  obtain ⟨t1, ht1, -⟩ := Option.map_eq_some_iff.mp hdigest
  rw [ht1, Option.isSome_some]

/-- The verdicts on the leaf signature agree exactly if it is valid under both seeds or neither. -/
theorem leafVerdict_eq_iff {granted : Bool} {fswa : Option (List UInt8)}
    {t1 : Option (PackedT1 mode)} :
    leafVerdict (bytePrimitives .big vendored) legacy granted pk m tag fswa t1 =
        leafVerdict (bytePrimitives .little vendored) legacy granted pk m tag fswa t1 ↔
      (legacy = false → ∀ σ t, fswa = some σ → t1 = some t → 1 + 4 + m.length < 2 ^ 64 →
        granted = true →
          let seed host := hostDigest host (HashCall.matrix pk.rho (readBigEndian tag)).input
          let accepts host := vendored.cryptoSignVerify σ (compositeMessage tag m)
            (LeafPk.toBuffer ⟨seed host, t⟩) = 0
          accepts .big ↔ accepts .little) := by
  rcases t1 with _ | t
  · refine iff_of_true ?_ fun _ _ _ _ ht ↦ absurd ht.symm (Option.some_ne_none _)
    simp only [leafVerdict, Option.bind_none]
  by_cases hm : 2 ^ 64 ≤ 1 + 4 + m.length
  · refine iff_of_true ?_ fun _ _ _ _ _ hm' ↦ absurd hm' (Nat.not_lt.mpr hm)
    simp only [leafVerdict, Option.bind_some, if_pos hm]
  by_cases hgranted : granted = true
  swap
  · refine iff_of_true ?_ fun _ _ _ _ _ _ hgranted' ↦ absurd hgranted' hgranted
    simp only [leafVerdict, Option.bind_some, if_neg hm, if_neg hgranted]
  rcases fswa with _ | σ
  · refine iff_of_true ?_ fun _ _ _ hσ ↦ absurd hσ.symm (Option.some_ne_none _)
    simp only [leafVerdict, Option.bind_some, if_neg hm, if_pos hgranted, Option.map_none]
  simp only [leafVerdict, Option.bind_some, if_neg hm, if_pos hgranted, Option.map_some,
    Option.some.injEq]
  have hcodes (code code' : ℤ) :
      (if code = 0 then (0 : ℤ) else -5) = (if code' = 0 then 0 else -5) ↔
        (code = 0 ↔ code' = 0) := by
    split_ifs with h h' h' <;> simp [h, h']
  rw [hcodes]
  cases legacy with
  | true =>
    refine iff_of_true ?_ fun hlegacy ↦ absurd hlegacy (by decide)
    simp only [evMatrixSeed, if_true, bytePrimitives]
  | false =>
    rw [evMatrixSeed_eq_hostDigest, evMatrixSeed_eq_hostDigest]
    constructor
    · rintro hcode - σ' t' rfl rfl - -
      exact hcode
    · intro hsame
      exact hsame rfl σ t rfl rfl (Nat.not_le.mp hm) hgranted

section Reading

variable (hlength : sig.length = (evSigBytes mode pk.par.depth).toNat)
  (htag : bytesAt sig 0 4 = some tag) (hlifetime : readBigEndian tag < pk.par.T)
include hlength htag hlifetime

/-- The return code of `ev_verify` on a signature of the right length. -/
theorem ret_evVerify (host : ByteOrder) :
    (evVerify host vendored legacy alloc pk m sig).map VerifyResult.ret =
      (if alloc 0 then (t1At mode sig).map fun t1 ↦ hostDigest host (HashCall.leaf mode t1).input
        else some 0).bind fun dg ↦
          if ∀ l < pk.par.depth.toNat, pathSlot l < (pathBlocks mode sig).length then
            if climb (fun L R ↦ hostDigest host (HashCall.node L R).input)
                (pathSiblings (pathBlocks mode sig) pk.root) pk.par.depth.toNat
                (readBigEndian tag).toNat dg = pk.root then
              leafVerdict (bytePrimitives host vendored) legacy (alloc 1) pk m tag
                (fswaAt mode sig) (t1At mode sig)
            else some (-3)
          else none := by
  rw [evVerify, if_neg (not_not.mpr hlength), htag, Option.bind_eq_bind, Option.bind_some,
    ret_evVerifyFields hlifetime, evHashNode_eq_hostDigest]
  cases alloc 0 with
  | false => rfl
  | true =>
    rw [← t1At]
    cases t1At mode sig with
    | none => rfl
    | some t1 =>
      simp only [evMerkleLeafdigest, if_true, Option.bind_eq_bind, Option.bind_some,
        Option.pure_def, hashLeaf_eq_hostDigest, Option.map_some]

theorem ret_evVerify_of_reachesRoot {host : ByteOrder}
    (hroot : ReachesRoot mode (hostDigest host) (alloc 0) pk sig tag) :
    (evVerify host vendored legacy alloc pk m sig).map VerifyResult.ret =
      leafVerdict (bytePrimitives host vendored) legacy (alloc 1) pk m tag (fswaAt mode sig)
        (t1At mode sig) := by
  obtain ⟨dg, hdigest, hbound, hclimb⟩ := hroot
  rw [ret_evVerify hlength htag hlifetime, hdigest, Option.bind_some, if_pos hbound, if_pos hclimb]

theorem ret_evVerify_of_not_reachesRoot {host : ByteOrder}
    (hroot : ¬ ReachesRoot mode (hostDigest host) (alloc 0) pk sig tag) :
    (evVerify host vendored legacy alloc pk m sig).map VerifyResult.ret =
      if (alloc 0 = true → (t1At mode sig).isSome = true) ∧
        ∀ l < pk.par.depth.toNat, pathSlot l < (pathBlocks mode sig).length then some (-3)
      else none := by
  rw [ret_evVerify hlength htag hlifetime]
  rcases hdigest : (if alloc 0 then (t1At mode sig).map fun t1 ↦
    hostDigest host (HashCall.leaf mode t1).input else some 0) with _ | dg
  · have hunread : ¬ (alloc 0 = true → (t1At mode sig).isSome = true) := by
      split_ifs at hdigest with hgranted
      rw [Option.map_eq_none_iff.mp hdigest]
      simp [hgranted]
    rw [Option.bind_none, if_neg fun h ↦ hunread h.1]
  · have hread : alloc 0 = true → (t1At mode sig).isSome = true := by
      intro hgranted
      rw [if_pos hgranted] at hdigest
      obtain ⟨t1, ht1, -⟩ := Option.map_eq_some_iff.mp hdigest
      rw [ht1, Option.isSome_some]
    rw [Option.bind_some]
    by_cases hbound : ∀ l < pk.par.depth.toNat, pathSlot l < (pathBlocks mode sig).length
    · rw [if_pos hbound, if_neg fun hclimb ↦ hroot ⟨dg, hdigest, hbound, hclimb⟩,
        if_pos ⟨hread, hbound⟩]
    · rw [if_neg hbound, if_neg fun h ↦ hbound h.2]

/-- Only a host that finds the root reports its verdict on the leaf signature. -/
theorem ret_evVerify_eq_iff_sameVerdict :
    (evVerify .big vendored legacy alloc pk m sig).map VerifyResult.ret =
        (evVerify .little vendored legacy alloc pk m sig).map VerifyResult.ret ↔
      SameVerdict vendored legacy alloc pk m sig tag := by
  have hmissed {host host' : ByteOrder}
      (hroot : ReachesRoot mode (hostDigest host) (alloc 0) pk sig tag)
      (hroot' : ¬ ReachesRoot mode (hostDigest host') (alloc 0) pk sig tag) :
      (evVerify host vendored legacy alloc pk m sig).map VerifyResult.ret ≠
        (evVerify host' vendored legacy alloc pk m sig).map VerifyResult.ret := by
    rw [ret_evVerify_of_reachesRoot hlength htag hlifetime hroot,
      ret_evVerify_of_not_reachesRoot hlength htag hlifetime hroot', if_pos hroot.readable]
    intro hverdict
    have hcode := leafVerdict_code hverdict
    omega
  by_cases hbig : ReachesRoot mode (hostDigest .big) (alloc 0) pk sig tag
  · by_cases hlittle : ReachesRoot mode (hostDigest .little) (alloc 0) pk sig tag
    · rw [ret_evVerify_of_reachesRoot hlength htag hlifetime hbig,
        ret_evVerify_of_reachesRoot hlength htag hlifetime hlittle, leafVerdict_eq_iff]
      exact ⟨fun hleaf ↦ ⟨iff_of_true hbig hlittle, fun hlegacy _ ↦ hleaf hlegacy⟩,
        fun hsame hlegacy ↦ hsame.leaf hlegacy hlittle⟩
    · exact iff_of_false (hmissed hbig hlittle) fun hsame ↦ hlittle (hsame.root.mp hbig)
  · by_cases hlittle : ReachesRoot mode (hostDigest .little) (alloc 0) pk sig tag
    · exact iff_of_false (hmissed hlittle hbig).symm fun hsame ↦ hbig (hsame.root.mpr hlittle)
    · rw [ret_evVerify_of_not_reachesRoot hlength htag hlifetime hbig,
        ret_evVerify_of_not_reachesRoot hlength htag hlifetime hlittle]
      exact iff_of_true rfl ⟨iff_of_false hbig hlittle, fun _ hroot ↦ absurd hroot hlittle⟩

end Reading

/-- Two hosts return the same code exactly if their verdicts agree at every stage. -/
theorem ret_evVerify_eq_iff :
    (evVerify .big vendored legacy alloc pk m sig).map VerifyResult.ret =
        (evVerify .little vendored legacy alloc pk m sig).map VerifyResult.ret ↔
      ∀ tag, sig.length = (evSigBytes mode pk.par.depth).toNat → bytesAt sig 0 4 = some tag →
        readBigEndian tag < pk.par.T → SameVerdict vendored legacy alloc pk m sig tag := by
  by_cases hlength : sig.length = (evSigBytes mode pk.par.depth).toNat
  swap
  · refine iff_of_true ?_ fun tag hlength' ↦ absurd hlength' hlength
    rw [evVerify, evVerify, if_pos hlength, if_pos hlength]
  rcases htag : bytesAt sig 0 4 with _ | tag
  · refine iff_of_true ?_ fun tag _ hread ↦ by cases hread
    simp only [evVerify, if_neg (not_not.mpr hlength), htag, Option.bind_eq_bind, Option.bind_none]
  by_cases hlifetime : readBigEndian tag < pk.par.T
  swap
  · refine iff_of_true ?_ fun tag' _ hread hlifetime' ↦ ?_
    · simp only [evVerify, if_neg (not_not.mpr hlength), htag, Option.bind_eq_bind,
        Option.bind_some, evVerifyFields, if_pos (UInt32.not_lt.mp hlifetime)]
    · rw [← Option.some.inj hread] at hlifetime'
      exact absurd hlifetime' hlifetime
  rw [ret_evVerify_eq_iff_sameVerdict hlength htag hlifetime]
  constructor
  · intro hsame tag' _ hread _
    rw [← Option.some.inj hread]
    exact hsame
  · intro hsame
    exact hsame tag hlength rfl hlifetime

end Verdict

/-- Digests do not depend on the host exactly for the messages whose SHA3-256 digest reads the same
backwards in each of its words. Two hosts return the same code for a signature exactly if their
verdicts agree about the root and the leaf signature, and have the same outcome whenever
everything one of them hashes is such a message. -/
theorem evSha3_256_host_independent_iff :
    (∀ M : List UInt8,
      DigestIsLaneBytes M ↔ PalindromicWords (Fips202.sha3_256 (Fips202.bitsOfBytes M))) ∧
    (∀ (alloc : ℕ → Bool) (pk : EvPk Block) (m sig : List UInt8),
      (evVerify .big vendored legacy alloc pk m sig).map VerifyResult.ret =
          (evVerify .little vendored legacy alloc pk m sig).map VerifyResult.ret ↔
        ∀ tag, sig.length = (evSigBytes mode pk.par.depth).toNat → bytesAt sig 0 4 = some tag →
          readBigEndian tag < pk.par.T → SameVerdict vendored legacy alloc pk m sig tag) ∧
    ∀ (host host' : ByteOrder) (alloc : ℕ → Bool) (pk : EvPk Block) (m sig : List UInt8)
      (result : VerifyResult Block (PackedT1 mode)),
      evVerify host vendored legacy alloc pk m sig = some result →
      (∀ call ∈ result.calls legacy pk sig, call.HostIndependent) →
      evVerify host' vendored legacy alloc pk m sig = some result :=
  ⟨digestIsLaneBytes_iff, fun _ _ _ _ ↦ ret_evVerify_eq_iff,
    fun _ _ _ _ _ _ _ hverify hcalls ↦ evVerify_host_eq vendored legacy hverify hcalls⟩

end Bytes

/-! ### A failing input -/

/-- The first word of this digest does not read the same backwards. -/
theorem not_palindromicWords_zeroT1 :
    ¬ PalindromicWords (Fips202.sha3_256 (Fips202.bitsOfBytes
      (evDomLeaf :: List.replicate 1280 0))) := by
  intro hwords
  have hbit := hwords 0 (by decide) 0 (by decide) 4 (by decide)
  have hword : (finalState (evDomLeaf :: List.replicate 1280 0)).getD 0 0 = 0x8b03830cf63c4d1b :=
    UInt64.toNat_inj.mp firstWord_zeroT1
  rw [getD_sha3_256 _ (by decide) (by decide) (by decide),
    getD_sha3_256 _ (by decide) (by decide) (by decide), hword] at hbit
  exact absurd hbit (by decide)

/-- The public key of one period that a little-endian host generates from zero randomness. -/
def littlePk : EvPk Block :=
  ⟨.ofDepth 0, 0, evSha3_256 .little (evDomLeaf :: List.replicate 1280 0)⟩

/-- A signature of the empty message in its only period. -/
def littleSig : List UInt8 :=
  sigLayout (bigEndian 0) (List.replicate 2420 0) (Vector.replicate _ 0 : PackedT1 .two) []

/-- The fields of that signature. -/
theorem hasFields_littleSig :
    HasFields .two littlePk littleSig (bigEndian 0) (List.replicate 2420 0)
      (Vector.replicate _ 0) := by
  have hfswa : (List.replicate 2420 (0 : UInt8)).length = cryptoBytes .two := List.length_replicate
  obtain ⟨htag, hread, ht1, -⟩ :=
    fields_sigLayout (bigEndian 0) hfswa (Vector.replicate _ 0 : PackedT1 .two) []
  refine ⟨?_, htag, hread, ht1, ?_⟩
  · exact (length_sigLayout (bigEndian 0) hfswa _ []).trans
      (toNat_evSigBytes .two (Nat.zero_le _)).symm
  · rw [readBigEndian_bigEndian]
    exact (by decide : 0 < (EvParams.ofDepth 0).T)

/-- A digest that depends on the host, and a key and signature of a little-endian host that a
big-endian one rejects. -/
theorem evSha3_256_host_counterexample :
    ¬ DigestIsLaneBytes (evDomLeaf :: List.replicate 1280 0) ∧
    (∃ result, evKeygen (bytePrimitives .little blankVendored) false blankEnv blankPk blankSk
      (EvParams.ofDepth 0).T (some 0) = some result ∧ result.ret = 0 ∧ result.pk = littlePk) ∧
    Accepts .little blankVendored false (fun _ ↦ true) littlePk [] littleSig ∧
    ¬ Accepts .big blankVendored false (fun _ ↦ true) littlePk [] littleSig := by
  have hzeros : evDomLeaf :: (Vector.replicate _ 0 : PackedT1 .two).toList =
      evDomLeaf :: List.replicate 1280 0 := rfl
  refine ⟨fun h ↦ not_palindromicWords_zeroT1 ((digestIsLaneBytes_iff _).mp h), ?_, ?_, ?_⟩
  · obtain ⟨result, hkeygen, hrho, hgenerated⟩ :=
      evKeygen_spec (bytePrimitives .little blankVendored) false blankEnv (fun _ ↦ rfl)
        (Nat.zero_le evMaxDepth) blankPk blankSk (some 0)
    refine ⟨result, hkeygen, hgenerated.ret, ?_⟩
    have hroot : result.pk.root = evSha3_256 .little (evDomLeaf :: List.replicate 1280 0) := by
      rw [hgenerated.coherent.root]
      exact congrArg (fun bytes ↦ evSha3_256 .little (evDomLeaf :: bytes))
        (toList_t1_blankVendored _ _ _ blankEnv.stackSk)
    calc result.pk = ⟨result.pk.par, result.pk.rho, result.pk.root⟩ := rfl
      _ = littlePk := by
        rw [hgenerated.coherent.pkPar, hrho, hroot]
        rfl
  · refine accepts_iff.mpr ⟨_, _, _, hasFields_littleSig, ?_, by simp, rfl, rfl⟩
    exact (opens_depth_zero .little rfl).mpr (congrArg (evSha3_256 .little) hzeros)
  · intro haccept
    obtain ⟨tag, σ, t1, hfields, hopens, -⟩ := accepts_iff.mp haccept
    obtain rfl := Option.some.inj (hfields.t1_eq.symm.trans hasFields_littleSig.t1_eq)
    have hroot := (opens_depth_zero .big rfl).mp hopens
    have hsame : evSha3_256 .big (evDomLeaf :: List.replicate 1280 0) =
        evSha3_256 .little (evDomLeaf :: List.replicate 1280 0) := hroot
    exact not_palindromicWords_zeroT1
      ((digestIsLaneBytes_iff _).mp (digestIsLaneBytes_of_big_eq hsame))

end EvMlDsa
