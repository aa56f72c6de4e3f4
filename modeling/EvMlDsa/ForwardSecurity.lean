import EvMlDsa.Signer
import EvMlDsa.Symbolic

/-!
# Forward security

The signer state of some period of a run is handed to an adversary, with the public key and every
signature issued so far (`Exposed`). All of it is safe for the seeds the state still holds
(`Running.safe_of_exposed`), so a signature the adversary can produce for an earlier period is one
that `ev_sign` issued at that period, on the same message and with the same fields
(`forward_secure`).
-/

set_option autoImplicit false
set_option relaxedAutoImplicit false

namespace EvMlDsa

open Library.HashTree Library.PerfectTree

/-- The owner of a key over terms. -/
abbrev SymbolicSigner (Rnd : Type) := Signer (Term Rnd) (Term Rnd) (Term Rnd) (Term Rnd)

section Symbolic

variable {Rnd : Type}

/-- What an exposure hands over: the seeds and values of the public key, every slot of the tree
state whether valid or not, the cached leaf key, the commitment tree, and the fields of every
signature issued. -/
inductive Exposed (pk : EvPk (Term Rnd)) (s : SymbolicSigner Rnd) : Term Rnd → Prop where
  | pkRho : Exposed pk s pk.rho
  | pkRoot : Exposed pk s pk.root
  | slot (slot : Slot) : Exposed pk s (s.sk.tree.slot slot)
  | skRho : Exposed pk s s.sk.rho
  | leafRho : Exposed pk s s.sk.leafRho
  | leafPkRho {leafPk : LeafPk (Term Rnd) (Term Rnd)} : s.sk.leafPk = some leafPk →
      Exposed pk s leafPk.rho
  | leafPkT1 {leafPk : LeafPk (Term Rnd) (Term Rnd)} : s.sk.leafPk = some leafPk →
      Exposed pk s leafPk.t1
  | leafSk {leafSk : Term Rnd} : s.sk.leafSk = some leafSk → Exposed pk s leafSk
  | treeNode {cells : Array (Option (Term Rnd))} {i : ℕ} {node : Term Rnd} :
      s.sk.mt.levels = some cells → cells[i]? = some (some node) → Exposed pk s node
  | issuedFswa {entry : List UInt8 × SignResult (Term Rnd) (Term Rnd) (Term Rnd)} {σ : Term Rnd} :
      entry ∈ s.issued → entry.2.fswa = some σ → Exposed pk s σ
  | issuedT1 {entry : List UInt8 × SignResult (Term Rnd) (Term Rnd) (Term Rnd)} {t1 : Term Rnd} :
      entry ∈ s.issued → entry.2.t1 = some t1 → Exposed pk s t1
  | issuedPath {entry : List UInt8 × SignResult (Term Rnd) (Term Rnd) (Term Rnd)}
      {path : List (Term Rnd)} {block : Term Rnd} :
      entry ∈ s.issued → entry.2.path = some path → block ∈ path → Exposed pk s block

variable [DecidableEq Rnd] (legacy : Bool)

/-! ### What is exposed is safe -/

section Safe

variable {secret : ℕ} {held issued : Term Rnd → Prop}

/-- The matrix seed of a public seed is safe. -/
theorem safe_evMatrixSeed {rho : Term Rnd} (hrho : Safe secret held issued rho) (period : UInt32) :
    Safe secret held issued (evMatrixSeed (symbolicPrimitives Rnd) legacy rho period) := by
  unfold evMatrixSeed
  split_ifs
  · exact hrho
  · exact trivial

/-- The nodes of the commitment tree are safe. -/
theorem safe_treeHash (rho rootSeed : Term Rnd) (depth : ℕ)
    (buffers : LeafPk (Term Rnd) (Term Rnd) × Term Rnd) (height index : ℕ) :
    Safe secret held issued (treeHash (symbolicPrimitives Rnd).evHashNode
      (leafDigestAt (symbolicPrimitives Rnd) legacy rho rootSeed depth buffers) height index) := by
  cases height <;> exact trivial

end Safe

variable {pk : EvPk (Term Rnd)} {secret depth : ℕ}
  {buffers : LeafPk (Term Rnd) (Term Rnd) × Term Rnd} {s : SymbolicSigner Rnd}

/-- The leaf signatures issued in a run. -/
def SymbolicSigner.Issued (s : SymbolicSigner Rnd) (σ : Term Rnd) : Prop :=
  ∃ entry ∈ s.issued, entry.2.fswa = some σ

/-- What a run issued: nothing where the allocation failed, and otherwise the fields of the period,
with a signature by its leaf key. -/
theorem Running.issued_cases {rootSeed : Term Rnd}
    (hs : Running (symbolicPrimitives Rnd) legacy pk rootSeed depth buffers s)
    {entry : List UInt8 × SignResult (Term Rnd) (Term Rnd) (Term Rnd)} (hentry : entry ∈ s.issued) :
    entry.2 = ⟨-1, none, none, none, none⟩ ∨
      ∃ p ≤ s.evolved, ∃ rnd, entry.2 =
        ⟨0, some (bigEndian (UInt32.ofNat p)),
          some (.signature rnd (compositeMessage (bigEndian (UInt32.ofNat p)) entry.1)
            (leafKeypairAt (symbolicPrimitives Rnd) legacy pk.rho rootSeed depth buffers p).2),
          some (leafT1At (symbolicPrimitives Rnd) legacy pk.rho rootSeed depth buffers p),
          some (honestPath (symbolicPrimitives Rnd).evHashNode
            (leafDigestAt (symbolicPrimitives Rnd) legacy pk.rho rootSeed depth buffers) depth
            p)⟩ := by
  obtain ⟨p, hp, rnd, allocated, hfields⟩ := hs.issued entry hentry
  cases allocated
  · exact Or.inl hfields
  · exact Or.inr ⟨p, hp, rnd, hfields⟩

/-- A signature made for the tag of a period was issued with the fields of that period, for the
message it signs. -/
theorem Running.mem_issued_of_signature {rootSeed : Term Rnd} (hdepth : depth ≤ evMaxDepth)
    (hs : Running (symbolicPrimitives Rnd) legacy pk rootSeed depth buffers s)
    {tag : Vector UInt8 4} {m : List UInt8} {rnd : Rnd} {sk : Term Rnd}
    (hissued : s.Issued (.signature rnd (compositeMessage tag m) sk)) :
    (m, ⟨0, some tag, some (.signature rnd (compositeMessage tag m) sk),
      some (leafT1At (symbolicPrimitives Rnd) legacy pk.rho rootSeed depth buffers
        (readBigEndian tag).toNat),
      some (honestPath (symbolicPrimitives Rnd).evHashNode
        (leafDigestAt (symbolicPrimitives Rnd) legacy pk.rho rootSeed depth buffers) depth
        (readBigEndian tag).toNat)⟩) ∈ s.issued := by
  obtain ⟨⟨m', fields⟩, hentry, hfswa⟩ := hissued
  simp only at hfswa
  rcases hs.issued_cases legacy hentry with hfields | ⟨p, hp, rnd', hfields⟩
  · simp only at hfields
    rw [hfields] at hfswa
    cases hfswa
  · simp only at hfields
    subst hfields
    obtain ⟨rfl, hcm, rfl⟩ := Term.signature.inj (Option.some.inj hfswa)
    obtain ⟨rfl, rfl⟩ := compositeMessage_injective hcm
    rw [readBigEndian_bigEndian,
      toNat_ofNat_of_lt_two_pow hdepth (lt_of_le_of_lt hp hs.inLifetime)]
    exact hentry

/-- Everything an exposure hands over is safe for the seeds held and the signatures issued. -/
theorem Running.safe_of_exposed (hdepth : depth ≤ evMaxDepth)
    (hs : Running (symbolicPrimitives Rnd) legacy pk (.name secret) depth buffers s)
    (hrho : Safe secret (fun t ↦ ∃ slot, s.sk.tree.slot slot = t) s.Issued pk.rho) {t : Term Rnd}
    (hexposed : Exposed pk s t) :
    Safe secret (fun t ↦ ∃ slot, s.sk.tree.slot slot = t) s.Issued t := by
  have hcoherent := hs.coherent
  have htree : s.sk.tree = stateAt Term.child depth (.name secret) s.evolved := hcoherent.tree
  cases hexposed with
  | pkRho => exact hrho
  | pkRoot =>
    rw [hcoherent.root]
    exact safe_treeHash legacy _ _ _ _ _ _
  | slot slot =>
    rcases slot_stateAt_cases Term.child depth (.name secret) s.evolved slot with
      hempty | ⟨level, index, -, hslot⟩
    · rw [← htree] at hempty
      rw [hempty]
      exact trivial
    · rw [← htree] at hslot
      rw [hslot]
      exact safe_of_held_nodeSeed ⟨slot, hslot⟩
  | skRho =>
    rw [hcoherent.rho]
    exact hrho
  | leafRho =>
    rw [hcoherent.leafRho]
    exact safe_evMatrixSeed legacy hrho _
  | leafPkRho hleafPk =>
    obtain rfl := Option.some.inj (hcoherent.leafPk.symm.trans hleafPk)
    exact safe_evMatrixSeed legacy hrho _
  | leafPkT1 hleafPk =>
    obtain rfl := Option.some.inj (hcoherent.leafPk.symm.trans hleafPk)
    exact trivial
  | leafSk hleafSk =>
    obtain rfl := Option.some.inj (hcoherent.leafSk.symm.trans hleafSk)
    obtain ⟨slot, hslot⟩ := exists_slot_of_frontierNode Term.child hdepth (.name secret)
      (@FrontierNode.leaf depth s.evolved)
    refine ⟨safe_evMatrixSeed legacy hrho _, safe_of_held_nodeSeed ⟨slot, ?_⟩⟩
    rw [htree]
    exact hslot
  | treeNode hlevels hcell =>
    obtain ⟨height, index, rfl⟩ := hcoherent.mt.exists_treeHash_eq hlevels hcell
    exact safe_treeHash legacy _ _ _ _ height index
  | issuedFswa hentry hσ =>
    have hissued : s.Issued t := ⟨_, hentry, hσ⟩
    rcases hs.issued_cases legacy hentry with hfields | ⟨p, -, rnd, hfields⟩
    · rw [hfields] at hσ
      cases hσ
    · rw [hfields] at hσ
      obtain rfl := Option.some.inj hσ
      exact Or.inr hissued
  | issuedT1 hentry ht1 =>
    rcases hs.issued_cases legacy hentry with hfields | ⟨p, -, rnd, hfields⟩
    · rw [hfields] at ht1
      cases ht1
    · rw [hfields] at ht1
      obtain rfl := Option.some.inj ht1
      exact trivial
  | issuedPath hentry hpath hblock =>
    rcases hs.issued_cases legacy hentry with hfields | ⟨p, -, rnd, hfields⟩
    · rw [hfields] at hpath
      cases hpath
    · rw [hfields] at hpath
      obtain rfl := Option.some.inj hpath
      obtain ⟨j, -, rfl⟩ := List.mem_map.mp hblock
      exact safe_treeHash legacy _ _ _ _ _ _

/-! ### Forward security -/

/-- `ev_verify` on terms: a signature of the right length has as many path blocks as levels. -/
def evVerifyTerms (alloc : ℕ → Bool) (pk : EvPk (Term Rnd)) (m : List UInt8) (tag : Vector UInt8 4)
    (σ t1 : Term Rnd) (path : List (Term Rnd)) : Option (VerifyResult (Term Rnd) (Term Rnd)) :=
  if path.length ≠ pk.par.depth.toNat then some ⟨-1, []⟩
  else evVerifyFields (symbolicPrimitives Rnd) legacy alloc pk m tag (some σ) (some t1) path

/-- What acceptance says of a signature on terms: every field but the leaf signature is the one of
the tagged period, and the leaf signature is one made with the leaf key of that period on exactly
the composite message. -/
theorem canonical_of_evVerifyTerms {rootSeed : Term Rnd}
    {result : KeygenResult (Term Rnd) (Term Rnd) (Term Rnd)}
    (hresult : Generated (symbolicPrimitives Rnd) legacy rootSeed depth buffers result)
    (hdepth : depth ≤ evMaxDepth) {alloc : ℕ → Bool} {m : List UInt8} {tag : Vector UInt8 4}
    {σ t1 : Term Rnd} {path : List (Term Rnd)} {hashed : List (HashInput (Term Rnd) (Term Rnd))}
    (haccept : evVerifyTerms legacy alloc result.pk m tag σ t1 path = some ⟨0, hashed⟩) :
    let q := (readBigEndian tag).toNat
    q < 2 ^ depth ∧
      t1 = leafT1At (symbolicPrimitives Rnd) legacy result.pk.rho rootSeed depth buffers q ∧
      path = honestPath (symbolicPrimitives Rnd).evHashNode
        (leafDigestAt (symbolicPrimitives Rnd) legacy result.pk.rho rootSeed depth buffers) depth
        q ∧
      ∃ rnd, σ = .signature rnd (compositeMessage tag m)
        (leafKeypairAt (symbolicPrimitives Rnd) legacy result.pk.rho rootSeed depth buffers
          q).2 := by
  intro q
  unfold evVerifyTerms at haccept
  split_ifs at haccept with hlength
  · exact absurd (congrArg VerifyResult.ret (Option.some.inj haccept)) (show (-1 : ℤ) ≠ 0 by decide)
  rw [not_not, hresult.coherent.pkPar, toNat_ofDepth_depth hdepth] at hlength
  rw [evVerifyFields_accepts_iff] at haccept
  obtain ⟨htag, dg, leafHashed, pairs, σ', t1', hdigest, hopens, hσ, ht1, ⟨-, -, hvalid⟩, -⟩ :=
    haccept
  obtain rfl := Option.some.inj hσ
  obtain rfl := Option.some.inj ht1
  obtain ⟨hq, hleaf, htake⟩ := canonical_of_opens (symbolicPrimitives Rnd) legacy hresult hdepth
    htag hopens (symbolic_collisionFree _)
  -- a failed allocation leaves the zero block, which is no leaf of the tree
  have hcommitted : t1 =
      leafT1At (symbolicPrimitives Rnd) legacy result.pk.rho rootSeed depth buffers q := by
    cases halloc : alloc 0 <;> rw [halloc] at hdigest <;>
      obtain ⟨rfl, -⟩ := Prod.mk.inj (Option.some.inj hdigest)
    · exact absurd hleaf nofun
    · exact Term.leafDigest.inj hleaf
  obtain ⟨rnd, leafSeed, hsigned, hkey⟩ := Term.verify_eq_zero hvalid
  refine ⟨hq, hcommitted, ?_, rnd, ?_⟩
  · rw [← htake, ← hlength, List.take_length]
  · have hseed := Term.leafT1.inj (hkey.symm.trans hcommitted)
    rw [hsigned, hseed.2]
    simp only [leafKeypairAt, UInt32.ofNat_toNat, q]
    rfl

/-- Forward security. Let `ev_keygen` succeed on a secret root seed, with every allocation granted
and, outside legacy mode, an independent public seed, and let any run of `ev_sign` and `ev_evolve`
calls follow. If the complete signer state is then exposed, with the public key and all signatures
issued, and `ev_verify` accepts a signature with a tag before the current period whose leaf
signature the adversary knows, then `ev_sign` issued this signature, in every field, for this
message. -/
theorem forward_secure (env : KeygenEnv (Term Rnd) (Term Rnd) (Term Rnd))
    (halloc : ∀ i, env.alloc i = true) (pk : EvPk (Term Rnd))
    (sk : EvSk (Term Rnd) (Term Rnd) (Term Rnd)) (T : UInt32) (rootSeedIn : Option (Term Rnd))
    (secret : ℕ) (hroot : rootSeedIn.getD (env.random 0) = .name secret)
    (hrho : legacy = false → ∃ rho, rho ≠ secret ∧ env.random 1 = .name rho)
    (result : KeygenResult (Term Rnd) (Term Rnd) (Term Rnd))
    (hkeygen : evKeygen (symbolicPrimitives Rnd) legacy env pk sk T rootSeedIn = some result)
    (hret : result.ret = 0) (run : List (Call Rnd)) (s : SymbolicSigner Rnd)
    (hcalls : (Signer.start result.sk).calls (symbolicPrimitives Rnd) legacy run = some s)
    (alloc : ℕ → Bool) (m : List UInt8) (tag : Vector UInt8 4) (σ t1 : Term Rnd)
    (path : List (Term Rnd)) (hashed : List (HashInput (Term Rnd) (Term Rnd)))
    (hknows : Knows secret (Exposed result.pk s) σ)
    (haccept : evVerifyTerms legacy alloc result.pk m tag σ t1 path = some ⟨0, hashed⟩)
    (hpast : readBigEndian tag < s.sk.tree.current) :
    (m, ⟨0, some tag, some σ, some t1, some path⟩) ∈ s.issued := by
  obtain ⟨depth, hdepth, rfl, hpublic, hresult⟩ :=
    exists_depth_of_evKeygen _ legacy env halloc pk sk hkeygen hret
  rw [hroot] at hresult hpublic
  obtain ⟨s', hcalls', hs⟩ := calls_running (symbolicPrimitives Rnd) legacy hdepth
    (start_running _ legacy hresult) run (fits_of_calls _ legacy hcalls)
  obtain rfl : s = s' := Option.some.inj (hcalls.symm.trans hcalls')
  have htree : s.sk.tree = stateAt Term.child depth (.name secret) s.evolved := hs.coherent.tree
  have hpast' : (readBigEndian tag).toNat < s.evolved := by
    rw [htree, stateAt_current, UInt32.lt_iff_toNat_lt,
      toNat_ofNat_of_lt_two_pow hdepth hs.inLifetime] at hpast
    exact hpast
  have hrhoSafe : Safe secret (fun t ↦ ∃ slot, s.sk.tree.slot slot = t) s.Issued result.pk.rho := by
    rw [hpublic]
    cases legacy
    · obtain ⟨rho, hindependent, hrandom⟩ := hrho rfl
      rw [if_neg Bool.false_ne_true, hrandom]
      exact Or.inl hindependent
    · exact trivial
  have hsafe := hknows.safe fun t ht ↦ hs.safe_of_exposed legacy hdepth hrhoSafe ht
  obtain ⟨hq, rfl, rfl, rnd, rfl⟩ := canonical_of_evVerifyTerms legacy hresult hdepth haccept
  rcases hsafe with hsk | hissued
  · -- the leaf key of a past period needs a seed that no slot leads to
    have hobtain := obtainable_of_safe hsk.2
    rw [htree] at hobtain
    exact absurd ((obtainable_leaf_iff Term.freeChild Term.underived_zero
      (Term.underived_name secret) nofun hdepth hs.inLifetime hq).mp hobtain) (by omega)
  · exact hs.mem_issued_of_signature legacy hdepth hissued

end Symbolic

/-! ### A run over terms -/

/-- Every allocation granted, independent random values, and zeros in memory. -/
def symbolicEnv : KeygenEnv (Term Unit) (Term Unit) (Term Unit) where
  alloc _ := true
  random := .name
  locals := ⟨0, ⟨⟨0, 0⟩, 0, Vector.replicate _ 0, Vector.replicate _ 0, Vector.replicate _ 0⟩, 0, 0⟩
  stackPk := ⟨0, 0⟩
  stackSk := 0
  heapPk := ⟨0, 0⟩
  heapSk := 0

/-- The leaf signature of a message at period 0 of two, in new mode. -/
def pastFswa : Term Unit :=
  .signature () (compositeMessage (bigEndian 0) [1, 2, 3])
    (.leafSk (.periodRho (.name 1) 0) (.child (.name 0) evDomLeft))

/-- The packed `t1` of period 0. -/
def pastT1 : Term Unit := .leafT1 (.periodRho (.name 1) 0) (.child (.name 0) evDomLeft)

/-- The authentication path of period 0. -/
def pastPath : List (Term Unit) :=
  [.leafDigest (.leafT1 (.periodRho (.name 1) 1) (.child (.name 0) evDomRight))]

set_option maxRecDepth 4000 in
/-- A lifetime of two periods: after a signature at period 0 and an evolution the adversary replays
the signature, which is accepted and was issued. -/
theorem forward_secure_witness :
    ∃ (result : KeygenResult (Term Unit) (Term Unit) (Term Unit)) (s : SymbolicSigner Unit)
      (hashed : List (HashInput (Term Unit) (Term Unit))),
      (Signer.start result.sk).calls (symbolicPrimitives Unit) false
        [.sign [1, 2, 3] () true, .evolve] = some s ∧
      Knows 0 (Exposed result.pk s) pastFswa ∧
      evVerifyTerms false (fun _ ↦ true) result.pk [1, 2, 3] (bigEndian 0) pastFswa pastT1
        pastPath = some ⟨0, hashed⟩ ∧
      ([1, 2, 3], ⟨0, some (bigEndian 0), some pastFswa, some pastT1, some pastPath⟩) ∈
        s.issued := by
  obtain ⟨result, hkeygen⟩ : ∃ result, evKeygen (symbolicPrimitives Unit) false symbolicEnv
      ⟨⟨0, 0⟩, 0, 0⟩ ⟨⟨0, 0⟩, symbolicEnv.locals.walk, ⟨⟨0, 0⟩, none, 0⟩, 0, 0, none, none⟩ 2 none =
        some result := ⟨_, rfl⟩
  obtain ⟨s, hcalls⟩ : ∃ s, (Signer.start result.sk).calls (symbolicPrimitives Unit) false
      [.sign [1, 2, 3] () true, .evolve] = some s := by
    obtain rfl := Option.some.inj hkeygen
    exact ⟨_, rfl⟩
  have hissued : s.issued =
      [([1, 2, 3], ⟨0, some (bigEndian 0), some pastFswa, some pastT1, some pastPath⟩)] := by
    obtain rfl := Option.some.inj hkeygen
    obtain rfl := Option.some.inj hcalls
    rfl
  have hknows : Knows 0 (Exposed result.pk s) pastFswa :=
    .exposed (.issuedFswa (hissued ▸ List.mem_singleton_self _) rfl)
  obtain ⟨hashed, haccept⟩ : ∃ hashed, evVerifyTerms false (fun _ ↦ true) result.pk [1, 2, 3]
      (bigEndian 0) pastFswa pastT1 pastPath = some ⟨0, hashed⟩ := by
    obtain rfl := Option.some.inj hkeygen
    exact ⟨_, rfl⟩
  have hpast : readBigEndian (bigEndian 0) < s.sk.tree.current := by
    obtain rfl := Option.some.inj hkeygen
    obtain rfl := Option.some.inj hcalls
    decide
  have hret : result.ret = 0 := by
    obtain rfl := Option.some.inj hkeygen
    rfl
  exact ⟨result, s, hashed, hcalls, hknows, haccept,
    forward_secure false symbolicEnv (fun _ ↦ rfl) _ _ 2 none 0 rfl
      (fun _ ↦ ⟨1, by decide, rfl⟩) result hkeygen hret [.sign [1, 2, 3] () true, .evolve] s hcalls
      (fun _ ↦ true) [1, 2, 3] (bigEndian 0) pastFswa pastT1 pastPath hashed hknows haccept hpast⟩

end EvMlDsa
