import EvMlDsa.ForwardSecurity
import EvMlDsa.KeygenFailure

/-!
# What key generation leaves in its stack frame

`ev_keygen` scrubs its copy of the root seed only on the return of -2, which is never taken. For
every accepted lifetime and on every other return the copy is still there, and a return of -3 or -4
leaves the initialised seed tree with the caller (`seeds_of_evKeygen`). So no call that derives
anything meets the erasure requirement `ErasesSeeds`, and a refused one meets it exactly on memory
that met it before (`evKeygen_erasesSeeds_iff`).
-/

set_option autoImplicit false
set_option relaxedAutoImplicit false

namespace EvMlDsa

open Library.PerfectTree

section Scheme

variable {Block T1 LeafSk Fswa Rnd : Type} [Zero Block]
  (prims : Primitives Block T1 LeafSk Fswa Rnd) (legacy : Bool)

/-- A seed the local variables hold. -/
inductive KeygenLocals.Holds (locals : KeygenLocals Block) : Block → Prop
  | rootSeed : Holds locals locals.rootSeed
  | walk (slot : Slot) : Holds locals (locals.walk.slot slot)
  | loopLeafSeed : Holds locals locals.loopLeafSeed
  | leafSeed : Holds locals locals.leafSeed

/-- `seed` is `ancestor` or derived from it, in any number of steps. -/
def Derives {Seed : Type*} (evDeriveChild : Seed → UInt8 → Seed) (ancestor seed : Seed) : Prop :=
  ∃ turns, descend (seedChild evDeriveChild) ancestor turns = seed

/-- No seed of this call is left behind: none in the local variables, and none with the caller if
the call failed. If it returned 0, the local variables determine no leaf seed of a period the owner
has left since. -/
structure ErasesSeeds (rootSeed : Block) (result : KeygenResult Block T1 LeafSk) : Prop where
  locals : ∀ seed, result.locals.Holds seed → ¬ Derives prims.evDeriveChild rootSeed seed
  tree : result.ret ≠ 0 →
    ∀ slot, ¬ Derives prims.evDeriveChild rootSeed (result.sk.tree.slot slot)
  past : result.ret = 0 → ∀ (run : List (Call Rnd)) (s : Signer Block T1 LeafSk Fswa),
    (Signer.start result.sk).calls prims legacy run = some s → ∀ q < s.evolved,
      ∀ seed, result.locals.Holds seed →
        ¬ Derives prims.evDeriveChild seed
          (nodeSeed prims.evDeriveChild rootSeed result.sk.par.depth.toNat q)

/-- Every leaf seed is derived from the root seed. -/
theorem derives_nodeSeed {Seed : Type*} (evDeriveChild : Seed → UInt8 → Seed) (rootSeed : Seed)
    (level index : ℕ) :
    Derives evDeriveChild rootSeed (nodeSeed evDeriveChild rootSeed level index) :=
  ⟨msbBits level index, rfl⟩

variable {prims legacy} {env : KeygenEnv Block T1 LeafSk} {pk : EvPk Block}
  {sk : EvSk Block T1 LeafSk} {rootSeedIn : Option Block} {result : KeygenResult Block T1 LeafSk}

/-- On every return for an accepted lifetime the root seed is still in its local variable, and the
caller's tree is the initialised one. -/
theorem seeds_of_evKeygen {depth : ℕ} (hdepth : depth ≤ evMaxDepth)
    (hkeygen : evKeygen prims legacy env pk sk (EvParams.ofDepth depth).T rootSeedIn =
      some result) :
    result.locals.rootSeed = rootSeedIn.getD (env.random 0) ∧
      result.sk.tree = stateAt prims.evDeriveChild depth (rootSeedIn.getD (env.random 0)) 0 := by
  have hcall := evKeygen_accepted prims legacy env hdepth pk sk rootSeedIn
  cases hdigs : env.alloc 0 with
  | false =>
    have hfailed := hcall.trans (keygenTail_of_no_digests prims legacy env _ _ _ _ hdigs)
    obtain rfl := Option.some.inj (hfailed.symm.trans hkeygen)
    exact ⟨rfl, rfl⟩
  | true =>
    cases hlevels : env.alloc (1 + 2 ^ depth) with
    | false =>
      have hfailed := hcall.trans (keygenTail_of_no_levels prims legacy env hdepth _ _ _ _ rfl hdigs
        hlevels)
      obtain rfl := Option.some.inj (hfailed.symm.trans hkeygen)
      exact ⟨rfl, rfl⟩
    | true =>
      obtain ⟨mt, hashed, -, -, hfinished⟩ :=
        evKeygen_of_levels prims legacy env hdepth pk sk rootSeedIn hdigs hlevels
      have hreturned := hfinished.symm.trans hkeygen
      split_ifs at hreturned
      obtain rfl := Option.some.inj hreturned
      exact ⟨rfl, rfl⟩

/-- A failed call leaves the leaf seed of the first period in the caller's tree. -/
theorem exists_slot_of_evKeygen {depth : ℕ} (hdepth : depth ≤ evMaxDepth)
    (hkeygen : evKeygen prims legacy env pk sk (EvParams.ofDepth depth).T rootSeedIn =
      some result) :
    ∃ slot, result.sk.tree.slot slot =
      nodeSeed prims.evDeriveChild (rootSeedIn.getD (env.random 0)) depth 0 := by
  rw [(seeds_of_evKeygen hdepth hkeygen).2]
  exact exists_slot_of_frontierNode prims.evDeriveChild hdepth _ .leaf

/-- The root seed left behind determines the leaf seed of every period. -/
theorem derives_leaf_of_evKeygen {depth : ℕ} (hdepth : depth ≤ evMaxDepth)
    (hkeygen : evKeygen prims legacy env pk sk (EvParams.ofDepth depth).T rootSeedIn =
      some result) (q : ℕ) :
    Derives prims.evDeriveChild result.locals.rootSeed
      (nodeSeed prims.evDeriveChild (rootSeedIn.getD (env.random 0)) depth q) := by
  rw [(seeds_of_evKeygen hdepth hkeygen).1]
  exact derives_nodeSeed prims.evDeriveChild _ depth q

theorem not_erasesSeeds_of_accepted {T : UInt32} (hT : Accepted T)
    (hkeygen : evKeygen prims legacy env pk sk T rootSeedIn = some result) :
    ¬ ErasesSeeds prims legacy (rootSeedIn.getD (env.random 0)) result := by
  obtain ⟨depth, hdepth, rfl⟩ := (accepted_iff_exists_depth T).mp hT
  intro herases
  apply herases.locals _ .rootSeed
  rw [(seeds_of_evKeygen hdepth hkeygen).1]
  exact ⟨[], rfl⟩

variable (prims legacy env pk sk rootSeedIn result)

/-- A call of `ev_keygen` that returns has erased its seeds exactly if its lifetime was refused, so
that it derived nothing, and none of them was in its stack frame or in the caller's tree before. -/
theorem evKeygen_erasesSeeds_iff (T : UInt32)
    (hkeygen : evKeygen prims legacy env pk sk T rootSeedIn = some result) :
    let rootSeed := rootSeedIn.getD (env.random 0)
    ErasesSeeds prims legacy rootSeed result ↔
      ¬ Accepted T ∧
        (∀ seed, env.locals.Holds seed → ¬ Derives prims.evDeriveChild rootSeed seed) ∧
        ∀ slot, ¬ Derives prims.evDeriveChild rootSeed (sk.tree.slot slot) := by
  intro rootSeed
  by_cases hT : Accepted T
  · constructor
    · intro herases
      exact absurd herases (not_erasesSeeds_of_accepted hT hkeygen)
    · rintro ⟨hrefused, -⟩
      exact absurd hT hrefused
  · rw [evKeygen_of_not_accepted prims legacy env pk sk hT] at hkeygen
    obtain rfl := Option.some.inj hkeygen
    constructor
    · intro herases
      exact ⟨hT, herases.locals, herases.tree (show (-1 : ℤ) ≠ 0 by decide)⟩
    · rintro ⟨-, hlocals, htree⟩
      constructor
      · exact hlocals
      · intro _
        exact htree
      · intro hzero
        exact absurd hzero (show (-1 : ℤ) ≠ 0 by decide)

end Scheme

/-! ### Failing inputs -/

/-- Zeroed memory holds no seed of a random root. -/
theorem not_derives_zero (n : ℕ) : ¬ Derives Term.child (.name n : Term Unit) 0 := by
  rintro ⟨turns, hturns⟩
  have hroot : descend (seedChild Term.child) (.name n : Term Unit) turns =
      descend (seedChild Term.child) 0 [] := hturns
  have hsame := Term.freeChild.descend_injective (Term.underived_name n) Term.underived_zero hroot
  exact absurd hsame.1 nofun

/-- A refused lifetime of three periods, on zeroed memory. -/
theorem evKeygen_erasesSeeds_witness :
    ErasesSeeds (symbolicPrimitives Unit) true (.name 0)
      ⟨-1, ⟨⟨0, 0⟩, 0, 0⟩,
        ⟨⟨0, 0⟩, symbolicEnv.locals.walk, ⟨⟨0, 0⟩, none, 0⟩, 0, 0, none, none⟩, symbolicEnv.locals,
        []⟩ := by
  have hslot (slot : Slot) : symbolicEnv.locals.walk.slot slot = 0 := by
    cases slot with
    | path level => exact Vector.getElem_replicate _
    | future level => exact Vector.getElem_replicate _
  refine (evKeygen_erasesSeeds_iff (symbolicPrimitives Unit) true symbolicEnv _ _ none _ 3 rfl).mpr
    ⟨by decide, ?_, ?_⟩
  · intro seed hholds
    cases hholds with
    | walk slot =>
      rw [hslot]
      exact not_derives_zero 0
    | rootSeed => exact not_derives_zero 0
    | loopLeafSeed => exact not_derives_zero 0
    | leafSeed => exact not_derives_zero 0
  · intro slot
    rw [hslot]
    exact not_derives_zero 0

/-- A root seed of 32 bytes. -/
def ownerSeed : Block := Vector.replicate 32 0x5a

/-- For four periods, with every allocation granted, the root seed left behind determines the leaf
seeds of all periods. Without the digest array the call fails and leaves the leaf seed of the first
period with the caller as well. -/
theorem evKeygen_erasesSeeds_counterexample :
    let prims := bytePrimitives .little blankVendored
    (∃ result, evKeygen prims false blankEnv blankPk blankSk (EvParams.ofDepth 2).T
        (some ownerSeed) = some result ∧ result.ret = 0 ∧
      result.locals.rootSeed = ownerSeed ∧ ownerSeed ≠ 0 ∧
      (∀ q, Derives prims.evDeriveChild result.locals.rootSeed
        (nodeSeed prims.evDeriveChild ownerSeed 2 q)) ∧
      ¬ ErasesSeeds prims false ownerSeed result) ∧
    ∃ result slot, evKeygen prims false (failingEnv 0) blankPk blankSk (EvParams.ofDepth 2).T
        (some ownerSeed) = some result ∧ result.ret = -3 ∧
      result.sk.tree.slot slot = nodeSeed prims.evDeriveChild ownerSeed 2 0 ∧
      ¬ ErasesSeeds prims false ownerSeed result := by
  intro prims
  have hdepth : 2 ≤ evMaxDepth := by decide
  have haccepted : Accepted (EvParams.ofDepth 2).T := by decide
  constructor
  · obtain ⟨result, hkeygen, -, hgenerated⟩ :=
      evKeygen_spec prims false blankEnv (fun _ ↦ rfl) hdepth blankPk blankSk (some ownerSeed)
    refine ⟨result, hkeygen, hgenerated.ret, ?_, by decide, ?_, ?_⟩
    · exact (seeds_of_evKeygen hdepth hkeygen).1
    · intro q
      exact derives_leaf_of_evKeygen hdepth hkeygen q
    · exact not_erasesSeeds_of_accepted haccepted hkeygen
  · have hkeygen := (evKeygen_accepted prims false (failingEnv 0) hdepth blankPk blankSk
      (some ownerSeed)).trans (keygenTail_of_no_digests prims false _ _ _ _ _ rfl)
    obtain ⟨slot, hslot⟩ := exists_slot_of_evKeygen hdepth hkeygen
    exact ⟨_, slot, hkeygen, rfl, hslot, not_erasesSeeds_of_accepted haccepted hkeygen⟩

end EvMlDsa
