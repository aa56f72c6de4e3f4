import EvMlDsa.SeedTreeCover
import EvMlDsa.Verify

/-!
# The symbolic model

Terms over which the hashes and the leaf layer are free (`Term`, `symbolicPrimitives`), and what an
adversary can deduce from the terms it was handed (`Knows`). Nothing can be inverted but what the
bytes of a leaf secret key show.

A set of terms that contains what was handed over and is closed under deduction contains everything
the adversary learns. The set used here (`Safe`) takes every hash and every public key to be known
and is decided by the seeds alone: `Knows.safe`.
-/

set_option autoImplicit false
set_option relaxedAutoImplicit false

namespace EvMlDsa

open Library.PerfectTree

/-- Terms: the zero block, independent random values, and what the functions of the scheme make of
terms. -/
inductive Term (Rnd : Type) where
  | zero
  | zeroSk
  | name (n : ℕ)
  | child (seed : Term Rnd) (dom : UInt8)
  | node (left right : Term Rnd)
  | leafDigest (t1 : Term Rnd)
  | periodRho (rho : Term Rnd) (period : UInt32)
  | rootRho (seed : Term Rnd)
  | leafT1 (rhoP leafSeed : Term Rnd)
  | leafSk (rhoP leafSeed : Term Rnd)
  | signature (rnd : Rnd) (cm : List UInt8) (sk : Term Rnd)
deriving DecidableEq

namespace Term

variable {Rnd : Type}

instance : Zero (Term Rnd) := ⟨.zero⟩

/-- Verification accepts what was signed: a signature on exactly this message, made with the secret
key that belongs to the public key. -/
def verify [DecidableEq Rnd] (σ : Term Rnd) (cm : List UInt8) (pk : LeafPk (Term Rnd) (Term Rnd)) :
    ℤ :=
  match σ, pk.t1 with
  | .signature _ cm' (.leafSk rhoP leafSeed), .leafT1 rhoP' leafSeed' =>
    if cm' = cm ∧ rhoP = pk.rho ∧ rhoP' = pk.rho ∧ leafSeed = leafSeed' then 0 else -1
  | _, _ => -1

theorem verify_eq_zero [DecidableEq Rnd] {σ : Term Rnd} {cm : List UInt8}
    {pk : LeafPk (Term Rnd) (Term Rnd)} (hverify : verify σ cm pk = 0) :
    ∃ rnd leafSeed, σ = .signature rnd cm (.leafSk pk.rho leafSeed) ∧
      pk.t1 = .leafT1 pk.rho leafSeed := by
  unfold verify at hverify
  split at hverify
  · rename_i rnd cm' rhoP leafSeed rhoP' leafSeed' ht1
    split_ifs at hverify with hsame
    obtain ⟨rfl, rfl, rfl, rfl⟩ := hsame
    exact ⟨rnd, leafSeed, rfl, ht1⟩
  · exact absurd hverify (by decide)

end Term

section Operations

variable (Rnd : Type) [DecidableEq Rnd]

/-- The operations of the scheme as constructors. -/
def symbolicPrimitives : Primitives (Term Rnd) (Term Rnd) (Term Rnd) (Term Rnd) Rnd where
  evDeriveChild := .child
  evHashNode := .node
  hashLeaf := .leafDigest
  evPeriodRho := .periodRho
  hashRoot := .rootRho
  evLeafKeypair rhoP leafSeed _ _ := (⟨rhoP, .leafT1 rhoP leafSeed⟩, .leafSk rhoP leafSeed)
  zeroSk := .zeroSk
  cryptoSignSignature rnd cm sk := (0, .signature rnd cm sk)
  cryptoSignVerify := Term.verify
  evLeafKeypair_overwrites _ _ _ _ _ _ := rfl
  evLeafKeypair_rho _ _ _ _ := rfl

end Operations

section Deduction

variable {Rnd : Type}

/-! ### Freeness -/

theorem Term.freeChild : FreeChild (seedChild (@Term.child Rnd)) := by
  intro first second turn turn' h
  simp only [seedChild, Term.child.injEq] at h
  refine ⟨h.1, ?_⟩
  cases turn <;> cases turn' <;> first | rfl | exact absurd h.2 (by decide)

theorem Term.underived_zero : Underived (seedChild (@Term.child Rnd)) 0 :=
  nofun

theorem Term.underived_name (n : ℕ) : Underived (seedChild (@Term.child Rnd)) (.name n) :=
  nofun

theorem symbolic_collisionFree [DecidableEq Rnd]
    (inputs : List (HashInput (Term Rnd) (Term Rnd))) :
    CollisionFree (symbolicPrimitives Rnd) inputs := by
  intro x _ y _ hdigest
  cases x <;> cases y <;> simp_all [HashInput.digest, symbolicPrimitives]

/-! ### Deduction -/

/-- What can be deduced from the exposed terms: every random value but the secret one, everything
the public functions make of known terms, leaf keys of known seeds, signatures by known leaf secret
keys, and the matrix seed and the packed `t1` of a known leaf secret key. -/
inductive Knows (secret : ℕ) (exposed : Term Rnd → Prop) : Term Rnd → Prop where
  | exposed {t : Term Rnd} : exposed t → Knows secret exposed t
  | zero : Knows secret exposed .zero
  | zeroSk : Knows secret exposed .zeroSk
  | name {n : ℕ} : n ≠ secret → Knows secret exposed (.name n)
  | child {seed : Term Rnd} (dom : UInt8) : Knows secret exposed seed →
      Knows secret exposed (.child seed dom)
  | node {left right : Term Rnd} : Knows secret exposed left → Knows secret exposed right →
      Knows secret exposed (.node left right)
  | leafDigest {t1 : Term Rnd} : Knows secret exposed t1 → Knows secret exposed (.leafDigest t1)
  | periodRho {rho : Term Rnd} (period : UInt32) : Knows secret exposed rho →
      Knows secret exposed (.periodRho rho period)
  | rootRho {seed : Term Rnd} : Knows secret exposed seed → Knows secret exposed (.rootRho seed)
  | leafT1 {rhoP leafSeed : Term Rnd} : Knows secret exposed rhoP →
      Knows secret exposed leafSeed → Knows secret exposed (.leafT1 rhoP leafSeed)
  | leafSk {rhoP leafSeed : Term Rnd} : Knows secret exposed rhoP →
      Knows secret exposed leafSeed → Knows secret exposed (.leafSk rhoP leafSeed)
  | signature (rnd : Rnd) (cm : List UInt8) {sk : Term Rnd} : Knows secret exposed sk →
      Knows secret exposed (.signature rnd cm sk)
  | rhoOfSk {rhoP leafSeed : Term Rnd} : Knows secret exposed (.leafSk rhoP leafSeed) →
      Knows secret exposed rhoP
  | t1OfSk {rhoP leafSeed : Term Rnd} : Knows secret exposed (.leafSk rhoP leafSeed) →
      Knows secret exposed (.leafT1 rhoP leafSeed)

/-- An upper bound of what can be deduced from held seeds and issued signatures: a seed has to be
held or be the child of a safe seed, a leaf secret key needs its seed, a signature needs its key
unless it was issued, and hashes and public keys are known. -/
def Safe (secret : ℕ) (held issued : Term Rnd → Prop) : Term Rnd → Prop
  | .name n => n ≠ secret ∨ held (.name n)
  | .child seed dom => Safe secret held issued seed ∨ held (.child seed dom)
  | .leafSk rhoP leafSeed => Safe secret held issued rhoP ∧ Safe secret held issued leafSeed
  | .signature rnd cm sk => Safe secret held issued sk ∨ issued (.signature rnd cm sk)
  | _ => True

variable {secret : ℕ} {held issued exposed : Term Rnd → Prop}

/-- If everything exposed is safe, everything known is. -/
theorem Knows.safe (hexposed : ∀ t, exposed t → Safe secret held issued t) {t : Term Rnd}
    (hknows : Knows secret exposed t) : Safe secret held issued t := by
  induction hknows with
  | exposed ht => exact hexposed _ ht
  | name hne => exact Or.inl hne
  | child dom _ hseed => exact Or.inl hseed
  | leafSk _ _ hrho hseed => exact ⟨hrho, hseed⟩
  | signature rnd cm _ hsk => exact Or.inl hsk
  | rhoOfSk _ hsk => exact hsk.1
  | zero | zeroSk | node | leafDigest | periodRho | rootRho | leafT1 | t1OfSk => exact trivial

/-- A held seed of the tree is safe. -/
theorem safe_of_held_nodeSeed {level index : ℕ}
    (hheld : held (nodeSeed Term.child (.name secret) level index)) :
    Safe secret held issued (nodeSeed Term.child (.name secret) level index) := by
  cases level with
  | zero => exact Or.inr hheld
  | succ level =>
    rw [nodeSeed, nodeLabel_succ] at hheld ⊢
    exact Or.inr hheld

/-- A safe seed of the tree can be derived from the slots that hold seeds. -/
theorem obtainable_of_safe {st : EvTreeState (Term Rnd)} {level index : ℕ}
    (hsafe : Safe secret (fun t ↦ ∃ slot, st.slot slot = t) issued
      (nodeSeed Term.child (.name secret) level index)) :
    Obtainable Term.child st (nodeSeed Term.child (.name secret) level index) := by
  induction level generalizing index with
  | zero =>
    rcases hsafe with hne | ⟨slot, hslot⟩
    · exact absurd rfl hne
    · exact ⟨slot, [], hslot⟩
  | succ level ih =>
    rw [nodeSeed, nodeLabel_succ] at hsafe ⊢
    rcases hsafe with hparent | ⟨slot, hslot⟩
    · obtain ⟨slot, turns, hturns⟩ := ih hparent
      refine ⟨slot, turns ++ [index.testBit 0], ?_⟩
      rw [descend_append, hturns]
      rfl
    · exact ⟨slot, [], hslot⟩

end Deduction

end EvMlDsa
