import EvMlDsa.SeedTreeHistory
import EvMlDsa.Sha3

/-!
# Leaf seeds of different periods

The seed of a period is the end of a descent from the root, and every step of the descent is a call
of `ev_derive_child` that the run up to the period makes (`descentCall_mem_runCalls`,
`evDeriveChild_descentCall`). Two periods with the same seed give two of these calls with different
inputs and the same digest (`leafSeeds_collide`): their descents turn apart at some level, and from
the leaves up the first level with different inputs is the collision.
-/

set_option autoImplicit false
set_option relaxedAutoImplicit false

namespace EvMlDsa

open Library.PerfectTree

/-! ### The calls of a descent -/

section Descent

variable {Seed : Type*} (evDeriveChild : Seed → UInt8 → Seed)

/-- The call by which the descent to `leaf` leaves a level. -/
def descentCall (rootSeed : Seed) (depth leaf level : ℕ) : DeriveCall Seed where
  seed := nodeSeed evDeriveChild rootSeed level (leaf / 2 ^ (depth - level))
  dom := if leaf.testBit (depth - 1 - level) then evDomRight else evDomLeft

/-- Every call of a descent returns the seed the next one is given, and the last one the seed of the
leaf. -/
theorem evDeriveChild_descentCall (rootSeed : Seed) {depth level : ℕ} (hlevel : level < depth)
    (leaf : ℕ) :
    evDeriveChild (descentCall evDeriveChild rootSeed depth leaf level).seed
        (descentCall evDeriveChild rootSeed depth leaf level).dom =
      nodeSeed evDeriveChild rootSeed (level + 1) (leaf / 2 ^ (depth - (level + 1))) := by
  have hheight : depth - level = depth - (level + 1) + 1 := by omega
  have hbit : (leaf / 2 ^ (depth - (level + 1))).testBit 0 =
      leaf.testBit (depth - 1 - level) := by
    rw [Nat.testBit_div_two_pow, Nat.zero_add]
    congr 1
    omega
  unfold nodeSeed
  rw [nodeLabel_succ, Nat.div_div_eq_div_mul, ← pow_succ, ← hheight, hbit]
  rfl

/-- The run up to a period makes the calls of the descent to it. -/
theorem descentCall_mem_runCalls [Zero Seed] (rootSeed : Seed) {depth leaf level : ℕ}
    (hdepth : depth ≤ evMaxDepth) (hleaf : leaf < 2 ^ depth) (hlevel : level < depth) :
    descentCall evDeriveChild rootSeed depth leaf level ∈
      runCalls evDeriveChild (.ofDepth depth) rootSeed leaf := by
  have hfirst : leaf / 2 ^ (depth - level) * 2 ^ (depth - level) ≤ leaf := Nat.div_mul_le_self _ _
  have hnode : (level, leaf / 2 ^ (depth - level)) ∈
      (List.range (leaf + 1)).flatMap (nodesStartingAt depth) :=
    List.mem_flatMap.mpr ⟨_, List.mem_range.mpr (by omega), mem_nodesStartingAt.mpr ⟨hlevel, rfl⟩⟩
  rw [runCalls_eq evDeriveChild hdepth hleaf]
  refine List.mem_flatMap.mpr ⟨_, hnode, ?_⟩
  unfold descentCall expansion
  split_ifs
  · exact List.mem_cons_of_mem _ List.mem_cons_self
  · exact List.mem_cons_self

end Descent

/-! ### Collisions -/

/-- The bytes `ev_derive_child` hashes. -/
def DeriveCall.input (call : DeriveCall Block) : List UInt8 := call.dom :: call.seed.toList

theorem DeriveCall.length_input (call : DeriveCall Block) : call.input.length = 33 := by
  simp [DeriveCall.input]

theorem DeriveCall.input_injective {call call' : DeriveCall Block} (h : call.input = call'.input) :
    call = call' := by
  obtain ⟨hdom, hseed⟩ := List.cons.inj h
  cases call
  cases call'
  congr 1
  exact Vector.toList_inj.mp hseed

/-- On some level the descents to two leaves hash two different inputs of 33 bytes to the same
digest, in calls the runs up to the leaves make. -/
def DescentsCollide (host : ByteOrder) (rootSeed : Block) (depth p q : ℕ) : Prop :=
  ∃ level < depth,
    let call n := descentCall (evDeriveChild host) rootSeed depth n level
    (call p).input ≠ (call q).input ∧
    (call p).input.length = 33 ∧ (call q).input.length = 33 ∧
    evSha3_256 host (call p).input = evSha3_256 host (call q).input ∧
    call p ∈ runCalls (evDeriveChild host) (.ofDepth depth) rootSeed p ∧
    call q ∈ runCalls (evDeriveChild host) (.ofDepth depth) rootSeed q

theorem descentCall_injective_turn (rootSeed : Block) (host : ByteOrder) {depth level p q : ℕ}
    (h : descentCall (evDeriveChild host) rootSeed depth p level =
      descentCall (evDeriveChild host) rootSeed depth q level) :
    p.testBit (depth - 1 - level) = q.testBit (depth - 1 - level) := by
  have hdom : (if p.testBit (depth - 1 - level) then evDomRight else evDomLeft) =
      if q.testBit (depth - 1 - level) then evDomRight else evDomLeft :=
    congrArg DeriveCall.dom h
  cases hp : p.testBit (depth - 1 - level) with
  | false =>
    cases hq : q.testBit (depth - 1 - level) with
    | false => rfl
    | true => simp [hp, hq, evDomLeft, evDomRight] at hdom
  | true =>
    cases hq : q.testBit (depth - 1 - level) with
    | false => simp [hp, hq, evDomLeft, evDomRight] at hdom
    | true => rfl

/-- Two periods have different leaf seeds, or their descents show a collision. -/
theorem leafSeeds_collide (host : ByteOrder) {depth p q : ℕ} (hdepth : depth ≤ evMaxDepth)
    (hp : p < 2 ^ depth) (hq : q < 2 ^ depth) (hne : p ≠ q) (rootSeed : Block) :
    let init := evTreeInit (evDeriveChild host) (.ofDepth depth) rootSeed
    let leafSeed n := evTreeLeaf (advanceTimes (evDeriveChild host) n init).2
    leafSeed p ≠ leafSeed q ∨ DescentsCollide host rootSeed depth p q := by
  dsimp only
  rw [advanceTimes_eq_stateAt (evDeriveChild host) hdepth hp,
    advanceTimes_eq_stateAt (evDeriveChild host) hdepth hq,
    evTreeLeaf_stateAt (evDeriveChild host) hdepth, evTreeLeaf_stateAt (evDeriveChild host) hdepth]
  rcases Classical.em (nodeSeed (evDeriveChild host) rootSeed depth p =
    nodeSeed (evDeriveChild host) rootSeed depth q) with hsame | hdiffer
  · right
    obtain ⟨level, hlevel, hparents, hchildren⟩ := exists_coinciding_children hp hq hne hsame
    refine ⟨level, hlevel, ?_, DeriveCall.length_input _, DeriveCall.length_input _, hchildren,
      descentCall_mem_runCalls _ rootSeed hdepth hp hlevel,
      descentCall_mem_runCalls _ rootSeed hdepth hq hlevel⟩
    intro hinput
    have hcall := DeriveCall.input_injective hinput
    exact hparents (Prod.ext (congrArg DeriveCall.seed hcall)
      (descentCall_injective_turn rootSeed host hcall))
  · exact Or.inl hdiffer

/-- Periods 3 and 5 of a lifetime of 8 periods. -/
theorem leafSeeds_collide_witness :
    let init := evTreeInit (evDeriveChild .little) (.ofDepth 3) (Vector.replicate 32 7)
    let leafSeed n := evTreeLeaf (advanceTimes (evDeriveChild .little) n init).2
    leafSeed 3 ≠ leafSeed 5 ∨ DescentsCollide .little (Vector.replicate 32 7) 3 3 5 :=
  leafSeeds_collide .little (by decide : 3 ≤ evMaxDepth) (by decide : 3 < 2 ^ 3)
    (by decide : 5 < 2 ^ 3) (by decide) (Vector.replicate 32 7)

end EvMlDsa
