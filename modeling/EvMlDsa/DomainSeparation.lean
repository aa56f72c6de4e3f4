import EvMlDsa.LeafKey
import EvMlDsa.SeedTreeHistory
import EvMlDsa.Verify

/-!
# Domain separation

Every use the scheme makes of `ev_sha3_256`, as a role with its arguments (`HashCall`), and the
bytes hashed in it. Five roles start with a label byte of their own and a body of fixed length;
the sixth, the public seed of legacy mode, hashes a bare root seed. It is told apart by its length
alone, since no labelled input has 32 bytes. The calls the code makes (`Sha3Call`) pass the bytes
of their role, where the label of a child derivation decides whether it is a left or a right one,
so no two of them share their bytes (`hashCalls_separated`).
-/

set_option autoImplicit false
set_option relaxedAutoImplicit false

namespace EvMlDsa

/-! ### Roles -/

set_option maxRecDepth 2000 in
/-- A call of `ev_sha3_256`: what it is for, and its arguments. -/
inductive HashCall where
  | left (seed : Block)
  | right (seed : Block)
  | node (L R : Block)
  | leaf (mode : DilithiumMode) (t1 : PackedT1 mode)
  | matrix (rho : Block) (period : UInt32)
  | legacyRho (rootSeed : Block)

namespace HashCall

/-- The label byte of a role; the legacy derivation of `rho` has none. -/
def label : HashCall → Option UInt8
  | left _ => some evDomLeft
  | right _ => some evDomRight
  | node _ _ => some evDomNode
  | leaf _ _ => some evDomLeaf
  | matrix _ _ => some evDomMatrix
  | legacyRho _ => none

/-- The bytes of the arguments. -/
def body : HashCall → List UInt8
  | left seed => seed.toList
  | right seed => seed.toList
  | node L R => L.toList ++ R.toList
  | leaf _ t1 => t1.toList
  | matrix rho period => rho.toList ++ (bigEndian period).toList
  | legacyRho rootSeed => rootSeed.toList

/-- The bytes hashed. -/
def input (call : HashCall) : List UInt8 := call.label.toList ++ call.body

/-! ### Separation -/

/-- No body is shorter than a block. -/
theorem le_length_body (call : HashCall) : 32 ≤ call.body.length := by
  cases call with
  | left seed => simp [body]
  | right seed => simp [body]
  | node L R => simp [body]
  | leaf mode t1 =>
    rw [body, Vector.length_toList]
    cases mode <;> decide
  | matrix rho period => simp [body]
  | legacyRho rootSeed => simp [body]

/-- The input without a label has 32 bytes. -/
theorem length_body_of_label_none {call : HashCall} (hlabel : call.label = none) :
    call.body.length = 32 := by
  cases call with
  | legacyRho rootSeed => exact Vector.length_toList
  | _ => exact absurd hlabel (Option.some_ne_none _)

/-- Equal inputs have equal labels and bodies: a labelled input is longer than the bare one. -/
theorem label_body_of_input_eq {call call' : HashCall} (h : call.input = call'.input) :
    call.label = call'.label ∧ call.body = call'.body := by
  have hlength := congrArg List.length h
  have hbody := le_length_body call
  have hbody' := le_length_body call'
  unfold input at h hlength
  cases hlabel : call.label with
  | none =>
    have hbare := length_body_of_label_none hlabel
    cases hlabel' : call'.label with
    | none =>
      rw [hlabel, hlabel'] at h
      exact ⟨rfl, h⟩
    | some dom =>
      rw [hlabel, hlabel', List.length_append, List.length_append] at hlength
      simp only [Option.toList_none, Option.toList_some, List.length_nil,
        List.length_singleton] at hlength
      omega
  | some dom =>
    cases hlabel' : call'.label with
    | none =>
      have hbare := length_body_of_label_none hlabel'
      rw [hlabel, hlabel', List.length_append, List.length_append] at hlength
      simp only [Option.toList_none, Option.toList_some, List.length_nil,
        List.length_singleton] at hlength
      omega
    | some dom' =>
      rw [hlabel, hlabel'] at h
      obtain ⟨rfl, htail⟩ := List.cons.inj h
      exact ⟨rfl, htail⟩

/-- The packed vectors of two parameter sets have different lengths. -/
theorem leaf_eq_of_body_eq {mode mode' : DilithiumMode} {t1 : PackedT1 mode}
    {t1' : PackedT1 mode'} (h : t1.toList = t1'.toList) : leaf mode t1 = leaf mode' t1' := by
  have hlength := congrArg List.length h
  rw [Vector.length_toList, Vector.length_toList] at hlength
  have hmode : mode = mode' := by
    cases mode <;> cases mode' <;> first | rfl | exact absurd hlength (by decide)
  subst hmode
  rw [Vector.toList_inj.mp h]

/-- The input determines the role and its arguments. -/
theorem input_injective {call call' : HashCall} (h : call.input = call'.input) : call = call' := by
  obtain ⟨hlabel, hbody⟩ := label_body_of_input_eq h
  -- different roles have different labels
  cases call <;> cases call' <;> try
    (simp [label, evDomLeft, evDomRight, evDomNode, evDomLeaf, evDomMatrix] at hlabel; done)
  case left.left => rw [Vector.toList_inj.mp hbody]
  case right.right => rw [Vector.toList_inj.mp hbody]
  case node.node =>
    obtain ⟨hL, hR⟩ := List.append_inj hbody (by simp)
    rw [Vector.toList_inj.mp hL, Vector.toList_inj.mp hR]
  case leaf.leaf => exact leaf_eq_of_body_eq hbody
  case matrix.matrix =>
    obtain ⟨hrho, hperiod⟩ := List.append_inj hbody (by simp)
    have hword := congrArg readBigEndian (Vector.toList_inj.mp hperiod)
    rw [readBigEndian_bigEndian, readBigEndian_bigEndian] at hword
    rw [Vector.toList_inj.mp hrho, hword]
  case legacyRho.legacyRho => rw [Vector.toList_inj.mp hbody]

end HashCall

/-! ### The labels of the seed tree -/

section Labels

variable {Seed : Type*} [Zero Seed] (evDeriveChild : Seed → UInt8 → Seed)

/-- The descending loop derives left and right children only. -/
theorem dom_mem_deriveDownLogged (st : EvTreeState Seed) (first depth : ℕ) :
    ∀ call ∈ (deriveDownLogged evDeriveChild st first depth []).2,
      call.dom ∈ [evDomLeft, evDomRight] := by
  suffices h : ∀ calls : List (DeriveCall Seed),
      (∀ call ∈ calls, call.dom ∈ [evDomLeft, evDomRight]) →
      ∀ call ∈ (deriveDownLogged evDeriveChild st first depth calls).2,
        call.dom ∈ [evDomLeft, evDomRight] from h [] (by simp)
  unfold deriveDownLogged
  induction List.range' first (depth - first) generalizing st with
  | nil => exact fun calls hcalls ↦ hcalls
  | cons lvl levels ih =>
    intro calls hcalls
    rw [List.foldlM_cons]
    refine ih _ _ ?_
    intro call hcall
    have hcases : call ∈ calls ++ [⟨st.path.getD lvl 0, evDomLeft⟩] ++
        [⟨st.path.getD lvl 0, evDomRight⟩] := hcall
    rw [List.mem_append, List.mem_append, List.mem_singleton, List.mem_singleton] at hcases
    rcases hcases with (hold | rfl) | rfl
    · exact hcalls call hold
    · exact List.mem_cons_self
    · exact List.mem_cons_of_mem _ List.mem_cons_self

/-- Every call of `ev_derive_child` in a run has one of the two child labels. -/
theorem dom_mem_operationCalls (par : EvParams) (rootSeed : Seed) (j : ℕ) :
    ∀ call ∈ operationCalls evDeriveChild par rootSeed j, call.dom ∈ [evDomLeft, evDomRight] := by
  cases j with
  | zero => exact dom_mem_deriveDownLogged evDeriveChild _ 0 _
  | succ j =>
    rw [operationCalls, evTreeAdvanceLogged]
    dsimp only
    split_ifs
    · simp
    · simp
    · exact dom_mem_deriveDownLogged evDeriveChild _ _ _

end Labels

/-! ### What the code hashes -/

set_option maxRecDepth 2000 in
/-- A call of `ev_sha3_256` in the code: the function that makes it, with its arguments. -/
inductive Sha3Call where
  | deriveChild (call : DeriveCall Block)
  | hashNode (L R : Block)
  | leafdigest (mode : DilithiumMode) (t1 : PackedT1 mode)
  | periodRho (rho : Block) (period : UInt32)
  | keygenRho (rootSeed : Block)

namespace Sha3Call

/-- The bytes that are passed, as the function puts them in its buffer. -/
def buffer : Sha3Call → List UInt8
  | deriveChild call => call.dom :: call.seed.toList
  | hashNode L R => evDomNode :: (L.toList ++ R.toList)
  | leafdigest _ t1 => evDomLeaf :: t1.toList
  | periodRho rho period => evDomMatrix :: (rho.toList ++ (bigEndian period).toList)
  | keygenRho rootSeed => rootSeed.toList

/-- The role of a call. It is the label that tells the derivation of a left child from that of a
right child. -/
def role : Sha3Call → Option HashCall
  | deriveChild call =>
    if call.dom = evDomLeft then some (.left call.seed)
    else if call.dom = evDomRight then some (.right call.seed)
    else none
  | hashNode L R => some (.node L R)
  | leafdigest mode t1 => some (.leaf mode t1)
  | periodRho rho period => some (.matrix rho period)
  | keygenRho rootSeed => some (.legacyRho rootSeed)

/-- The call of a role. -/
def ofRole : HashCall → Sha3Call
  | .left seed => deriveChild ⟨seed, evDomLeft⟩
  | .right seed => deriveChild ⟨seed, evDomRight⟩
  | .node L R => hashNode L R
  | .leaf mode t1 => leafdigest mode t1
  | .matrix rho period => periodRho rho period
  | .legacyRho rootSeed => keygenRho rootSeed

theorem role_ofRole (r : HashCall) : (ofRole r).role = some r := by
  cases r <;> rfl

theorem buffer_ofRole (r : HashCall) : (ofRole r).buffer = r.input := by
  cases r <;> rfl

theorem eq_ofRole {call : Sha3Call} {r : HashCall} (hrole : call.role = some r) :
    call = ofRole r := by
  cases call with
  | deriveChild call =>
    obtain ⟨seed, dom⟩ := call
    simp only [role] at hrole
    split_ifs at hrole with hleft hright
    · obtain rfl := Option.some.inj hrole
      rw [hleft, ofRole]
    · obtain rfl := Option.some.inj hrole
      rw [hright, ofRole]
  | _ =>
    obtain rfl := Option.some.inj hrole
    rfl

/-- Calls that pass the same bytes have the same role and are the same call. -/
theorem buffer_injective {call call' : Sha3Call} {r r' : HashCall} (hrole : call.role = some r)
    (hrole' : call'.role = some r') (h : call.buffer = call'.buffer) : call = call' ∧ r = r' := by
  obtain rfl := eq_ofRole hrole
  obtain rfl := eq_ofRole hrole'
  rw [buffer_ofRole, buffer_ofRole] at h
  obtain rfl := HashCall.input_injective h
  exact ⟨rfl, rfl⟩

end Sha3Call

/-- The operations of a parameter set hash what their calls pass, and of the child derivations the
left one has the label of a left child, the right one that of a right child. -/
structure HashesRoles (host : ByteOrder) {mode : DilithiumMode} {Rnd : Type}
    (vendored : Vendored mode Rnd) : Prop where
  deriveChild : ∀ call : DeriveCall Block,
    (bytePrimitives host vendored).evDeriveChild call.seed call.dom =
      evSha3_256 host (Sha3Call.deriveChild call).buffer
  derived : ∀ par rootSeed j,
    ∀ call ∈ operationCalls (bytePrimitives host vendored).evDeriveChild par rootSeed j,
      call.dom = evDomLeft ∧ (Sha3Call.deriveChild call).role = some (.left call.seed) ∨
        call.dom = evDomRight ∧ (Sha3Call.deriveChild call).role = some (.right call.seed)
  leftChild : ∀ rootSeed level index,
    let node := nodeSeed (bytePrimitives host vendored).evDeriveChild rootSeed
    node (level + 1) (2 * index) = evSha3_256 host (HashCall.left (node level index)).input
  rightChild : ∀ rootSeed level index,
    let node := nodeSeed (bytePrimitives host vendored).evDeriveChild rootSeed
    node (level + 1) (2 * index + 1) = evSha3_256 host (HashCall.right (node level index)).input
  hashNode : ∀ L R,
    (bytePrimitives host vendored).evHashNode L R = evSha3_256 host (Sha3Call.hashNode L R).buffer
  leafdigest : ∀ t1,
    evMerkleLeafdigest (bytePrimitives host vendored) true (some t1) =
      some (evSha3_256 host (Sha3Call.leafdigest mode t1).buffer, [.leaf t1])
  matrixSeed : ∀ rho period,
    evMatrixSeed (bytePrimitives host vendored) false rho period =
      evSha3_256 host (Sha3Call.periodRho rho period).buffer
  legacyRho : ∀ random rootSeed,
    keygenRho (bytePrimitives host vendored) true random rootSeed =
      (0, evSha3_256 host (Sha3Call.keygenRho rootSeed).buffer)

theorem hashesRoles (host : ByteOrder) {mode : DilithiumMode} {Rnd : Type}
    (vendored : Vendored mode Rnd) : HashesRoles host vendored := by
  constructor
  · intro call
    rfl
  · rintro par rootSeed j ⟨seed, dom⟩ hcall
    rcases List.mem_pair.mp (dom_mem_operationCalls _ par rootSeed j _ hcall) with rfl | rfl
    · exact Or.inl ⟨rfl, Sha3Call.role_ofRole (.left seed)⟩
    · exact Or.inr ⟨rfl, Sha3Call.role_ofRole (.right seed)⟩
  · intro rootSeed level index
    exact (evDeriveChild_left_nodeSeed _ rootSeed level index).symm
  · intro rootSeed level index
    exact (evDeriveChild_right_nodeSeed _ rootSeed level index).symm
  · intro L R
    rfl
  · intro t1
    rfl
  · intro rho period
    rfl
  · intro random rootSeed
    rfl

/-- Every part of the scheme hashes the bytes its call passes, in every parameter set, with the
label of its role. Two calls that pass the same bytes are the same call, in the same role and with
the same arguments, and the roles share no bytes either. -/
theorem hashCalls_separated (host : ByteOrder) {Rnd : Type}
    (vendored : (mode : DilithiumMode) → Vendored mode Rnd) :
    (∀ mode, HashesRoles host (vendored mode)) ∧
      (∀ (call call' : Sha3Call) (r r' : HashCall), call.role = some r → call'.role = some r' →
        call.buffer = call'.buffer → call = call' ∧ r = r') ∧
      ∀ call call' : HashCall, call.input = call'.input → call = call' :=
  ⟨fun mode ↦ hashesRoles host (vendored mode),
    fun _ _ _ _ hrole hrole' h ↦ Sha3Call.buffer_injective hrole hrole' h,
    fun _ _ h ↦ HashCall.input_injective h⟩

end EvMlDsa
