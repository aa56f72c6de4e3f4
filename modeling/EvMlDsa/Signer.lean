import EvMlDsa.Keygen

/-!
# Runs of the signer

After key generation the owner of the key calls `ev_sign` and `ev_evolve` in any order. A call of
`ev_evolve` moves a coherent state to the next period (`evEvolve_of_coherent`) or is refused at the
last one (`evEvolve_last`), a call of `ev_sign` on a coherent state writes the canonical fields of
the period (`evSignFields_of_coherent`), and so every run stays coherent at the period counted by
its successful evolutions (`calls_running`).
-/

set_option autoImplicit false
set_option relaxedAutoImplicit false

namespace EvMlDsa

open Library.HashTree Library.PerfectTree

/-- A call of the owner: `ev_sign` on a message, with its signing randomness and the outcome of its
allocation, or `ev_evolve`. -/
inductive Call (Rnd : Type) where
  | sign (m : List UInt8) (rnd : Rnd) (allocated : Bool)
  | evolve

/-- The message leaves room for the five bytes in front of it in a `size_t`. -/
def Call.Fits {Rnd : Type} : Call Rnd → Prop
  | .sign m _ _ => 1 + 4 + m.length < 2 ^ 64
  | .evolve => True

/-- The owner's side of a run: signer state, the return codes of `ev_evolve`, and the messages
signed with what `ev_sign` wrote for them. -/
structure Signer (Block T1 LeafSk Fswa : Type) where
  sk : EvSk Block T1 LeafSk
  codes : List ℤ
  issued : List (List UInt8 × SignResult Block T1 Fswa)

section Scheme

variable {Block T1 LeafSk Fswa Rnd : Type} [Zero Block]
  (prims : Primitives Block T1 LeafSk Fswa Rnd) (legacy : Bool)

/-- The owner holding a fresh key. -/
def Signer.start (sk : EvSk Block T1 LeafSk) : Signer Block T1 LeafSk Fswa :=
  { sk := sk, codes := [], issued := [] }

/-- How many calls of `ev_evolve` returned 0. -/
def Signer.evolved (s : Signer Block T1 LeafSk Fswa) : ℕ := s.codes.count 0

/-- One call. -/
def Signer.call (s : Signer Block T1 LeafSk Fswa) :
    Call Rnd → Option (Signer Block T1 LeafSk Fswa)
  | .sign m rnd allocated => do
    let result ← evSignFields prims s.sk m rnd allocated
    return { s with issued := s.issued ++ [(m, result)] }
  | .evolve => do
    let (code, sk) ← evEvolve prims legacy s.sk
    return { s with sk := sk, codes := s.codes ++ [code] }

/-- A run. -/
def Signer.calls (s : Signer Block T1 LeafSk Fswa) (run : List (Call Rnd)) :
    Option (Signer Block T1 LeafSk Fswa) :=
  run.foldlM (fun s c ↦ s.call prims legacy c) s

/-- A call that ended was made on a message that fits. -/
theorem fits_of_call {s s' : Signer Block T1 LeafSk Fswa} {c : Call Rnd}
    (hcall : s.call prims legacy c = some s') : c.Fits := by
  cases c with
  | sign m rnd allocated =>
    by_contra hlong
    have hoverflow : evSignFields prims s.sk m rnd allocated = none := by
      unfold evSignFields
      rw [if_pos (not_lt.mp hlong)]
    rw [Signer.call, hoverflow] at hcall
    cases hcall
  | evolve => exact trivial

/-- A run that ended was made on messages that fit. -/
theorem fits_of_calls {s s' : Signer Block T1 LeafSk Fswa} {run : List (Call Rnd)}
    (hcalls : s.calls prims legacy run = some s') : ∀ c ∈ run, c.Fits := by
  induction run generalizing s with
  | nil => exact fun _ hc ↦ absurd hc List.not_mem_nil
  | cons c run ih =>
    rw [Signer.calls, List.foldlM_cons] at hcalls
    obtain ⟨s'', hcall, hrest⟩ := Option.bind_eq_some_iff.mp hcalls
    intro c' hc'
    rcases List.mem_cons.mp hc' with rfl | hc'
    · exact fits_of_call prims legacy hcall
    · exact ih hrest c' hc'

/-! ### Refused calls change nothing -/

theorem evTreeAdvance_unchanged (st : EvTreeState Block)
    (hcode : (evTreeAdvance prims.evDeriveChild st).1 ≠ 0) :
    (evTreeAdvance prims.evDeriveChild st).2 = st := by
  simp only [evTreeAdvance] at hcode ⊢
  split_ifs at hcode ⊢ with hlast hguard
  · rfl
  · rfl
  · exact absurd rfl hcode

theorem evEvolve_unchanged {sk sk' : EvSk Block T1 LeafSk} {code : ℤ}
    (hevolve : evEvolve prims legacy sk = some (code, sk')) (hcode : code ≠ 0) : sk' = sk := by
  unfold evEvolve at hevolve
  by_cases htree : (evTreeAdvance prims.evDeriveChild sk.tree).1 ≠ 0
  · simp only [if_pos htree, Option.some.injEq, Prod.mk.injEq] at hevolve
    rw [← hevolve.2, evTreeAdvance_unchanged prims _ htree]
  · simp only [if_neg htree, Option.bind_eq_bind, Option.bind_eq_some_iff, Option.pure_def,
      Option.some.injEq, Prod.mk.injEq] at hevolve
    obtain ⟨_, _, _, _, hzero, _⟩ := hevolve
    exact absurd hzero.symm hcode

/-! ### One call on a coherent state -/

variable {pk : EvPk Block} {rootSeed : Block} {depth p : ℕ}
  {buffers : LeafPk Block T1 × LeafSk} {sk : EvSk Block T1 LeafSk}

/-- Before the last period `ev_evolve` moves to the next one. -/
theorem evEvolve_of_coherent (hdepth : depth ≤ evMaxDepth)
    (hsk : Coherent prims legacy pk rootSeed depth buffers p sk) (hp : p + 1 < 2 ^ depth) :
    ∃ sk', evEvolve prims legacy sk = some (0, sk') ∧
      Coherent prims legacy pk rootSeed depth buffers (p + 1) sk' := by
  have hadvance := evTreeAdvance_stateAt prims.evDeriveChild hdepth rootSeed hp
  have hleaf := evTreeLeaf_stateAt prims.evDeriveChild hdepth rootSeed (p + 1)
  have hkey (lpk : LeafPk Block T1) (lsk : LeafSk) :
      prims.evLeafKeypair (evMatrixSeed prims legacy pk.rho (UInt32.ofNat (p + 1)))
        (nodeSeed prims.evDeriveChild rootSeed depth (p + 1)) lpk lsk =
      leafKeypairAt prims legacy pk.rho rootSeed depth buffers (p + 1) :=
    prims.evLeafKeypair_overwrites _ _ _ _ _ _
  refine ⟨{ sk with
    tree := stateAt prims.evDeriveChild depth rootSeed (p + 1)
    leafRho := evMatrixSeed prims legacy pk.rho (UInt32.ofNat (p + 1))
    leafPk := some (leafKeypairAt prims legacy pk.rho rootSeed depth buffers (p + 1)).1
    leafSk := some (leafKeypairAt prims legacy pk.rho rootSeed depth buffers (p + 1)).2 },
    ?_, hsk.par, hsk.pkPar, rfl, hsk.rho, rfl, rfl, rfl, hsk.mt, hsk.root⟩
  simp only [evEvolve, hsk.tree, hadvance, hleaf, ne_eq, not_true_eq_false, if_false,
    hsk.leafSk, hsk.leafPk, hsk.rho, stateAt_current, hkey, Option.bind_eq_bind, Option.bind_some,
    Option.pure_def]

/-- At the last period `ev_evolve` is refused. -/
theorem evEvolve_last (hsk : Coherent prims legacy pk rootSeed depth buffers p sk)
    (hp : p + 1 = 2 ^ depth) : evEvolve prims legacy sk = some (-1, sk) := by
  have hlast : evTreeAdvance prims.evDeriveChild sk.tree = (-1, sk.tree) := by
    have hperiod : p = 2 ^ depth - 1 := by omega
    have hpar : sk.tree.par = .ofDepth depth := by rw [hsk.tree, stateAt_par]
    have hcurrent : sk.tree.current = UInt32.ofNat (2 ^ depth - 1) := by
      rw [hsk.tree, stateAt_current, hperiod]
    exact evTreeAdvance_last prims.evDeriveChild _ hpar hcurrent
  simp only [evEvolve, hlast]
  rw [if_pos (by decide)]

/-- What `ev_sign` writes at period `p`: nothing without memory, and otherwise the tag, the leaf
signature of the composite message, and, if the leaf signature succeeded, the packed `t1` and the
authentication path of the period. -/
def signFieldsAt (rho rootSeed : Block) (depth : ℕ) (buffers : LeafPk Block T1 × LeafSk) (p : ℕ)
    (m : List UInt8) (rnd : Rnd) (allocated : Bool) : SignResult Block T1 Fswa :=
  if allocated then
    let tag := bigEndian (UInt32.ofNat p)
    let signed := prims.cryptoSignSignature rnd (compositeMessage tag m)
      (leafKeypairAt prims legacy rho rootSeed depth buffers p).2
    if signed.1 ≠ 0 then ⟨-2, some tag, some signed.2, none, none⟩
    else ⟨0, some tag, some signed.2, some (leafT1At prims legacy rho rootSeed depth buffers p),
      some (honestPath prims.evHashNode (leafDigestAt prims legacy rho rootSeed depth buffers) depth
        p)⟩
  else ⟨-1, none, none, none, none⟩

/-- A signing call on a coherent state. -/
theorem evSignFields_of_coherent (hdepth : depth ≤ evMaxDepth)
    (hsk : Coherent prims legacy pk rootSeed depth buffers p sk) (hp : p < 2 ^ depth)
    (m : List UInt8) (hm : 1 + 4 + m.length < 2 ^ 64) (rnd : Rnd) (allocated : Bool) :
    evSignFields prims sk m rnd allocated =
      some (signFieldsAt prims legacy pk.rho rootSeed depth buffers p m rnd allocated) := by
  have hD := toNat_ofDepth_depth hdepth
  have hP := toNat_ofNat_of_lt_two_pow hdepth hp
  have hp' : (UInt32.ofNat p).toNat < 2 ^ (EvParams.ofDepth depth).depth.toNat := by
    rw [hD, hP]
    exact hp
  obtain ⟨events, hpath, -⟩ := evMerklePath_spec prims.evHashNode hsk.mt hp'
  rw [hD, hP] at hpath
  cases allocated
  · simp only [evSignFields, signFieldsAt, if_neg (Nat.not_le.mpr hm), Bool.false_eq_true, if_false]
  · simp only [evSignFields, signFieldsAt, if_neg (Nat.not_le.mpr hm), if_true, hsk.tree,
      stateAt_current, hsk.leafSk, hsk.leafPk, hpath, Option.bind_eq_bind, Option.bind_some,
      Option.pure_def, ne_eq, not_true_eq_false, if_false, leafT1At]
    split_ifs <;> rfl

/-! ### Runs -/

/-- The invariant of a run: the state is the coherent one of the period counted by the successful
evolutions, and what was issued is what `ev_sign` writes at that period or an earlier one. -/
structure Running (pk : EvPk Block) (rootSeed : Block) (depth : ℕ)
    (buffers : LeafPk Block T1 × LeafSk) (s : Signer Block T1 LeafSk Fswa) : Prop where
  inLifetime : s.evolved < 2 ^ depth
  coherent : Coherent prims legacy pk rootSeed depth buffers s.evolved s.sk
  issued : ∀ entry ∈ s.issued, ∃ p ≤ s.evolved, ∃ rnd allocated,
    entry.2 = signFieldsAt prims legacy pk.rho rootSeed depth buffers p entry.1 rnd allocated

/-- A call of `ev_sign` keeps the invariant: the state stays, and the fields of the period are
issued. -/
theorem sign_running (hdepth : depth ≤ evMaxDepth) {s : Signer Block T1 LeafSk Fswa}
    (hs : Running prims legacy pk rootSeed depth buffers s) {m : List UInt8}
    (hm : 1 + 4 + m.length < 2 ^ 64) (rnd : Rnd) (allocated : Bool) :
    ∃ s', s.call prims legacy (.sign m rnd allocated) = some s' ∧
      Running prims legacy pk rootSeed depth buffers s' := by
  have hsign := evSignFields_of_coherent prims legacy hdepth hs.coherent hs.inLifetime m hm rnd
    allocated
  let fields := signFieldsAt prims legacy pk.rho rootSeed depth buffers s.evolved m rnd allocated
  refine ⟨{ s with issued := s.issued ++ [(m, fields)] }, ?_, hs.inLifetime, hs.coherent, ?_⟩
  · simp only [Signer.call, hsign, Option.bind_eq_bind, Option.bind_some, Option.pure_def, fields]
  · intro entry hentry
    rcases List.mem_append.mp hentry with hold | hnew
    · exact hs.issued entry hold
    · obtain rfl := List.mem_singleton.mp hnew
      exact ⟨s.evolved, le_rfl, rnd, allocated, rfl⟩

/-- A call of `ev_evolve` keeps the invariant: it moves to the next period, or is refused and
changes nothing. -/
theorem evolve_running (hdepth : depth ≤ evMaxDepth) {s : Signer Block T1 LeafSk Fswa}
    (hs : Running prims legacy pk rootSeed depth buffers s) :
    ∃ s', s.call prims legacy .evolve = some s' ∧
      Running prims legacy pk rootSeed depth buffers s' := by
  by_cases hmore : s.evolved + 1 < 2 ^ depth
  · obtain ⟨sk', hevolve, hcoherent⟩ := evEvolve_of_coherent prims legacy hdepth hs.coherent hmore
    have hcount : (s.codes ++ [(0 : ℤ)]).count 0 = s.evolved + 1 := by
      simp [Signer.evolved]
    refine ⟨{ s with sk := sk', codes := s.codes ++ [0] }, ?_, ?_, ?_, ?_⟩
    · simp only [Signer.call, hevolve, Option.bind_eq_bind, Option.bind_some, Option.pure_def]
    · rw [Signer.evolved, hcount]
      exact hmore
    · rw [Signer.evolved, hcount]
      exact hcoherent
    · intro entry hentry
      obtain ⟨p, hp, hfields⟩ := hs.issued entry hentry
      rw [Signer.evolved, hcount]
      exact ⟨p, hp.trans (Nat.le_succ _), hfields⟩
  · have hlast : s.evolved + 1 = 2 ^ depth := by
      have := hs.inLifetime
      omega
    have hevolve := evEvolve_last prims legacy hs.coherent hlast
    have hcount : (s.codes ++ [(-1 : ℤ)]).count 0 = s.evolved := by
      simp [Signer.evolved]
    refine ⟨{ s with sk := s.sk, codes := s.codes ++ [-1] }, ?_, ?_, ?_, ?_⟩
    · simp only [Signer.call, hevolve, Option.bind_eq_bind, Option.bind_some, Option.pure_def]
    · rw [Signer.evolved, hcount]
      exact hs.inLifetime
    · rw [Signer.evolved, hcount]
      exact hs.coherent
    · rw [Signer.evolved, hcount]
      exact hs.issued

/-- One call keeps the invariant. -/
theorem call_running (hdepth : depth ≤ evMaxDepth) {s : Signer Block T1 LeafSk Fswa}
    (hs : Running prims legacy pk rootSeed depth buffers s) {c : Call Rnd} (hc : c.Fits) :
    ∃ s', s.call prims legacy c = some s' ∧ Running prims legacy pk rootSeed depth buffers s' := by
  cases c with
  | sign m rnd allocated => exact sign_running prims legacy hdepth hs hc rnd allocated
  | evolve => exact evolve_running prims legacy hdepth hs

/-- Every run from a running state ends, in a running state. -/
theorem calls_running (hdepth : depth ≤ evMaxDepth) {s : Signer Block T1 LeafSk Fswa}
    (hs : Running prims legacy pk rootSeed depth buffers s) (run : List (Call Rnd))
    (hrun : ∀ c ∈ run, c.Fits) :
    ∃ s', s.calls prims legacy run = some s' ∧
      Running prims legacy pk rootSeed depth buffers s' := by
  induction run generalizing s with
  | nil => exact ⟨s, rfl, hs⟩
  | cons c run ih =>
    obtain ⟨s', hcall, hs'⟩ := call_running prims legacy hdepth hs (hrun c List.mem_cons_self)
    obtain ⟨s'', hcalls, hs''⟩ := ih hs' fun c' hc' ↦ hrun c' (List.mem_cons_of_mem _ hc')
    refine ⟨s'', ?_, hs''⟩
    rw [Signer.calls] at hcalls ⊢
    rw [List.foldlM_cons, hcall]
    exact hcalls

/-- A fresh key runs. -/
theorem start_running {result : KeygenResult Block T1 LeafSk}
    (hresult : Generated prims legacy rootSeed depth buffers result) :
    Running prims legacy result.pk rootSeed depth buffers
      (Signer.start result.sk : Signer Block T1 LeafSk Fswa) where
  inLifetime := by
    show 0 < 2 ^ depth
    positivity
  coherent := hresult.coherent
  issued := fun _ hentry ↦ absurd hentry List.not_mem_nil

end Scheme

end EvMlDsa
