import EvMlDsa.Lattice.SignCorrect

/-!
# The re-certification baseline

`bench_rechain.c` composes plain ML-DSA keys into a chain: the key of a period is certified under
the key of the period before it, the first one under a root key, and a verifier that holds the root
key walks the certificates up to the period of a signature. An honest chain verifies at every
distance (`rechain_verifies`).
-/

set_option autoImplicit false
set_option relaxedAutoImplicit false

namespace EvMlDsa

/-- A certified key. -/
structure CertifiedKey (Pk Sk Sig : Type) where
  pk : Pk
  sk : Sk
  cert : Sig
  certlen : UInt64

/-- `pkc[i]`, `skc[i]`, `cert[i]` and `certlen[i]`. -/
abbrev PeriodCert (mode : DilithiumMode) :=
  CertifiedKey (Vector UInt8 (cryptoPublickeybytes mode)) (Vector UInt8 (cryptoSecretkeybytes mode))
    (Vector UInt8 (cryptoBytes mode))

section Rechain

variable (mode : DilithiumMode) (xof : Xof) (fuel : ℕ)

/-- The setup loop from entry `i` on: `seed i` and `rnd i` are what `randombytes` delivers for its
key and its certificate, `parentSk` is the key in front of it. The return code of
`crypto_sign_signature` is not looked at. -/
def rechainSetup (seed : ℕ → Vector UInt8 seedBytes) (rnd : ℕ → Vector UInt8 rndBytes) :
    (count i : ℕ) → (parentSk : Vector UInt8 (cryptoSecretkeybytes mode)) →
    Option (List (PeriodCert mode))
  | 0, _, _ => some []
  | count + 1, i, parentSk => do
    let (pk, sk) ← cryptoSignKeypair mode xof fuel (seed i) (Vector.replicate _ 0)
      (Vector.replicate _ 0)
    let out ← cryptoSignSignature mode xof fuel (Vector.replicate _ 0)
      (UInt64.ofNat (cryptoBytes mode)) pk.toList [] (rnd i) parentSk
    let chain ← rechainSetup seed rnd count (i + 1) sk
    return { pk := pk, sk := sk, cert := out.sig, certlen := out.siglen } :: chain

/-- The loop over the certificates: `ok`. -/
def verifyCerts : (parentPk : Vector UInt8 (cryptoPublickeybytes mode)) →
    (certs : List (PeriodCert mode)) → Option Bool
  | _, [] => some true
  | parentPk, key :: certs => do
    let vr ← cryptoSignVerify mode xof fuel (key.cert.toList.take key.certlen.toNat)
      key.pk.toList [] parentPk
    if vr ≠ 0 then return false else verifyCerts key.pk certs

/-- One verification at distance `p` of the signature in the first `plen` bytes of the buffer;
`pkc[p]` outside of the chain is not read. -/
def rechainVerify (rootPk : Vector UInt8 (cryptoPublickeybytes mode))
    (chain : List (PeriodCert mode)) (p : ℕ) (msg : List UInt8)
    (sig : Vector UInt8 (cryptoBytes mode)) (plen : UInt64) : Option Bool := do
  let ok ← verifyCerts mode xof fuel rootPk (chain.take (p + 1))
  if ok then
    let key ← chain[p]?
    let vr ← cryptoSignVerify mode xof fuel (sig.toList.take plen.toNat) msg [] key.pk
    return vr == 0
  else return false

variable {mode xof fuel}

/-- A signature with empty context verifies over the length that was stored. -/
theorem KeyPair.verify_taken {pk : Vector UInt8 (cryptoPublickeybytes mode)}
    {sk : Vector UInt8 (cryptoSecretkeybytes mode)} {parts : KeyParts mode}
    (hkey : KeyPair xof fuel pk sk parts) {sig : Vector UInt8 (cryptoBytes mode)} {siglen : UInt64}
    {m : List UInt8} {rnd : Vector UInt8 rndBytes} {out : SignatureOutput mode}
    (hsign : cryptoSignSignature mode xof fuel sig siglen m [] rnd sk = some out) {more : ℕ}
    (hmore : fuel ≤ more) :
    cryptoSignVerify mode xof more (out.sig.toList.take out.siglen.toNat) m [] pk = some 0 := by
  obtain ⟨hret, hsiglen⟩ := cryptoSignSignature_code hsign
  have hret : out.ret = 0 := hret
  have hsiglen : out.siglen = UInt64.ofNat (cryptoBytes mode) := hsiglen
  have hbytes : (UInt64.ofNat (cryptoBytes mode)).toNat = cryptoBytes mode :=
    UInt64.toNat_ofNat_of_lt' (by cases mode <;> decide)
  have hwhole : out.sig.toList.take out.siglen.toNat = out.sig.toList := by
    rw [hsiglen, hbytes]
    exact List.take_of_length_le (Vector.length_toList).le
  rw [hwhole, hkey.verify_signature hsign hmore, hret]

/-- Every key of an honest chain is a key pair, and its certificates verify under the key in front
of it. -/
theorem rechainSetup_spec {seed : ℕ → Vector UInt8 seedBytes} {rnd : ℕ → Vector UInt8 rndBytes}
    {count i : ℕ} {parentPk : Vector UInt8 (cryptoPublickeybytes mode)}
    {parentSk : Vector UInt8 (cryptoSecretkeybytes mode)} {parent : KeyParts mode}
    (hparent : KeyPair xof fuel parentPk parentSk parent) {chain : List (PeriodCert mode)}
    (hchain : rechainSetup mode xof fuel seed rnd count i parentSk = some chain) {more : ℕ}
    (hmore : fuel ≤ more) :
    (∀ key ∈ chain, ∃ parts, KeyPair xof fuel key.pk key.sk parts) ∧
      ∀ p, verifyCerts mode xof more parentPk (chain.take p) = some true := by
  induction count generalizing i parentPk parentSk parent chain with
  | zero =>
    obtain rfl : [] = chain := Option.some.inj hchain
    refine ⟨fun _ hkey ↦ absurd hkey List.not_mem_nil, fun p ↦ ?_⟩
    rw [List.take_nil]
    rfl
  | succ count ih =>
    rw [rechainSetup, Option.bind_eq_bind, Option.bind_eq_some_iff] at hchain
    obtain ⟨⟨pk, sk⟩, hkeypair, hchain⟩ := hchain
    rw [Option.bind_eq_bind, Option.bind_eq_some_iff] at hchain
    obtain ⟨out, hcert, hchain⟩ := hchain
    rw [Option.bind_eq_bind, Option.bind_eq_some_iff] at hchain
    obtain ⟨rest, hrest, hchain⟩ := hchain
    obtain rfl := Option.some.inj hchain
    obtain ⟨parts, hkey⟩ := cryptoSignKeypair_keyPair hkeypair
    obtain ⟨hkeys, hcerts⟩ := ih hkey hrest
    refine ⟨fun key hmem ↦ ?_, fun p ↦ ?_⟩
    · rcases List.mem_cons.mp hmem with rfl | hmem
      · exact ⟨parts, hkey⟩
      · exact hkeys key hmem
    · rcases p with _ | p
      · rfl
      · rw [List.take_succ_cons, verifyCerts, hparent.verify_taken hcert hmore]
        exact hcerts p

/-- A root key, a chain of certified keys below it, and a message signed at any period `p`, all with
any randomness: the walk over the `p + 1` certificates and the signature succeeds. -/
theorem rechain_verifies {rootSeed : Vector UInt8 seedBytes}
    {pk : Vector UInt8 (cryptoPublickeybytes mode)} {sk : Vector UInt8 (cryptoSecretkeybytes mode)}
    {root : Vector UInt8 (cryptoPublickeybytes mode) × Vector UInt8 (cryptoSecretkeybytes mode)}
    (hroot : cryptoSignKeypair mode xof fuel rootSeed pk sk = some root)
    {seed : ℕ → Vector UInt8 seedBytes} {rnd : ℕ → Vector UInt8 rndBytes} {count : ℕ}
    {chain : List (PeriodCert mode)}
    (hchain : rechainSetup mode xof fuel seed rnd count 0 root.2 = some chain) {p : ℕ}
    {key : PeriodCert mode} (hkey : chain[p]? = some key) {sig : Vector UInt8 (cryptoBytes mode)}
    {plen : UInt64} {msg : List UInt8} {msgRnd : Vector UInt8 rndBytes} {out : SignatureOutput mode}
    (hsign : cryptoSignSignature mode xof fuel sig plen msg [] msgRnd key.sk = some out) {more : ℕ}
    (hmore : fuel ≤ more) :
    rechainVerify mode xof more root.1 chain p msg out.sig out.siglen = some true := by
  obtain ⟨parts, hpair⟩ := cryptoSignKeypair_keyPair hroot
  obtain ⟨hkeys, hcerts⟩ := rechainSetup_spec hpair hchain hmore
  obtain ⟨keyParts, hkeyPair⟩ := hkeys key (List.mem_of_getElem? hkey)
  have hverify := hkeyPair.verify_taken hsign hmore
  rw [rechainVerify, hcerts (p + 1), hkey]
  simp only [Option.bind_eq_bind, Option.bind_some, if_true, hverify]
  rfl

end Rechain

/-- With the constant output functions chains of every length are set up. -/
theorem exists_rechainSetup (fuel : ℕ) (seed : ℕ → Vector UInt8 seedBytes)
    (rnd : ℕ → Vector UInt8 rndBytes) (count i : ℕ)
    {parentPk : Vector UInt8 (cryptoPublickeybytes .two)}
    {parentSk : Vector UInt8 (cryptoSecretkeybytes .two)} {rho key : Vector UInt8 seedBytes}
    (hparent : KeyPair constantXof (fuel + 1) parentPk parentSk (constantParts rho key)) :
    ∃ chain, rechainSetup .two constantXof (fuel + 1) seed rnd count i parentSk = some chain ∧
      chain.length = count ∧
      ∀ cert ∈ chain, ∃ rho key, KeyPair constantXof (fuel + 1) cert.pk cert.sk
        (constantParts rho key) := by
  induction count generalizing i parentPk parentSk rho key with
  | zero => exact ⟨[], rfl, rfl, fun _ hcert ↦ absurd hcert List.not_mem_nil⟩
  | succ count ih =>
    obtain ⟨⟨pk, sk⟩, rho', key', hkeypair, hpair⟩ := constantXof_keyPair (fuel + 1) (seed i)
      (Vector.replicate _ 0) (Vector.replicate _ 0)
    have hctx : ([] : List UInt8).length ≤ 255 := Nat.zero_le 255
    obtain ⟨out, hout⟩ := sign_constantXof hparent (Vector.replicate _ 0)
      (UInt64.ofNat (cryptoBytes .two)) pk.toList hctx (rnd i)
    obtain ⟨chain, hchain, hlength, hkeys⟩ := ih (i + 1) hpair
    refine ⟨{ pk := pk, sk := sk, cert := out.sig, certlen := out.siglen } :: chain, ?_,
      congrArg Nat.succ hlength, fun entry hentry ↦ ?_⟩
    · rw [rechainSetup]
      refine Option.bind_eq_some_iff.mpr ⟨(pk, sk), hkeypair, ?_⟩
      refine Option.bind_eq_some_iff.mpr ⟨out, hout, ?_⟩
      exact Option.bind_eq_some_iff.mpr ⟨chain, hchain, rfl⟩
    · rcases List.mem_cons.mp hentry with rfl | hentry
      · exact ⟨rho', key', hpair⟩
      · exact hkeys entry hentry

/-- A chain of three keys, and a message signed with the last one. -/
theorem rechain_verifies_constant :
    ∃ (root : Vector UInt8 (cryptoPublickeybytes .two) × Vector UInt8 (cryptoSecretkeybytes .two))
      (chain : List (PeriodCert .two)) (out : SignatureOutput .two),
      rechainSetup .two constantXof 1 (fun i ↦ Vector.replicate _ (UInt8.ofNat i))
        (fun i ↦ Vector.replicate _ (UInt8.ofNat (7 * i))) 3 0 root.2 = some chain ∧
      rechainVerify .two constantXof 1 root.1 chain 2 [1, 2, 3] out.sig out.siglen = some true := by
  obtain ⟨root, rho, key, hroot, hpair⟩ := constantXof_keyPair 1 (Vector.replicate _ 0)
    (Vector.replicate _ 0) (Vector.replicate _ 0)
  obtain ⟨chain, hchain, hlength, hkeys⟩ := exists_rechainSetup 0
    (fun i ↦ Vector.replicate _ (UInt8.ofNat i)) (fun i ↦ Vector.replicate _ (UInt8.ofNat (7 * i)))
    3 0 hpair
  have hlast : chain[2]? = some chain[2] := List.getElem?_eq_getElem _
  obtain ⟨rho', key', hlastPair⟩ := hkeys _ (List.mem_of_getElem? hlast)
  have hctx : ([] : List UInt8).length ≤ 255 := Nat.zero_le 255
  obtain ⟨out, hout⟩ := sign_constantXof hlastPair (Vector.replicate _ 0) 0 [1, 2, 3] hctx
    (Vector.replicate _ 255)
  exact ⟨root, chain, out, hchain, rechain_verifies hroot hchain hlast hout le_rfl⟩

end EvMlDsa
