import EvMlDsa.Library.FixedArray
import EvMlDsa.Library.PerfectTree
import EvMlDsa.Library.HashTree
import EvMlDsa.Library.Fips202
import EvMlDsa.Library.Fips204
import EvMlDsa.Library.Negacyclic
import EvMlDsa.Library.NegacyclicNtt
import EvMlDsa.Library.PairLoop
import EvMlDsa.Library.Rejection
import EvMlDsa.Library.Sponge
import EvMlDsa.Params
import EvMlDsa.Sha3
import EvMlDsa.KeccakRound
import EvMlDsa.Sha3Sponge
import EvMlDsa.Sha3Eval
import EvMlDsa.RefFips202
import EvMlDsa.SeedTree
import EvMlDsa.SeedTreeRun
import EvMlDsa.SeedTreeCover
import EvMlDsa.SeedTreeHistory
import EvMlDsa.SeedCollision
import EvMlDsa.Merkle
import EvMlDsa.MerkleBuild
import EvMlDsa.MerkleLayout
import EvMlDsa.MerkleProof
import EvMlDsa.Scheme
import EvMlDsa.Keygen
import EvMlDsa.Verify
import EvMlDsa.Dilithium
import EvMlDsa.Unpack
import EvMlDsa.LeafKey
import EvMlDsa.LeafKeyValid
import EvMlDsa.DomainSeparation
import EvMlDsa.Signer
import EvMlDsa.Coherence
import EvMlDsa.Wire
import EvMlDsa.VerifyReads
import EvMlDsa.EndToEnd
import EvMlDsa.AllocationFailure
import EvMlDsa.Acceptance
import EvMlDsa.KeygenFailure
import EvMlDsa.Breakdown
import EvMlDsa.HostOrder
import EvMlDsa.Symbolic
import EvMlDsa.ForwardSecurity
import EvMlDsa.KeygenErasure
import EvMlDsa.Lattice.Reduce
import EvMlDsa.Lattice.Ntt
import EvMlDsa.Lattice.InverseNtt
import EvMlDsa.Lattice.Poly
import EvMlDsa.Lattice.Rounding
import EvMlDsa.Lattice.Packing
import EvMlDsa.Lattice.Hints
import EvMlDsa.Lattice.Sampling
import EvMlDsa.Lattice.Challenge
import EvMlDsa.Lattice.Sign
import EvMlDsa.Lattice.KeyPair
import EvMlDsa.Lattice.Response
import EvMlDsa.Lattice.SignCorrect
import EvMlDsa.Lattice.Shake
import EvMlDsa.ReferenceLeaf
import EvMlDsa.Archive
import EvMlDsa.Rechain
