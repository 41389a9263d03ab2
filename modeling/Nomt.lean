import Nomt.Trie.Bits
import Nomt.Trie.Node
import Nomt.Trie.Compact
import Nomt.Update
import Nomt.Proof.PathProof
import Nomt.Proof.VerifyUpdate
import Nomt.Proof.Soundness
import Nomt.Proof.Completeness
import Nomt.Proof.Frontier
import Nomt.Trie.SubRoot
import Nomt.Proof.Stitch
import Nomt.Proof.Batch
import Nomt.Trie.Map
import Nomt.Proof.Chain
import Nomt.Proof.BatchSoundness
import Nomt.Proof.ChainSoundness
import Nomt.Store.Sync
import Nomt.Torture.Config
import Nomt.WitnessVerification
