import Mjoy.Lib.Store
import Mjoy.Lib.Loop
import Mjoy.Lib.Msgp
import Mjoy.Trie.Encoding
import Mjoy.Trie.Node
import Mjoy.Trie.Tree
import Mjoy.Trie.Shape
import Mjoy.Trie.Update
import Mjoy.Trie.Trie
import Mjoy.Trie.Hasher
import Mjoy.Trie.Resolve
import Mjoy.Trie.Refinement
import Mjoy.Trie.Commit
import Mjoy.Trie.Map
import Mjoy.Trie.Codec
import Mjoy.Trie.Session
import Mjoy.Block.DeriveSha
import Mjoy.Bloom.Generator
import Mjoy.Lib.Table
import Mjoy.Lib.Journal
import Mjoy.State.Object
import Mjoy.State.StateDB
import Mjoy.State.Commit
import Mjoy.State.Frame
import Mjoy.State.Transition
import Mjoy.State.Copy
import Mjoy.Chain.Genesis
import Mjoy.Chain.WriteFailure
import Mjoy.Trie.Proof
import Mjoy.Lib.Ancestry
import Mjoy.Chain.HeaderChain
import Mjoy.Chain.BlockChain
import Mjoy.Discover.Table
import Mjoy.Chain.Indexer
import Mjoy.Lib.Prque
import Mjoy.Downloader.Queue
import Mjoy.Downloader.Tasks
import Mjoy.Downloader.Reserve
import Mjoy.Downloader.Deliver
import Mjoy.Downloader.Results
import Mjoy.Downloader.Conservation
import Mjoy.Downloader.Ancestor
import Mjoy.Types.BigInt
import Mjoy.Transaction.Signing
import Mjoy.Lib.Hex
import Mjoy.Keystore.Passphrase
import Mjoy.Lib.Heap
import Mjoy.Lib.HeapBy
import Mjoy.TxProcessor.SortedMap
import Mjoy.TxProcessor.Runs
import Mjoy.Trie.Iterator
import Mjoy.Lib.Bitset
import Mjoy.Bitutil.Compress
import Mjoy.Math.Big
import Mjoy.Lib.Search
import Mjoy.Lib.TopK
import Mjoy.Discover.Closest
import Mjoy.Discover.Random
import Mjoy.P2p.Peer
import Mjoy.Lib.Strconv
import Mjoy.Types.Quantity
import Mjoy.Fetcher.Loop
import Mjoy.Chain.SetHead
import Mjoy.Trie.Flags
import Mjoy.P2p.Dial
import Mjoy.P2p.Server
import Mjoy.Lib.Cipher
import Mjoy.P2p.Frame
import Mjoy.Trie.Sync
import Mjoy.Trie.SyncInvariant
import Mjoy.Trie.SyncOrder
import Mjoy.Trie.SyncRun
import Mjoy.Downloader.Skeleton
