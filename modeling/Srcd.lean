import Srcd.Library.BigEndian
import Srcd.Library.ExceptState
import Srcd.Library.FiniteMap
import Srcd.Library.Simulation
import Srcd.Library.Lex
import Srcd.Library.Codec
import Srcd.Rlp.Item
import Srcd.Rlp.Encbuf
import Srcd.Rlp.Value
import Srcd.Rlp.EncbufSpec
import Srcd.Rlp.ValueSpec
import Srcd.Rlp.Stream
import Srcd.Rlp.Decode
import Srcd.Rlp.RoundTrip
import Srcd.Rlp.Raw
import Srcd.Rlp.RawSpec
import Srcd.Trie.Encoding
import Srcd.Trie.Node
import Srcd.Trie.Trie
import Srcd.Trie.Canonical
import Srcd.Trie.Insert
import Srcd.Trie.Delete
import Srcd.Trie.Map
import Srcd.Trie.Unique
import Srcd.Trie.NodeCodec
import Srcd.Trie.Hasher
import Srcd.Trie.Collapsed
import Srcd.Trie.Database
import Srcd.Trie.Proof
import Srcd.Trie.Iterator
import Srcd.Trie.Preorder
import Srcd.Trie.IteratorSpec
import Srcd.Transaction.Encoding
import Srcd.Transaction.Entry
import Srcd.Chain.HeaderChain
import Srcd.Chain.HeaderChainSpec
import Srcd.Chain.BlockChain
import Srcd.P2p.Netutil
import Srcd.P2p.Table
import Srcd.Library.GoMap
import Srcd.Server.Fetcher
import Srcd.P2p.Rlpx
import Srcd.Library.Nearest
import Srcd.P2p.TableQuery
import Srcd.P2p.Peer
import Srcd.Server.Handler
import Srcd.Transaction.Wrap
import Srcd.Trie.RefCount
import Srcd.Rlp.Reader
import Srcd.Library.SortedKeys
import Srcd.P2p.Enr
import Srcd.Transaction.Varint
import Srcd.Common.Math
import Srcd.Common.Math
import Srcd.Common.Hexutil
import Srcd.Library.Bits
import Srcd.Wallet.Bech32
import Srcd.Wallet.SegWit
import Srcd.Library.Heap
import Srcd.P2p.Dial
import Srcd.P2p.DialSpec
import Srcd.Library.Arena
import Srcd.Trie.Sync
import Srcd.Trie.SyncSound
