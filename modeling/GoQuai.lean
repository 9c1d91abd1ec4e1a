import GoQuai.Lib.Ancestry
import GoQuai.Common.Location
import GoQuai.Core.BlockTree
import GoQuai.Core.Canonical
import GoQuai.Core.Termini
import GoQuai.Core.Rollup
import GoQuai.Core.EtxRouting
import GoQuai.Types.Header
import GoQuai.Lib.Wrap
import GoQuai.Consensus.GasLimit
import GoQuai.Vm.Etx
import GoQuai.Vm.Frames
import GoQuai.Core.StateAtBlock
import GoQuai.Lib.Staged
import GoQuai.Core.Append
import GoQuai.Core.EtxDelivery
import GoQuai.Common.Address
import GoQuai.Types.Block
import GoQuai.Consensus.Poem
import GoQuai.Core.Recovery
import GoQuai.Lib.Journal
import GoQuai.State.AccessList
import GoQuai.State.Journal
import GoQuai.State.StateDB
import GoQuai.Lib.BigEndian
import GoQuai.Rlp.Encode
import GoQuai.Rlp.Stream
import GoQuai.Rlp.Decode
import GoQuai.Rlp.Codec
import GoQuai.Common.AddressRlp
import GoQuai.Types.HeaderCache
import GoQuai.Lib.PrefixMap
import GoQuai.Trie.Node
import GoQuai.Lib.Heap
import GoQuai.Lib.HeapOrder
import GoQuai.Common.Prque
import GoQuai.Core.TxList
import GoQuai.Types.TxByPrice
import GoQuai.Core.Worker
import GoQuai.Core.AccountList
import GoQuai.Core.PricedList
import GoQuai.Trie.Map
import GoQuai.Core.Lookup
