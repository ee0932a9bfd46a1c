import Pussycoin.Params
import Pussycoin.Emission
import Pussycoin.Subsidy
import Pussycoin.ArithUint256
import Pussycoin.Pow
import Pussycoin.Mweb.Node
import Pussycoin.Mweb.Accounting
import Pussycoin.Mweb.Miner
import Pussycoin.Bitmap
import Pussycoin.Mmr.LeafSet
import Pussycoin.Mmr.LeafSetRefinement
import Pussycoin.Mountain
import Pussycoin.Mmr.Index
import Pussycoin.Mmr.Util
import Pussycoin.Mmr.PrunedParents
import Pussycoin.File.AppendOnlyFile
import Pussycoin.Mmr.Mmr
import Pussycoin.Mmr.CacheFlush
import Pussycoin.Mw.Models
import Pussycoin.Mw.CoinsView
import Pussycoin.Mw.BlockBuilder
import Pussycoin.Mw.Flush
import Pussycoin.Codec
import Pussycoin.Serialize
import Pussycoin.Mw.Wire
import Pussycoin.Mw.WireRoundTrip
import Pussycoin.Mw.WireSize
import Pussycoin.Checked
import Pussycoin.Mw.Amounts
import Pussycoin.Mw.Aggregation
import Pussycoin.Keyed
import Pussycoin.Coins.Cache
import Pussycoin.Coins.CacheRefinement
import Pussycoin.Positional
import Pussycoin.Address.Base58
import Pussycoin.Address.Bech32
import Pussycoin.Address.ConvertBits
import Pussycoin.Address.KeyIO
import Pussycoin.Address.KeyIORoundTrip
import Pussycoin.Db.Transaction
import Pussycoin.Consensus.Merkle
import Pussycoin.Mmr.CacheLeaf
import Pussycoin.MountainHash
import Pussycoin.Mmr.Hashes
import Pussycoin.Mw.Undo
import Pussycoin.Chain.Ancestor
import Pussycoin.Script.ScriptNum
import Pussycoin.Script.ConditionStack
import Pussycoin.Script.Interpreter
import Pussycoin.Coins.Compressor
import Pussycoin.Chain.VersionBits
import Pussycoin.Memory
import Pussycoin.Prevector.Prevector
import Pussycoin.Prevector.Vector
import Pussycoin.Prevector.Layout
import Pussycoin.Prevector.Members
import Pussycoin.Prevector.Refinement
import Pussycoin.Runs
import Pussycoin.Net.BlockEncodings
import Pussycoin.Net.BlockEncodingsRoundTrip
import Pussycoin.Net.InitDataBounds
import Pussycoin.Net.Reconstruction
import Pussycoin.MerkleBlock
import Pussycoin.Bits
import Pussycoin.BitStream
import Pussycoin.BlockFilter
import Pussycoin.Search
import Pussycoin.Chain.Active
import Pussycoin.Bloom
import Pussycoin.Limbs
import Pussycoin.BaseUint.Refinement
import Pussycoin.Chain.Work
import Pussycoin.MountainRecompute
