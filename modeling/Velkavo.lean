import Velkavo.Cryptonote.AddressStrings
import Velkavo.Common.OpenAlias
import Velkavo.Wallet.Uri
import Velkavo.Net.Bans
import Velkavo.Checkpoints.Agreement
import Velkavo.Rpc.Payment
import Velkavo.Core.CheckpointRollback
import Velkavo.Core.AltCoins
import Velkavo.Core.ShortHistory
import Velkavo.Core.ScanReads
import Velkavo.Multisig.KexCounting
import Velkavo.Cryptonote.ProofAccesses
import Velkavo.HardForks.VotingWindow
import Velkavo.Wallet.SpendTime
import Velkavo.Epee.HttpAuth
import Velkavo.TxPool.TemplateReward
import Velkavo.Protocol.QueueRun
import Velkavo.Mnemonics.PhraseSizes
import Velkavo.P2p.PeerlistRun
import Velkavo.Levin.NoiseChannel
import Velkavo.Net.Dandelionpp
import Velkavo.TxPool.Relayable
import Velkavo.Core.NextDifficulty
import Velkavo.TxPool.TemplateImages
import Velkavo.Core.LongTermMedian
import Velkavo.Core.DynamicFee
import Velkavo.Cryptonote.ParseAmount
import Velkavo.Crypto.TreeHash
import Velkavo.Core.MinerOutputs
import Velkavo.Core.OutputDistribution
import Velkavo.Core.CompiledHashes
import Velkavo.Core.PrunedWeight
import Velkavo.Cryptonote.TransactionHash
import Velkavo.Crypto.Keccak
import Velkavo.Protocol.NeededHeight
import Velkavo.Protocol.PruningStripes
import Velkavo.Wallet.Hashchain
import Velkavo.Wallet.HeightByDate
import Velkavo.TxPool.Stats
import Velkavo.Wallet.OutputTracker
import Velkavo.Wallet.SanitizedText
import Velkavo.Epee.JsonString
import Velkavo.Common.Combinator
import Velkavo.Common.LineWidth
import Velkavo.Wallet.Ringdb
import Velkavo.BlockchainDb.ChainTables
import Velkavo.Core.Reorganisation
