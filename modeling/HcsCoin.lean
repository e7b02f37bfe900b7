import HcsCoin.Crypto.Keccak
import HcsCoin.Crypto.Dilithium.Convolution
import HcsCoin.Crypto.Dilithium.Overflow
import HcsCoin.Difficulty
import HcsCoin.VersionBits
import HcsCoin.QuantumMiner.Gates
import HcsCoin.Consensus.Airdrop
import HcsCoin.DisconnectBlock
import HcsCoin.Supply
import HcsCoin.Node.BlockTreeDb
import HcsCoin.Node.BlockStorage
import HcsCoin.HeadersSync.Protocol
import HcsCoin.BlockEncodings
import HcsCoin.Policy.Packages
import HcsCoin.Rpc.Mining
import HcsCoin.Util.Asmap
import HcsCoin.Wallet.RandomSelection
import HcsCoin.Wallet.BranchAndBound
import HcsCoin.Wallet.CoinGrinder
import HcsCoin.ClusterLinearize.Guarantees
import HcsCoin.Base58
import HcsCoin.BlockFilter
import HcsCoin.Script.SafeEval
import HcsCoin.Script.SoftFork
import HcsCoin.Script.MultiSig
import HcsCoin.Script.VerifySigOps
