import Qnero.Extrinsic.Authorization
import Qnero.Extrinsic.Browser
import Qnero.Shielded.Uniqueness
import Qnero.Consensus.Retarget
import Qnero.Faucet.Payout
import Qnero.Wallet.BrowserStore
import Qnero.Wallet.Requests
import Qnero.Wallet.Checkpoints
import Qnero.Wallet.Lost
import Qnero.Wallet.HeaderWalk
import Qnero.Consensus.Seeds
import Qnero.Consensus.AuthoringGate
import Qnero.Consensus.CacheTable
import Qnero.Vesting.Conservation
import Qnero.Shielded.Anchors
import Qnero.Shielded.PoolTag
import Qnero.Wallet.Fees
import Qnero.Extrinsic.RoundTrip
import Qnero.Consensus.Admission
import Qnero.Wallet.Select
import Qnero.Shielded.OutputCap
import Qnero.Consensus.Shares
import Qnero.Batch.Admission
