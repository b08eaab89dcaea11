import Demars.Blockchain.Peers
import Demars.Blockchain.Reactor
import Demars.Blockchain.Segments
import Demars.Blockchain.Sync
import Demars.Coin.CheckTx
import Demars.Coin.Deliver
import Demars.Coin.Replay
import Demars.Consensus.CatchupReplay
import Demars.Consensus.Finalizing
import Demars.Consensus.Malformed
import Demars.Consensus.PeerVotes
import Demars.Consensus.Replay
import Demars.Consensus.Rounds
import Demars.Consensus.Saves
import Demars.Consensus.Ticker
import Demars.Consensus.WalSearch
import Demars.Lite.Proxy
import Demars.Mempool.Bounds
import Demars.Mempool.Recheck
import Demars.P2P.Agreement
import Demars.P2P.Kademlia
import Demars.P2P.MConnection
import Demars.Privval.DoubleSign
import Demars.State.WellFormed
import Demars.Types.Transfer
import Demars.Types.TwoThirds
import Demars.Types.VoteOrder
