import ConsensusRs.Store.Bytes
import ConsensusRs.Store.Kvdb
import ConsensusRs.Store.BaseIndex
import ConsensusRs.Store.Iter
import ConsensusRs.Store.Isolation
import ConsensusRs.Store.Refinement
import ConsensusRs.Consensus.Types
import ConsensusRs.Core.Ledger
import ConsensusRs.Core.Genesis
import ConsensusRs.Store.Shared
import ConsensusRs.Store.Scan
