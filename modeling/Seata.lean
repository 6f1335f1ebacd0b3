import Seata.Scripts
import Seata.Integrity
import Seata.Settlement
import Seata.Serializability
import Seata.Dispatch
import Seata.Aborts
import Seata.Resubmission
import Seata.Parallelism
import Seata.Retry
import Seata.Ledger
import Seata.Outcomes
import Seata.Marks
import Seata.Redelivery
import Seata.Barrier
import Seata.Isolation
import Seata.Repository
import Seata.Paging
import Seata.SeaKv
import Seata.RedisKv
import Seata.Tcc
import Seata.FrontEnds
import Seata.Answers
import Seata.Genuine
import Seata.Evidence
import Seata.Backends
import Seata.Service
import Seata.Restarts
import Seata.Metrics
import Seata.Timeouts
import Seata.Recovery
