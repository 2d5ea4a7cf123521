import RedisClone.Aof.CleanPrefix
import RedisClone.Server.Readback
import RedisClone.Lib.CommitPoint
import RedisClone.Store.Serializable
import RedisClone.Store.Footprint
import RedisClone.Store.Updates
import RedisClone.Server.Sizes
import RedisClone.Store.Deadlock
import RedisClone.Server.Footprint
import RedisClone.Server.MultiKey
import RedisClone.Store.Eviction
import RedisClone.Store.Finality
import RedisClone.Store.Course
import RedisClone.Server.Overshoot
import RedisClone.Store.Sampling
import RedisClone.Server.Connection
import RedisClone.Server.Replies
import RedisClone.Aof.Damage
import RedisClone.Server.Counters
import RedisClone.Server.Lifetimes
import RedisClone.Lib.FuzzySnapshot
import RedisClone.Server.Acknowledged
import RedisClone.Server.Crash
import RedisClone.Lib.PrefixCode
import RedisClone.Store.Budget
import RedisClone.Server.Snapshot
import RedisClone.Store.Accounts
import RedisClone.Server.Idempotence
import RedisClone.Server.Fragments
import RedisClone.Store.Linearizability
import RedisClone.Server.Restart
import RedisClone.Server.SyncLoop
import RedisClone.Server.Isolation
