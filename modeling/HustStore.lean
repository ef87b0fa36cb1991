import HustStore.Binlog.Delivery
import HustStore.Binlog.HostAccounts
import HustStore.Binlog.Probe
import HustStore.Binlog.Rounds
import HustStore.Binlog.Transport
import HustStore.Goha.Write
import HustStore.Ha.Overwrite
import HustStore.Ha.Read2
import HustStore.Ha.Response
import HustStore.Ha.Route
import HustStore.Ha.SetTable
import HustStore.Ha.Table
import HustStore.Ha.Write
import HustStore.Hustdb.Compression
import HustStore.Hustdb.FailedWrite
import HustStore.Hustdb.Listing
import HustStore.Hustdb.Refusal
import HustStore.Hustdb.Statistics
import HustStore.Hustdb.TableSections
import HustStore.Hustdb.TtlScan
import HustStore.KeyHash.RoundTrip
import HustStore.KeyHash.Validation
import HustStore.Leveldb.Bloom
import HustStore.Md5db.AllocatorRun
import HustStore.Md5db.ContentIds
import HustStore.Md5db.Faults
import HustStore.Md5db.FullkeyRun
import HustStore.Md5db.Map
import HustStore.Md5db.Refinement
import HustStore.Md5db.Replica
import HustStore.Md5db.SlotCount
import HustStore.Md5db.Versions
import HustStore.Mq.Publish
import HustStore.Mq.Redelivery
import HustStore.MqHa.Exclusion
import HustStore.MqHa.Lifecycle
import HustStore.MqHa.QueueDict
import HustStore.Network.IpAllow
import HustStore.Raft.Commitment
import HustStore.Sync.Replay
