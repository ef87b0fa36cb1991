import HustStore.Hustdb.Op
import HustStore.Md5db.Run

/-!
# The binlog

A write that did not reach a replica is noted in the binlog of the store, under the replica's address: a put
under the block id of its record, a deletion under the digest of its key.
-/

namespace HustStore.Binlog

open Md5db

inductive Method
  | put
  | del
  | hset
  | hdel
  | sadd
  | srem
  | zadd
  | zrem
  deriving DecidableEq, Repr

namespace Method

def code : Method → UInt8
  | .put => 1
  | .del => 2
  | .hset => 3
  | .hdel => 4
  | .sadd => 5
  | .srem => 6
  | .zadd => 7
  | .zrem => 8

def ofCode (code : UInt8) : Option Method :=
  [.put, .del, .hset, .hdel, .sadd, .srem, .zadd, .zrem].find? fun m => m.code = code

def isRem : Method → Bool
  | .put | .hset | .sadd | .zadd => false
  | .del | .hdel | .srem | .zrem => true

def type : Method → TableType
  | .put | .del => .kvAll
  | .hset | .hdel => .hashTb
  | .sadd | .srem => .setTb
  | .zadd | .zrem => .zsetIn

def isPlain (m : Method) : Bool := m.type = .kvAll

def table (m : Method) (name : Bytes) : Bytes :=
  if m.isPlain then [] else innerTable name m.type []

end Method

/-! ### Writing an entry -/

def atoi (str : Bytes) : Nat :=
  match Decimal.strtoll str with
  | none => 0
  | some (z, _) => (z % 2 ^ 32).toNat

def hostBytes (inetAddr : Bytes → Nat) (host : Bytes) : Option Bytes :=
  if 58 ∉ host then none
  else
    let ip := inetAddr (host.takeWhile (· ≠ 58)) % 2 ^ 32
    let port := atoi ((host.dropWhile (· ≠ 58)).drop 1)
    if ip = 0 ∨ port = 0 ∨ port ≥ 65535 then none else some (le32 ip ++ Decimal.pad 5 port)

def putFromBinlog (file : SortedMap Bytes Bytes) (key val : Bytes) : Rc × SortedMap Bytes Bytes :=
  if !leveldbCheckKey key then (.err .EINVAL, file) else (.ok, file.insert key val)

def putKey (host table : Bytes) (blockId : BlockId) : Bytes :=
  host ++ KvArray.listingKey table blockId

def delKey (host table : Bytes) (innerKey : InnerKey) : Bytes := host ++ (table ++ innerKey.bytes)

def stamp (m : Method) (timestamp : Nat) : Bytes := m.code :: le32 timestamp

variable (md5 : Bytes → InnerKey) (inetAddr : Bytes → Nat)

def binlog (db : Db) (file : SortedMap Bytes Bytes) (table userKey host : Bytes) (timestamp : Nat)
    (m : Method) : Rc × SortedMap Bytes Bytes :=
  if !Db.checkUserKey userKey then (.err .EINVAL, file)
  else
    let innerKey := md5 (table ++ userKey)
    match hostBytes inetAddr host with
    | none => (.err .EINVAL, file)
    | some host =>
      if m.isRem then
        putFromBinlog file (delKey host table innerKey) (stamp m timestamp ++ userKey)
      else
        match db.locate innerKey with
        | .error _ => (.ok, file)
        | .ok (blockId, version) =>
          if version = 0 then (.ok, file)
          else
            let fileId := (db.hashCtxt ⟨table, 0, 0, timestamp⟩ innerKey).innerFileId
            putFromBinlog file (putKey host table blockId) (stamp m timestamp ++ le32 fileId)

def hustdbBinlog (db : Db) (file : SortedMap Bytes Bytes) (table key host : Bytes) (cmdType : UInt8)
    (now : Nat) : Rc × SortedMap Bytes Bytes :=
  if (table ≠ [] ∧ !tbNameCheck table) ∨ key = [] ∨ host = [] ∨ host.length > 32 then
    (.err .EKEYREJECTED, file)
  else
    match Method.ofCode cmdType with
    | none => (.err .EKEYREJECTED, file)
    | some m => binlog md5 inetAddr db file (m.table table) key host now m

/-! ### The scan -/

structure Task where
  host : Bytes
  method : Method
  table : Bytes
  key : Bytes
  value : Bytes
  ver : Nat
  entry : Bytes
  deriving DecidableEq, Repr

/-- What a scan depends on beside the store: the time, the setting for old entries, which hosts are
alive, and for which entries the pool takes the task. -/
structure Scan where
  now : Nat
  timeout : Nat
  alive : Bytes → Bool
  queued : Bytes → Bool

def hostLen : Nat := 9

def stampLen : Nat := 5

def innerKeyBytes : Nat := 16

def timedOut (scan : Scan) (val : Bytes) : Bool :=
  (scan.now % 2 ^ 32 + 2 ^ 32 - readLe32 val.tail) % 2 ^ 32 > scan.timeout

def stale (scan : Scan) (key val : Bytes) : Bool :=
  key.length ≤ hostLen || val.length ≤ stampLen || timedOut scan val

def isTableType (type : UInt8) : Bool :=
  [TableType.hashTb, .setTb, .zsetIn, .zsetTb].any fun t => t.code = type

/-- The length of the table name in the key of an entry. The source computes it without a sign, so
that a key too short for its command has no length in the model and no table in the source. -/
def tableLen (m : Method) (realKey : Bytes) : Nat :=
  realKey.length - (if m.isRem then innerKeyBytes else blockIdBytes) - 1

def entryTable (m : Method) (realKey : Bytes) : Option Bytes :=
  if m.isPlain then some []
  else
    let len := tableLen m realKey
    if len = 0 ∨ !(realKey[len]?.any isTableType) then none else some (realKey.take len)

def exportKey (m : Method) (realKey : Bytes) : Bytes :=
  if m.isPlain then realKey.drop (realKey.length - blockIdBytes) else realKey

def putTask (db : Db) (m : Method) (table key val : Bytes) : Option Task :=
  let realKey := key.drop hostLen
  let fileId := readLe32 (val.drop stampLen)
  if fileId ≥ db.data.fileCount then none
  else
    match (db.data.files fileId).get? realKey with
    | none => none
    | some content =>
      match db.exportRecord md5 (exportKey m realKey) 0 maxBucketNum false with
      | none => some ⟨key.take hostLen, m, table, key, content, 0, key⟩
      | some x => some ⟨key.take hostLen, m, table, x.key, x.val, x.version, key⟩

def taskOf (db : Db) (key val : Bytes) : Option Task :=
  match Method.ofCode (val.headD 0) with
  | none => none
  | some m =>
    match entryTable m (key.drop hostLen) with
    | none => none
    | some table =>
      if m.isRem then some ⟨key.take hostLen, m, table, val.drop stampLen, [], 0, key⟩
      else putTask md5 db m table key val

def nextHost (host : Bytes) : Bytes :=
  host.take 4 ++ Decimal.pad 5 (atoi (host.drop 4) + 1) ++ List.replicate 23 0

structure ScanResult where
  tasks : List Task
  removed : List Bytes

def scanLoop (db : Db) (scan : Scan) (seek : Bytes) (cursor : Option (Bytes × Bool)) :
    List (Bytes × Bytes) → ScanResult
  | [] => ⟨[], []⟩
  | (key, val) :: rest =>
    if key < seek then scanLoop db scan seek cursor rest
    else if stale scan key val then
      let next := scanLoop db scan seek cursor rest
      { next with removed := key :: next.removed }
    else
      let host := key.take hostLen
      let alive := if cursor.any fun c => c.1 = host then cursor.any Prod.snd else scan.alive host
      if !alive then scanLoop db scan (nextHost host) (some (host, false)) rest
      else
        match taskOf md5 db key val with
        | none =>
          let next := scanLoop db scan seek (some (host, true)) rest
          { next with removed := key :: next.removed }
        | some task =>
          let next := scanLoop db scan seek (some (host, scan.queued key)) rest
          if scan.queued key then { next with tasks := task :: next.tasks } else next

def binlogScan (db : Db) (file : SortedMap Bytes Bytes) (scan : Scan) :
    List Task × SortedMap Bytes Bytes :=
  let result := scanLoop md5 db scan [] none file.entries
  (result.tasks, result.removed.foldl SortedMap.erase file)

/-! ### Updates of a store -/

structure Update where
  method : Method
  table : Bytes
  key : Bytes
  val : Bytes
  ver : Nat
  isDup : Bool
  wttl : Nat
  compressType : Nat
  now : Nat

namespace Update

def query (u : Update) : Query :=
  ⟨u.method.table u.table, u.wttl, u.compressType, u.now % 2 ^ 32⟩

def call (u : Update) : Call :=
  if u.method.isRem then .del u.query u.key u.ver u.isDup
  else .put u.query u.key u.val u.ver u.isDup

def run (u : Update) (db : Db) : Db.Reply × Db :=
  if u.method.isRem then db.del md5 u.query u.key u.ver u.isDup
  else db.put md5 u.query u.key u.val u.ver u.isDup

end Update

def Task.update (t : Task) (now : Nat) : Update :=
  ⟨t.method, t.table, t.key, t.value, t.ver, true, 0, 0, now⟩

structure Site where
  db : Db
  binlog : SortedMap Bytes Bytes

def Site.update (host : Bytes) (s : Site) (u : Update) : Site :=
  let out := u.run md5 s.db
  if out.1.r = .ok then
    ⟨out.2, (hustdbBinlog md5 inetAddr out.2 s.binlog u.table u.key host u.method.code u.now).2⟩
  else ⟨out.2, s.binlog⟩

end HustStore.Binlog
