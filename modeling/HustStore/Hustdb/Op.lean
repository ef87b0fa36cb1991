import HustStore.Hustdb.Queue
import HustStore.Lib.Run
import HustStore.Md5
import HustStore.Md5db.Export

/-!
# Runs of the server

The ttl scan, the listings of a table, and the operations of the server as one step function. A run
is a list of operations; between them time passes, the cache drops items, and the binlog is written.
-/

namespace HustStore

open Md5db

namespace Hustdb

variable (md5 : Bytes → InnerKey) (cfg : Settings)

/-! ### The ttl scan -/

def scanType (listing : Bytes) : Option UInt8 :=
  if listing.length > blockIdBytes then listing[listing.length - blockIdBytes - 1]?
  else some TableType.kvAll.code

def scanTable (listing : Bytes) : Bytes := listing.take (listing.length - blockIdBytes - 1)

def scanKey (s : Hustdb) (listing : Bytes) : Bytes :=
  match s.storage.exportRecord md5 listing 0 maxBucketNum true with
  | none => listing
  | some x => x.key

def scanDel (s : Hustdb) (listing key : Bytes) : Hustdb :=
  let table := scanTable listing
  let type := scanType listing
  if type = some TableType.kvAll.code then (s.hustdbDel md5 cfg key 0 false).2
  else if type = some TableType.hashTb.code then (s.hustdbHdel md5 cfg table key 0 false).2
  else if type = some TableType.setTb.code then (s.hustdbSrem md5 cfg table key 0 false).2
  else if type = some TableType.zsetIn.code then (s.hustdbZrem md5 cfg table key 0 false).2
  else s

def eraseTtl (s : Hustdb) (listing : Bytes) : Hustdb :=
  let data := { s.storage.data with ttlFile := s.storage.data.ttlFile.erase listing }
  { s with storage := { s.storage with data } }

def scanEntry (s : Hustdb) (listing : Bytes) (entry : TtlEntry) : Hustdb :=
  if entry.ttl > s.now then s
  else if entry.fileId ≥ s.storage.data.fileCount then s.eraseTtl listing
  else
    match (s.storage.data.files entry.fileId).get? listing with
    | none => s.eraseTtl listing
    | some _ => (s.scanDel md5 cfg listing (s.scanKey md5 listing)).eraseTtl listing

def scanLoop (s : Hustdb) : List (Bytes × TtlEntry) → Hustdb
  | [] => s
  | (listing, entry) :: rest => scanLoop (s.scanEntry md5 cfg listing entry) rest

def ttlPage (s : Hustdb) (size : Nat) : List (Bytes × TtlEntry) :=
  (s.storage.data.ttlFile.entries.dropWhile fun e => e.1 < s.ttlSeek).take size

def nextSeek (s : Hustdb) (size : Nat) : Bytes :=
  if (s.ttlPage size).length < size then []
  else ((s.ttlPage size).getLast?.map Prod.fst).getD s.ttlSeek

def ttlScan (s : Hustdb) (size : Nat) : Hustdb :=
  { s.scanLoop md5 cfg (s.ttlPage size) with ttlSeek := s.nextSeek size }

/-! ### Listings -/

def syncExportOffset : Nat := 1000000

def memExportSize : Nat := 1000

def exportArgs (offset size start stop : Nat) : Bool :=
  size ≤ memExportSize && offset ≤ syncExportOffset && start < stop && stop ≤ maxBucketNum

def listTable (s : Hustdb) (type : TableType) (table : Bytes) (offset size start stop : Nat)
    (noval : Bool) : Rc × List Exported :=
  if !tbNameCheck table ∨ !exportArgs offset size start stop then (.err .EKEYREJECTED, [])
  else
    match (s.tables.findTableOffset table false type).1 with
    | none => (.err .EPERM, [])
    | some _ =>
      let inner := innerTable table type []
      s.storage.exportDbMem md5 (s.storage.data.hashWithMd5db inner)
        ⟨some inner, start, stop, offset, size, noval, false, [], []⟩

def hustdbHkeys (s : Hustdb) (table : Bytes) (offset size start stop : Nat) (noval : Bool) :
    Rc × List Exported :=
  s.listTable md5 .hashTb table offset size start stop noval

def hustdbSmembers (s : Hustdb) (table : Bytes) (offset size start stop : Nat) (noval : Bool) :
    Rc × List Exported :=
  s.listTable md5 .setTb table offset size start stop noval

def hustdbZrange (s : Hustdb) (table : Bytes) (min max : Int) (offset size start stop : Nat)
    (noval byscore : Bool) : Rc × List Exported :=
  if !tbNameCheck table ∨ !exportArgs offset size start stop ∨ (byscore ∧ min > max) then
    (.err .EKEYREJECTED, [])
  else
    match (s.tables.findTableOffset table false .zsetTb).1 with
    | none => (.err .EPERM, [])
    | some _ =>
      let hash := bucketHash table
      if hash < start ∨ hash ≥ stop then (.err .EPERM, [])
      else
        let inner := innerTable table .zsetTb []
        s.storage.exportDbMem md5 (s.storage.data.hashWithMd5db inner)
          ⟨some inner, 0, maxBucketNum, offset, size, noval, byscore, printLi21 min, printLi21 max⟩

def hustdbKeys (s : Hustdb) (offset size fileId start stop : Nat) (noval : Bool) :
    Rc × List Exported :=
  if !exportArgs offset size start stop ∨ fileId ≥ s.storage.data.fileCount then
    (.err .EKEYREJECTED, [])
  else s.storage.exportDbMem md5 fileId ⟨none, start, stop, offset, size, noval, false, [], []⟩

def maxExportOffset : Nat := 100000000

def diskExportSize : Nat := 1000000

def hustdbExport (s : Hustdb) (table : Bytes) (offset size start stop : Nat) (noval : Bool) :
    Rc × List Exported :=
  match s.tables.find table with
  | none => (.err .EKEYREJECTED, [])
  | some i =>
    let inner := table ++ [(s.tables.stat i).type.code]
    if !tbNameCheck table ∨ offset > maxExportOffset ∨ size > diskExportSize ∨
        (offset > 0 ∧ size = 0) ∨ ¬start < stop ∨ stop > maxBucketNum then (.err .EKEYREJECTED, [])
    else
      s.storage.exportDb md5 (s.storage.data.hashWithMd5db inner)
        ⟨some inner, start, stop, offset, size, noval, false, [], []⟩

def hustdbStat (s : Hustdb) (table : Bytes) : Rc × List TableReport :=
  if table = [] then (.ok, [(s.tables.stat 0).report true, (s.tables.stat 1).report true])
  else if !tbNameCheck table then (.err .EKEYREJECTED, [])
  else
    match s.tables.find table with
    | none => (.err .ENOENT, [])
    | some i => (.ok, [(s.tables.stat i).report ((s.tables.stat i).type = .hashTb)])

end Hustdb

inductive Op
  | exist (key : Bytes)
  | get (key : Bytes)
  | put (key val : Bytes) (ver ttl : Nat) (isDup : Bool) (compressType : Nat)
  | del (key : Bytes) (ver : Nat) (isDup : Bool)
  | hget (table key : Bytes)
  | hset (table key val : Bytes) (ver ttl : Nat) (isDup : Bool) (compressType : Nat)
  | hincrby (table key : Bytes) (score : Int) (ver ttl : Nat) (isDup : Bool) (compressType : Nat)
  | hdel (table key : Bytes) (ver : Nat) (isDup : Bool)
  | sadd (table key : Bytes) (ver ttl : Nat) (isDup : Bool) (compressType : Nat)
  | srem (table key : Bytes) (ver : Nat) (isDup : Bool)
  | zadd (table key : Bytes) (score opt : Int) (ver ttl : Nat) (isDup : Bool) (compressType : Nat)
  | zscore (table key : Bytes)
  | zrem (table key : Bytes) (ver : Nat) (isDup : Bool)
  | messagePut (queue : Bytes) (priori tag : Nat) (item : Bytes)
  | messageAck (queue : Bytes) (priori tag : Nat)
  | tick (now : Nat)
  | evict (key : Bytes)
  | ttlScan (size : Nat)
  | binlogPut (key val : Bytes)
  | binlogDel (key : Bytes)

def Op.step (md5 : Bytes → InnerKey) (cfg : Settings) (s : Hustdb) : Op → Hustdb
  | .exist _ => s
  | .get key => (s.hustdbGet md5 cfg key).2
  | .put key val ver ttl isDup compressType =>
    (s.hustdbPut md5 cfg key val ver ttl isDup compressType).2
  | .del key ver isDup => (s.hustdbDel md5 cfg key ver isDup).2
  | .hget table key => (s.hustdbHget md5 cfg table key).2
  | .hset table key val ver ttl isDup compressType =>
    (s.hustdbHset md5 cfg table key val ver ttl isDup compressType).2
  | .hincrby table key score ver ttl isDup compressType =>
    (s.hustdbHincrby md5 cfg table key score ver ttl isDup compressType).2
  | .hdel table key ver isDup => (s.hustdbHdel md5 cfg table key ver isDup).2
  | .sadd table key ver ttl isDup compressType =>
    (s.hustdbSadd md5 cfg table key ver ttl isDup compressType).2
  | .srem table key ver isDup => (s.hustdbSrem md5 cfg table key ver isDup).2
  | .zadd table key score opt ver ttl isDup compressType =>
    (s.hustdbZadd md5 cfg table key score opt ver ttl isDup compressType).2.2
  | .zscore table key => (s.hustdbZscore md5 cfg table key).2
  | .zrem table key ver isDup => (s.hustdbZrem md5 cfg table key ver isDup).2
  | .messagePut queue priori tag item => (s.messagePut md5 queue priori tag item).2
  | .messageAck queue priori tag => (s.messageAck md5 queue priori tag).2
  | .tick now => { s with now }
  | .evict key => { s with mdb := s.mdb.evict key }
  | .ttlScan size => s.ttlScan md5 cfg size
  | .binlogPut key val => { s with binlog := s.binlog.insert key val }
  | .binlogDel key => { s with binlog := s.binlog.erase key }

def Hustdb.create (cfg : Config) (tableMaximum started : Nat) : Hustdb where
  storage := Db.create cfg
  mdb := Mdb.create started
  tables := Tables.create tableMaximum
  now := started
  overThreshold := false
  ttlSeek := []
  binlog := .empty

/-- A server with room for four tables and one file for each kind of content, on which the examples of
the results run. -/
def smallServer (ops : List Op) : Hustdb :=
  Run.exec (Op.step Md5.md5 ⟨true, 1000⟩) (Hustdb.create ⟨4, 2, 1, 1⟩ 4 0) ops

end HustStore
