import HustStore.Hustdb.Table
import HustStore.Lib.Decimal
import HustStore.Mdb
import HustStore.Md5db.Store

/-!
# The server

The operations of `hustdb_t` on plain keys, hash tables, sets and sorted sets. Each operation checks its
parameters and its table, goes through the memory cache to the store, and keeps the statistics of the table.
-/

namespace HustStore

open Md5db

structure Settings where
  mdbOk : Bool
  dbTtlMaximum : Nat
  deriving DecidableEq, Repr

structure Hustdb where
  storage : Db
  mdb : Mdb
  tables : Tables
  now : Nat
  overThreshold : Bool
  ttlSeek : Bytes
  binlog : SortedMap Bytes Bytes

structure Answer where
  r : Rc
  ver : Nat
  rsp : Bytes
  compressType : Nat
  deriving DecidableEq, Repr

def Answer.err (e : Errno) (ver : Nat) : Answer := ⟨.err e, ver, [], 0⟩

def Answer.ofReply (reply : Db.Reply) : Answer := ⟨reply.r, reply.version, [], 0⟩

def innerTable (table : Bytes) (type : TableType) (added : Bytes) : Bytes :=
  if table = [] then [] else table ++ type.code :: added

def dbStrtoll (str : Bytes) : Option Int :=
  match Decimal.strtoll (str.takeWhile (· ≠ 0)) with
  | none => none
  | some (z, rest) =>
    match rest with
    | [] => some z
    | b :: _ => if Decimal.isSpace b then some z else none

def printLi (z : Int) : Bytes := Decimal.print 19 z

def printLi21 (z : Int) : Bytes := Decimal.printField 20 z

def wrap64 (z : Int) : Int := (z + 2 ^ 63) % 2 ^ 64 - 2 ^ 63

def checkVersion (ver : Nat) : Bool := ver < 0xFFFFFFFF

namespace Hustdb

variable (md5 : Bytes → InnerKey) (cfg : Settings)

def query (s : Hustdb) (table : Bytes) (wttl compressType : Nat) : Query :=
  ⟨table, wttl, compressType, s.now % 2 ^ 32⟩

def deathOf (s : Hustdb) (ttl : Nat) : Nat :=
  if ttl = 0 ∨ ttl > cfg.dbTtlMaximum then 0 else (s.now + ttl) % 2 ^ 32

structure Target where
  table : Bytes
  key : Bytes
  cacheable : Bool

def Target.mkey (t : Target) : Bytes := t.table ++ t.key

def plainTarget (key : Bytes) : Target := ⟨[], key, key.length < mdbKeyLen⟩

def tableTarget (table : Bytes) (type : TableType) (key : Bytes) : Target :=
  ⟨innerTable table type [], key, table.length + key.length + 2 < mdbKeyLen⟩

def setTarget (table key : Bytes) : Target := ⟨innerTable table .setTb [], key, false⟩

def cached (s : Hustdb) (t : Target) : Option MdbItem :=
  if cfg.mdbOk ∧ t.cacheable then (s.mdb.get s.now t.mkey).filter fun item => item.value ≠ []
  else none

/-! ### Reading -/

def releaseMeta (s : Hustdb) (offset : Nat) (ctxt : ItemCtxt) : Tables :=
  if ctxt.isVersionError then s.tables
  else s.tables.setTableMeta offset (-1) (-((ctxt.kvData.ttl : Int) - KvDataItem.size))

def dropDead (s : Hustdb) (t : Target) (offset : Nat) : Nat × Hustdb :=
  let (reply, storage) := s.storage.del md5 (s.query t.table 0 0) t.key 0 false
  match reply.r, reply.ctxt with
  | .ok, some ctxt => (reply.version, { s with storage, tables := s.releaseMeta offset ctxt })
  | _, _ => (reply.version, { s with storage })

def getTarget (s : Hustdb) (t : Target) (offset : Nat) : Answer × Hustdb :=
  match s.cached cfg t with
  | some item => (⟨.ok, item.version, item.value, item.compressType⟩, s)
  | none =>
    let reply := s.storage.get md5 (s.query t.table 0 0) t.key
    match reply.r with
    | .err e => (.err e reply.version, s)
    | .ok =>
      let ttl := reply.kvData.ttl
      if ttl > 0 ∧ ttl ≤ s.now then
        let (ver, s) := s.dropDead md5 t offset
        (.err .ENOENT ver, s)
      else
        let alive := if ttl > 0 then ttl - s.now else 0
        let compressType := reply.kvData.compressType
        let answer := ⟨.ok, reply.version, reply.rsp, compressType⟩
        if cfg.mdbOk ∧ t.cacheable ∧ reply.rsp.length < mdbValLen then
          (answer, { s with mdb := s.mdb.put s.now t.mkey reply.rsp reply.version compressType alive })
        else (answer, s)

def hustdbExist (s : Hustdb) (key : Bytes) : Rc × Nat :=
  if key = [] then (.err .EKEYREJECTED, 0)
  else s.storage.exists_ md5 (s.query [] 0 0) key

def hustdbGet (s : Hustdb) (key : Bytes) : Answer × Hustdb :=
  if key = [] then (.err .EKEYREJECTED 0, s)
  else s.getTarget md5 cfg (plainTarget key) 0

def hustdbHget (s : Hustdb) (table key : Bytes) : Answer × Hustdb :=
  if !tbNameCheck table ∨ key = [] then (.err .EKEYREJECTED 0, s)
  else
    match (s.tables.findTableOffset table false .hashTb).1 with
    | none => (.err .EPERM 0, s)
    | some offset => s.getTarget md5 cfg (tableTarget table .hashTb key) offset

def ismember (s : Hustdb) (type inner : TableType) (table key : Bytes) : Rc × Nat :=
  if !tbNameCheck table ∨ key = [] then (.err .EKEYREJECTED, 0)
  else
    match (s.tables.findTableOffset table false type).1 with
    | none => (.err .EPERM, 0)
    | some _ => s.storage.exists_ md5 (s.query (innerTable table inner []) 0 0) key

def hustdbHexist (s : Hustdb) (table key : Bytes) : Rc × Nat :=
  s.ismember md5 .hashTb .hashTb table key

def hustdbSismember (s : Hustdb) (table key : Bytes) : Rc × Nat :=
  s.ismember md5 .setTb .setTb table key

def hustdbZismember (s : Hustdb) (table key : Bytes) : Rc × Nat :=
  s.ismember md5 .zsetTb .zsetIn table key

/-! ### Writing -/

def putTarget (s : Hustdb) (t : Target) (offset : Nat) (val : Bytes) (ver ttl : Nat) (isDup : Bool)
    (compressType cacheType : Nat) (sized : Bool) : Db.Reply × Hustdb :=
  let (reply, storage) :=
    s.storage.put md5 (s.query t.table (s.deathOf cfg ttl) compressType) t.key val ver isDup
  match reply.r, reply.ctxt with
  | .ok, some ctxt =>
    let tables :=
      if ctxt.kvType = .newKv ∧ !ctxt.isVersionError then
        s.tables.setTableMeta offset 1 (if sized then (t.key.length + val.length : Int) else 0)
      else s.tables
    let mdb :=
      if ((!isDup ∧ reply.version > 1) ∨
            (isDup ∧ ver = reply.version ∧ !ctxt.isVersionError)) ∧ cfg.mdbOk ∧ t.cacheable then
        if val.length < mdbValLen then s.mdb.put s.now t.mkey val reply.version cacheType ttl
        else s.mdb.del t.mkey
      else s.mdb
    (reply, { s with storage, tables, mdb })
  | _, _ => (reply, { s with storage })

def hustdbPut (s : Hustdb) (key val : Bytes) (ver ttl : Nat) (isDup : Bool) (compressType : Nat) :
    Answer × Hustdb :=
  if key = [] ∨ val = [] ∨ !checkVersion ver then (.err .EKEYREJECTED ver, s)
  else if s.overThreshold then (.err .ENOMEM ver, s)
  else
    let (reply, s) := s.putTarget md5 cfg (plainTarget key) 0 val ver ttl isDup compressType
      compressType true
    (.ofReply reply, s)

def hustdbHset (s : Hustdb) (table key val : Bytes) (ver ttl : Nat) (isDup : Bool)
    (compressType : Nat) : Answer × Hustdb :=
  if !tbNameCheck table ∨ !checkVersion ver ∨ key = [] ∨ val = [] then (.err .EKEYREJECTED ver, s)
  else if s.overThreshold then (.err .ENOMEM ver, s)
  else
    match s.tables.findTableOffset table true .hashTb with
    | (none, tables) => (.err .EPERM ver, { s with tables })
    | (some offset, tables) =>
      let (reply, s) := { s with tables }.putTarget md5 cfg (tableTarget table .hashTb key) offset val
        ver ttl isDup compressType compressType true
      (.ofReply reply, s)

def hustdbSadd (s : Hustdb) (table key : Bytes) (ver ttl : Nat) (isDup : Bool) (compressType : Nat) :
    Answer × Hustdb :=
  if !tbNameCheck table ∨ !checkVersion ver ∨ key = [] then (.err .EKEYREJECTED ver, s)
  else if s.overThreshold then (.err .ENOMEM ver, s)
  else
    match s.tables.findTableOffset table true .setTb with
    | (none, tables) => (.err .EPERM ver, { s with tables })
    | (some offset, tables) =>
      let (reply, s) := { s with tables }.putTarget md5 cfg (setTarget table key) offset [] ver ttl
        isDup compressType compressType false
      (.ofReply reply, s)

def readCurrent (s : Hustdb) (t : Target) : Rc × Nat × Bytes :=
  match s.cached cfg t with
  | some item => (.ok, item.version, item.value)
  | none =>
    let reply := s.storage.get md5 (s.query t.table 0 0) t.key
    (reply.r, reply.version, reply.rsp)

def hustdbHincrby (s : Hustdb) (table key : Bytes) (score : Int) (ver ttl : Nat) (isDup : Bool)
    (compressType : Nat) : Answer × Hustdb :=
  if !tbNameCheck table ∨ !checkVersion ver ∨ key = [] then (.err .EKEYREJECTED ver, s)
  else if s.overThreshold then (.err .ENOMEM ver, s)
  else
    match s.tables.findTableOffset table true .hashTb with
    | (none, tables) => (.err .EPERM ver, { s with tables })
    | (some offset, tables) =>
      let s := { s with tables }
      let t := tableTarget table .hashTb key
      let (r, _, rsp) := s.readCurrent md5 cfg t
      match (if r = .ok then dbStrtoll rsp else some 0) with
      | none => (.err .ENOMEM ver, s)
      | some curScore =>
        let val := printLi (wrap64 (score + curScore))
        let (reply, s) := s.putTarget md5 cfg t offset val ver ttl isDup compressType 0 true
        match reply.r with
        | .err e => (.err e reply.version, s)
        | .ok => (⟨.ok, reply.version, val, 0⟩, s)

/-! ### Removing -/

def delTarget (s : Hustdb) (t : Target) (offset : Nat) (ver : Nat) (isDup sized : Bool) :
    Db.Reply × Hustdb :=
  let (reply, storage) := s.storage.del md5 (s.query t.table 0 0) t.key ver isDup
  match reply.r, reply.ctxt with
  | .ok, some ctxt =>
    if ctxt.isVersionError then (reply, { s with storage })
    else
      let tables := if sized then s.releaseMeta offset ctxt else s.tables.setTableMeta offset (-1) 0
      let mdb := if cfg.mdbOk ∧ t.cacheable then s.mdb.del t.mkey else s.mdb
      (reply, { s with storage, tables, mdb })
  | _, _ => (reply, { s with storage })

def hustdbDel (s : Hustdb) (key : Bytes) (ver : Nat) (isDup : Bool) : Answer × Hustdb :=
  if key = [] ∨ !checkVersion ver then (.err .EKEYREJECTED ver, s)
  else
    let (reply, s) := s.delTarget md5 cfg (plainTarget key) 0 ver isDup true
    (.ofReply reply, s)

def hustdbHdel (s : Hustdb) (table key : Bytes) (ver : Nat) (isDup : Bool) : Answer × Hustdb :=
  if !tbNameCheck table ∨ !checkVersion ver ∨ key = [] then (.err .EKEYREJECTED ver, s)
  else
    match (s.tables.findTableOffset table false .hashTb).1 with
    | none => (.err .EPERM ver, s)
    | some offset =>
      let (reply, s) := s.delTarget md5 cfg (tableTarget table .hashTb key) offset ver isDup true
      (.ofReply reply, s)

def hustdbSrem (s : Hustdb) (table key : Bytes) (ver : Nat) (isDup : Bool) : Answer × Hustdb :=
  if !tbNameCheck table ∨ !checkVersion ver ∨ key = [] then (.err .EKEYREJECTED ver, s)
  else
    match (s.tables.findTableOffset table false .setTb).1 with
    | none => (.err .EPERM ver, s)
    | some offset =>
      let (reply, s) := s.delTarget md5 cfg (setTarget table key) offset ver isDup false
      (.ofReply reply, s)

/-! ### Sorted sets

The member of a sorted set is a record that holds the score as text. The index holds a second record
for it, in a table whose name ends in the score, so that the listing has the members in the order of
these names. -/

def indexTarget (table key : Bytes) (score : Int) : Target :=
  ⟨innerTable table .zsetTb (printLi21 score), key, false⟩

def reindex (s : Hustdb) (table key val : Bytes) (old : Option Int) (score : Int) (ver : Nat)
    (compressType : Nat) : Rc × Hustdb :=
  let s :=
    match old with
    | none => s
    | some oldScore =>
      let t := indexTarget table key oldScore
      { s with storage := (s.storage.del md5 (s.query t.table 0 0) t.key 0 false).2 }
  let t := indexTarget table key score
  let (reply, storage) := s.storage.put md5 (s.query t.table 0 compressType) t.key val ver true
  (reply.r, { s with storage })

def zaddScore (s : Hustdb) (table key : Bytes) : Option (Option Int) :=
  let cur := s.readCurrent md5 cfg (tableTarget table .zsetIn key)
  if cur.1 = .ok then (dbStrtoll cur.2.2).map some else some none

def newScore (old : Option Int) (score opt : Int) : Int :=
  if opt > 0 then wrap64 (old.getD 0 + score)
  else if opt < 0 then wrap64 (old.getD 0 - score) else score

def hustdbZadd (s : Hustdb) (table key : Bytes) (score opt : Int) (ver ttl : Nat) (isDup : Bool)
    (compressType : Nat) : Answer × Bool × Hustdb :=
  if !tbNameCheck table ∨ !checkVersion ver ∨ key = [] then (.err .EKEYREJECTED ver, false, s)
  else if s.overThreshold then (.err .ENOMEM ver, false, s)
  else
    match s.tables.findTableOffset table true .zsetTb with
    | (none, tables) => (.err .EPERM ver, false, { s with tables })
    | (some offset, tables) =>
      let s := { s with tables }
      let t := tableTarget table .zsetIn key
      let curVer := (s.readCurrent md5 cfg t).2.1
      match s.zaddScore md5 cfg table key with
      | none => (.err .ENOMEM ver, false, s)
      | some old =>
        if opt = 0 ∧ old = some score ∧ curVer ≥ ver then (⟨.ok, curVer, [], 0⟩, false, s)
        else
          let score := newScore old score opt
          let val := printLi score
          let (reply, s) := s.putTarget md5 cfg t offset val ver ttl isDup compressType 0 false
          let versionError := reply.ctxt.all fun ctxt => ctxt.isVersionError
          match reply.r with
          | .err e => (.err e reply.version, versionError, s)
          | .ok =>
            match s.reindex md5 table key val old score reply.version compressType with
            | (.err e, s) => (.err e reply.version, versionError, s)
            | (.ok, s) => (⟨.ok, reply.version, val, 0⟩, versionError, s)

def peekTarget (s : Hustdb) (t : Target) : Answer × Hustdb :=
  match s.cached cfg t with
  | some item => (⟨.ok, item.version, item.value, 0⟩, s)
  | none =>
    let reply := s.storage.get md5 (s.query t.table 0 0) t.key
    match reply.r with
    | .err e => (.err e reply.version, s)
    | .ok =>
      let ttl := reply.kvData.ttl
      if ttl > 0 ∧ ttl ≤ s.now then (.err .ENOENT reply.version, s)
      else
        let alive := if ttl > 0 then ttl - s.now else 0
        let answer := ⟨.ok, reply.version, reply.rsp, 0⟩
        if cfg.mdbOk ∧ t.cacheable ∧ reply.rsp.length < mdbValLen then
          (answer, { s with mdb := s.mdb.put s.now t.mkey reply.rsp reply.version 0 alive })
        else (answer, s)

def hustdbZscore (s : Hustdb) (table key : Bytes) : Answer × Hustdb :=
  if !tbNameCheck table ∨ key = [] then (.err .EKEYREJECTED 0, s)
  else
    match (s.tables.findTableOffset table false .zsetTb).1 with
    | none => (.err .EPERM 0, s)
    | some _ => s.peekTarget md5 cfg (tableTarget table .zsetIn key)

def zremScore (s : Hustdb) (table key : Bytes) : Option Int :=
  let t := tableTarget table .zsetIn key
  let reply := s.storage.get md5 (s.query t.table 0 0) t.key
  if reply.r = .ok then dbStrtoll reply.rsp else some 0

def hustdbZrem (s : Hustdb) (table key : Bytes) (ver : Nat) (isDup : Bool) : Answer × Hustdb :=
  if !tbNameCheck table ∨ !checkVersion ver ∨ key = [] then (.err .EKEYREJECTED ver, s)
  else
    match (s.tables.findTableOffset table false .zsetTb).1 with
    | none => (.err .EPERM ver, s)
    | some offset =>
      let t := tableTarget table .zsetIn key
      match s.zremScore md5 table key with
      | none => (.err .ENOMEM ver, s)
      | some curScore =>
        let (reply, s) := s.delTarget md5 cfg t offset ver isDup false
        match reply.r with
        | .err _ => (.ofReply reply, s)
        | .ok =>
          let i := indexTarget table key curScore
          let storage := (s.storage.del md5 (s.query i.table 0 0) i.key 0 false).2
          (.ofReply reply, { s with storage })

end Hustdb

end HustStore
