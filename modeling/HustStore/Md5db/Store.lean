import HustStore.KvArray
import HustStore.Md5db.ContentArray
import HustStore.Md5db.FastConflict

/-!
# The md5db store

The functions of `kv_md5db_t` as state transformers. A key is filed under the md5 digest of its table and user
key. Its slot is empty, points directly to the record of the only key in it, or points to a conflict row.
-/

namespace HustStore.Md5db

def maxKeyLen : Nat := 16777215

def maxValLen : Nat := 267386880

def zsetScoreLen : Nat := 21

def zsetTb : UInt8 := 124

structure KvDataItem where
  userKeyLen : Nat
  compressType : Nat
  ttl : Nat
  timestamp : Nat
  deriving DecidableEq, Repr

namespace KvDataItem

def reset : KvDataItem := ⟨0, 0, 0, 0⟩

def size : Nat := 12

def bytes (d : KvDataItem) : Bytes :=
  le32 (d.userKeyLen % 2 ^ 24 + d.compressType % 2 ^ 2 * 2 ^ 24) ++ le32 d.ttl ++ le32 d.timestamp

def parse (b : Bytes) : KvDataItem :=
  let w := readLe32 b
  ⟨w % 2 ^ 24, w / 2 ^ 24 % 2 ^ 2, readLe32 (b.drop 4), readLe32 (b.drop 8)⟩

end KvDataItem

inductive KvType
  | newKv
  | errorKv
  deriving DecidableEq, Repr

structure ItemCtxt where
  innerFileId : Nat
  isVersionError : Bool
  kvType : KvType
  kvData : KvDataItem
  deriving DecidableEq, Repr

/-- The settings of a connection that an operation reads (`conn_ctxt_t` and `query_ctxt_t`): the
table with its type byte, the ttl to be stored, the compression type and the current time. -/
structure Query where
  table : Bytes
  wttl : Nat
  compressType : Nat
  timestamp : Nat
  deriving DecidableEq, Repr

def Query.plain (timestamp : Nat) : Query := ⟨[], 0, 0, timestamp⟩

structure Db where
  buckets : Slot → BucketDataItem
  fullkeys : UInt8 → Fullkey
  fastConflicts : UInt8 → FastConflict
  conflicts : Conflicts
  contents : ContentArray
  data : KvArray

structure Config where
  conflictCount : Nat
  conflictFiles : Nat
  contentFiles : Nat
  dataFiles : Nat

namespace Db

def create (cfg : Config) : Db where
  buckets := fun _ => .reset
  fullkeys := Fullkey.create
  fastConflicts := FastConflict.create cfg.conflictCount
  conflicts := Conflicts.create cfg.conflictFiles
  contents := ContentArray.create cfg.contentFiles
  data := KvArray.create cfg.dataFiles

def setBucket (db : Db) (slot : Slot) (item : BucketDataItem) : Db :=
  { db with buckets := assign db.buckets slot item }

def setFullkey (db : Db) (c : UInt8) (fk : Fullkey) : Db :=
  { db with fullkeys := assign db.fullkeys c fk }

def setFastConflict (db : Db) (c : UInt8) (fc : FastConflict) : Db :=
  { db with fastConflicts := assign db.fastConflicts c fc }

def checkUserKey (userKey : Bytes) : Bool := 0 < userKey.length && userKey.length ≤ maxKeyLen

variable (md5 : Bytes → InnerKey)

def innerKeyOf (q : Query) (userKey : Bytes) : InnerKey := md5 (q.table ++ userKey)

def hashCtxt (db : Db) (q : Query) (innerKey : InnerKey) : ItemCtxt :=
  let key :=
    if q.table = [] then innerKey.bytes
    else if q.table.length > zsetScoreLen ∧ q.table[q.table.length - zsetScoreLen - 1]? = some zsetTb then
      q.table.take (q.table.length - zsetScoreLen)
    else q.table
  ⟨db.data.hashWithMd5db key, false, .errorKv, .reset⟩

def recordBytes (val userKey : Bytes) (kvData : KvDataItem) : Bytes :=
  val ++ userKey ++ kvData.bytes

def kvDataOf (q : Query) (userKey : Bytes) : KvDataItem :=
  ⟨userKey.length, q.compressType, q.wttl, q.timestamp⟩

def addDataToContentDb (db : Db) (q : Query) (bucket : UInt8) (blockId : BlockId)
    (userKey val : Bytes) (ctxt : ItemCtxt) : Rc × ItemCtxt × Db :=
  let ctxt := { ctxt with kvData := kvDataOf q userKey }
  let value := recordBytes val userKey ctxt.kvData
  match db.contents.write value with
  | (none, contents) => (.err .EFAULT, ctxt, { db with contents })
  | (some (fileId, dataId), contents) =>
    let db := { db with contents }
    if dataId = 0 then (.err .EFAULT, ctxt, db)
    else
      match (db.fullkeys bucket).setContentId blockId
          (ContentId.set fileId dataId value.length) with
      | (false, _) => (.err .EFAULT, ctxt, db)
      | (true, fk) =>
        let db := db.setFullkey bucket fk
        let (r, data) := db.data.putFromMd5db blockId ctxt.innerFileId q.table q.wttl
        (r, ctxt, { db with data })

def setDataToContentDb (db : Db) (q : Query) (bucket : UInt8) (blockId : BlockId)
    (userKey val : Bytes) (ctxt : ItemCtxt) : Rc × ItemCtxt × Db :=
  match (db.fullkeys bucket).getContentId blockId with
  | none => (.err .EFAULT, ctxt, db)
  | some contentId =>
    if contentId.dataLen = 0 then (.err .EFAULT, ctxt, db)
    else
      let ctxt := { ctxt with kvData := kvDataOf q userKey }
      let value := recordBytes val userKey ctxt.kvData
      match db.contents.update contentId.fileId contentId.dataId contentId.dataLen value with
      | (none, contents) => (.err .EFAULT, ctxt, { db with contents })
      | (some dataId, contents) =>
        let db := { db with contents }
        match (db.fullkeys bucket).setContentId blockId
            (ContentId.set contentId.fileId dataId value.length) with
        | (false, _) => (.err .EFAULT, ctxt, db)
        | (true, fk) => (.ok, ctxt, db.setFullkey bucket fk)

/-- `kv_md5db_t::get_conflict_block_id`, and the search at the head of `set_conflict_data` and
`del_conflict_block_id`. The flag says that the key was found in the row. -/
def findConflict (db : Db) (innerKey : InnerKey) (item : BucketDataItem) :
    Except Errno (BlockId × Nat × Bool) :=
  match (db.fastConflicts innerKey.bucket).get (db.fullkeys innerKey.bucket) item innerKey with
  | .found (blockId, version) => .ok (blockId, version, true)
  | .stop e => .error e
  | .search _ =>
    match db.conflicts.get innerKey with
    | .error e => .error e
    | .ok (blockId, version) => .ok (blockId, version, false)

/-! ### Put -/

structure Reply where
  r : Rc
  version : Nat
  ctxt : Option ItemCtxt
  deriving DecidableEq, Repr

def newData (db : Db) (q : Query) (innerKey : InnerKey) (userKey val : Bytes) (userVersion : Nat)
    (fromBinlog : Bool) (ctxt : ItemCtxt) : Rc × Nat × ItemCtxt × Db :=
  let bucket := innerKey.bucket
  let slot := slotOf innerKey
  if !fromBinlog ∧ userVersion ≠ 0 then (.err .EINVAL, 0, ctxt, db)
  else
    match (db.fullkeys bucket).write innerKey with
    | (none, fk) => (.err .EFAULT, 0, ctxt, db.setFullkey bucket fk)
    | (some blockId, fk) =>
      match (db.setFullkey bucket fk).addDataToContentDb q bucket blockId userKey val ctxt with
      | (.err e, ctxt, db) =>
        (.err e, 0, ctxt, db.setFullkey bucket ((db.fullkeys bucket).del blockId).2)
      | (.ok, ctxt, db) =>
        let item := ((db.buckets slot).setBlockId blockId).setType .directData
        let item := item.setVersion (if fromBinlog then userVersion else 1)
        (.ok, item.version, ctxt, db.setBucket slot item)

def addConflictData (db : Db) (q : Query) (innerKey : InnerKey) (userKey val : Bytes)
    (userVersion : Nat) (fromBinlog : Bool) (ctxt : ItemCtxt) : Rc × Nat × ItemCtxt × Db :=
  let bucket := innerKey.bucket
  let slot := slotOf innerKey
  let item := db.buckets slot
  if !fromBinlog ∧ userVersion ≠ 0 then (.err .EINVAL, 0, ctxt, db)
  else
    match (db.fullkeys bucket).get item.blockId with
    | none => (.err .EFAULT, 0, ctxt, db)
    | some _ =>
      match (db.fullkeys bucket).write innerKey with
      | (none, fk) => (.err .EFAULT, 0, ctxt, db.setFullkey bucket fk)
      | (some secondBlockId, fk) =>
        let db := db.setFullkey bucket fk
        let version := if fromBinlog then userVersion else 1
        match (db.fastConflicts bucket).writeRow item.blockId item.version secondBlockId version with
        | (none, fc) =>
          (.err .EFAULT, 0, ctxt, (db.setFastConflict bucket fc).setFullkey bucket (fk.del secondBlockId).2)
        | (some addr, fc) =>
          match (db.setFastConflict bucket fc).addDataToContentDb q bucket secondBlockId userKey val
              ctxt with
          | (.err e, ctxt, db) => (.err e, 0, ctxt, db)
          | (.ok, ctxt, db) =>
            let item := ((item.setConflictCount 2).setBlockId addr).setType .conflictData
            (.ok, version, ctxt, db.setBucket slot item)

def newConflictData (db : Db) (q : Query) (innerKey : InnerKey) (userKey val : Bytes)
    (userVersion : Nat) (fromBinlog : Bool) (ctxt : ItemCtxt) : Rc × Nat × ItemCtxt × Db :=
  let bucket := innerKey.bucket
  let slot := slotOf innerKey
  let item := db.buckets slot
  if !fromBinlog ∧ userVersion ≠ 0 then (.err .EINVAL, 0, ctxt, db)
  else
    match (db.fullkeys bucket).write innerKey with
    | (none, fk) => (.err .EFAULT, 0, ctxt, db.setFullkey bucket fk)
    | (some blockId, fk) =>
      match (db.setFullkey bucket fk).addDataToContentDb q bucket blockId userKey val ctxt with
      | (.err e, ctxt, db) =>
        (.err e, 0, ctxt, db.setFullkey bucket ((db.fullkeys bucket).del blockId).2)
      | (.ok, ctxt, db) =>
        let version := if fromBinlog then userVersion else 1
        let stored : Rc × Nat × Db :=
          match (db.fastConflicts bucket).add (db.fullkeys bucket) item innerKey blockId version with
          | (.found _, fc) => (.ok, version, db.setFastConflict bucket fc)
          | (.stop _, fc) => (.err .EFAULT, version, db.setFastConflict bucket fc)
          | (.search _, fc) =>
            let (r, conflicts) := db.conflicts.put innerKey blockId version
            (r, if r = .ok then version else 0, { db.setFastConflict bucket fc with conflicts })
        match stored with
        | (.err e, version, db) => (.err e, version, ctxt, db)
        | (.ok, version, db) =>
          let ctxt := { ctxt with kvType := .newKv }
          match item.addConflictCount with
          | none => (.err .EFAULT, version, ctxt, db)
          | some item => (.ok, version, ctxt, db.setBucket slot item)

def updateConflictData (db : Db) (q : Query) (innerKey : InnerKey) (userKey val : Bytes)
    (userVersion : Nat) (fromBinlog : Bool) (blockId : BlockId) (version : Nat) (inRow : Bool)
    (ctxt : ItemCtxt) : Rc × Nat × ItemCtxt × Db :=
  let bucket := innerKey.bucket
  let item := db.buckets (slotOf innerKey)
  if userVersion ≠ 0 ∧ !fromBinlog ∧ userVersion ≠ version then
    (.err .EINVAL, version, { ctxt with isVersionError := true }, db)
  else if userVersion ≠ 0 ∧ fromBinlog ∧ !binlogVersionValid userVersion version then
    (.ok, version, { ctxt with isVersionError := true }, db)
  else
    match db.setDataToContentDb q bucket blockId userKey val ctxt with
    | (.err e, ctxt, db) => (.err e, version, ctxt, db)
    | (.ok, ctxt, db) =>
      let t := if fromBinlog then userVersion else addVersion version
      if inRow then
        match (db.fastConflicts bucket).update (db.fullkeys bucket) item innerKey blockId t with
        | (.found _, fc) => (.ok, t, ctxt, db.setFastConflict bucket fc)
        | (.stop e, fc) | (.search e, fc) =>
          (.err e, version, ctxt, db.setFastConflict bucket fc)
      else
        match db.conflicts.put innerKey blockId t with
        | (.ok, conflicts) => (.ok, t, ctxt, { db with conflicts })
        | (.err e, conflicts) => (.err e, version, ctxt, { db with conflicts })

def setConflictData (db : Db) (q : Query) (innerKey : InnerKey) (userKey val : Bytes)
    (userVersion : Nat) (fromBinlog : Bool) (ctxt : ItemCtxt) : Rc × Nat × ItemCtxt × Db :=
  match db.findConflict innerKey (db.buckets (slotOf innerKey)) with
  | .error .ENOENT => db.newConflictData q innerKey userKey val userVersion fromBinlog ctxt
  | .error e => (.err e, 0, ctxt, db)
  | .ok (blockId, version, inRow) =>
    db.updateConflictData q innerKey userKey val userVersion fromBinlog blockId version inRow ctxt

def updateDirectData (db : Db) (q : Query) (innerKey : InnerKey) (userKey val : Bytes)
    (userVersion : Nat) (fromBinlog : Bool) (ctxt : ItemCtxt) : Rc × Nat × ItemCtxt × Db :=
  let bucket := innerKey.bucket
  let slot := slotOf innerKey
  let item := db.buckets slot
  if userVersion ≠ 0 ∧ !fromBinlog ∧ userVersion ≠ item.version then
    (.err .EINVAL, item.version, { ctxt with isVersionError := true }, db)
  else if userVersion ≠ 0 ∧ fromBinlog ∧ !binlogVersionValid userVersion item.version then
    (.ok, item.version, { ctxt with isVersionError := true }, db)
  else
    match db.setDataToContentDb q bucket item.blockId userKey val ctxt with
    | (.err e, ctxt, db) => (.err e, item.version, ctxt, db)
    | (.ok, ctxt, db) =>
      let version := if fromBinlog then userVersion else addVersion item.version
      let db := db.setBucket slot (item.setVersion version)
      if version = 0 then (.err .EFAULT, version, ctxt, db) else (.ok, version, ctxt, db)

def putSlot (db : Db) (q : Query) (innerKey : InnerKey) (userKey val : Bytes) (userVersion : Nat)
    (fromBinlog : Bool) (ctxt : ItemCtxt) : Rc × Nat × ItemCtxt × Db :=
  let item := db.buckets (slotOf innerKey)
  match item.type with
  | .directData =>
    if (db.fullkeys innerKey.bucket).compare item.blockId innerKey then
      db.updateDirectData q innerKey userKey val userVersion fromBinlog ctxt
    else
      match db.addConflictData q innerKey userKey val userVersion fromBinlog ctxt with
      | (.err e, version, ctxt, db) => (.err e, version, ctxt, db)
      | (.ok, version, ctxt, db) =>
        if version = 0 then (.err .EFAULT, version, ctxt, db)
        else (.ok, version, { ctxt with kvType := .newKv }, db)
  | .conflictData =>
    match db.setConflictData q innerKey userKey val userVersion fromBinlog ctxt with
    | (.ok, version, ctxt, db) =>
      (if version = 0 then .err .EFAULT else .ok, version, ctxt, db)
    | (.err e, version, ctxt, db) =>
      (if ctxt.isVersionError ∧ fromBinlog then .ok else .err e, version, ctxt, db)
  | .noData =>
    match db.newData q innerKey userKey val userVersion fromBinlog ctxt with
    | (.ok, version, ctxt, db) =>
      if version = 0 then (.err .EFAULT, version, ctxt, db)
      else (.ok, version, { ctxt with kvType := .newKv }, db)
    | (.err e, version, ctxt, db) =>
      (if ctxt.isVersionError ∧ fromBinlog then .ok else .err e, version, ctxt, db)

def putInner (db : Db) (q : Query) (userKey val : Bytes) (userVersion : Nat) (fromBinlog : Bool) :
    Reply × Db :=
  if userVersion > bucketDataMaxVersion then (⟨.err .EINVAL, 0, none⟩, db)
  else if fromBinlog ∧ userVersion = 0 then (⟨.err .EINVAL, 0, none⟩, db)
  else if !checkUserKey userKey ∨ userKey.length + val.length > maxValLen then
    (⟨.err .EINVAL, 0, none⟩, db)
  else
    let innerKey := innerKeyOf md5 q userKey
    let (r, version, ctxt, db) := db.putSlot q innerKey userKey val userVersion fromBinlog
      (db.hashCtxt q innerKey)
    (⟨r, version, some ctxt⟩, db)

def put (db : Db) (q : Query) (userKey val : Bytes) (version : Nat) (isDup : Bool) : Reply × Db :=
  let (reply, db) := db.putInner md5 q userKey val version isDup
  let refused := reply.ctxt.any fun ctxt => ctxt.isVersionError
  (if refused ∧ isDup then { reply with r := .ok } else reply, db)

/-! ### Get and exists -/

structure GetReply where
  r : Rc
  version : Nat
  rsp : Bytes
  kvData : KvDataItem
  deriving DecidableEq, Repr

def parseRecord (userKey record : Bytes) : Except Errno (Bytes × KvDataItem) :=
  if record.length ≤ KvDataItem.size then .error .EFAULT
  else
    let kvData := KvDataItem.parse (record.drop (record.length - KvDataItem.size))
    if kvData.userKeyLen = 0 ∨ userKey.length ≠ kvData.userKeyLen ∨
        record.length < KvDataItem.size + userKey.length then .error .EFAULT
    else
      let valLen := record.length - KvDataItem.size - userKey.length
      if (record.drop valLen).take userKey.length ≠ userKey then .error .EFAULT
      else .ok (record.take valLen, kvData)

def getDataFromContentDb (db : Db) (bucket : UInt8) (blockId : BlockId) (userKey : Bytes) :
    Except Errno (Bytes × KvDataItem) :=
  match (db.fullkeys bucket).getContentId blockId with
  | none => .error .EFAULT
  | some contentId =>
    if contentId.dataLen = 0 then .error .EFAULT
    else
      match db.contents.get contentId.fileId contentId.dataId contentId.dataLen with
      | none => .error .EFAULT
      | some record => parseRecord userKey record

def locate (db : Db) (innerKey : InnerKey) : Except Errno (BlockId × Nat) :=
  let item := db.buckets (slotOf innerKey)
  match item.type with
  | .directData =>
    if (db.fullkeys innerKey.bucket).compare item.blockId innerKey then .ok (item.blockId, item.version)
    else .error .ENOENT
  | .conflictData =>
    match db.findConflict innerKey item with
    | .ok (blockId, version, _) => .ok (blockId, version)
    | .error .ENOENT => .error .ENOENT
    | .error _ => .error .EFAULT
  | .noData => .error .ENOENT

def exists_ (db : Db) (q : Query) (userKey : Bytes) : Rc × Nat :=
  if !checkUserKey userKey then (.err .EINVAL, 0)
  else
    match db.locate (innerKeyOf md5 q userKey) with
    | .error e => (.err e, 0)
    | .ok (_, version) => (.ok, version)

def get (db : Db) (q : Query) (userKey : Bytes) : GetReply :=
  if !checkUserKey userKey then ⟨.err .EINVAL, 0, [], .reset⟩
  else
    let innerKey := innerKeyOf md5 q userKey
    match db.locate innerKey with
    | .error e => ⟨.err e, 0, [], .reset⟩
    | .ok (blockId, version) =>
      match db.getDataFromContentDb innerKey.bucket blockId userKey with
      | .error e => ⟨.err e, version, [], .reset⟩
      | .ok (val, kvData) => ⟨.ok, version, val, kvData⟩

/-! ### Del -/

/-- Removes the item of a key and its record, and returns the
block id, the content id and the version of what it removed. A replicated deletion that is refused
for its version returns success with an empty content id. -/
def delConflictBlockId (db : Db) (innerKey : InnerKey) (userVersion : Nat) (fromBinlog : Bool)
    (ctxt : ItemCtxt) : Rc × BlockId × ContentId × Nat × ItemCtxt × Db :=
  let bucket := innerKey.bucket
  let slot := slotOf innerKey
  let item := db.buckets slot
  match db.findConflict innerKey item with
  | .error e => (.err e, ⟨0, 0⟩, .reset, 0, ctxt, db)
  | .ok (blockId, version, inRow) =>
    if userVersion ≠ 0 ∧ !fromBinlog ∧ userVersion ≠ version then
      (.err .EINVAL, blockId, .reset, version, { ctxt with isVersionError := true }, db)
    else if userVersion ≠ 0 ∧ fromBinlog ∧ !binlogVersionValid userVersion version then
      (.ok, blockId, .reset, version, { ctxt with isVersionError := true }, db)
    else
      let db :=
        if inRow then
          db.setFastConflict bucket ((db.fastConflicts bucket).del (db.fullkeys bucket) item innerKey).2
        else { db with conflicts := (db.conflicts.del innerKey).2 }
      let contentId := ((db.fullkeys bucket).getContentId blockId).getD .reset
      let db := db.setFullkey bucket ((db.fullkeys bucket).del blockId).2
      let (count, item) := item.decConflictCount
      let item := if count = 0 then item.setType .noData else item
      (.ok, blockId, contentId, version, ctxt, db.setBucket slot item)

def deleteConflictData (db : Db) (q : Query) (innerKey : InnerKey) (userVersion : Nat)
    (fromBinlog : Bool) (ctxt : ItemCtxt) : Rc × Nat × ItemCtxt × Db :=
  match db.delConflictBlockId innerKey userVersion fromBinlog ctxt with
  | (.err e, _, _, version, ctxt, db) => (.err e, version, ctxt, db)
  | (.ok, blockId, contentId, version, ctxt, db) =>
    let ctxt := { ctxt with kvData := { ctxt.kvData with ttl := contentId.dataLen } }
    match db.contents.del contentId.fileId contentId.dataId contentId.dataLen with
    | none => (.err .EFAULT, version, ctxt, db)
    | some contents =>
      let (r, data) := db.data.delFromMd5db blockId ctxt.innerFileId q.table
      (r, version, ctxt, { db with contents, data })

def deleteDirectData (db : Db) (q : Query) (bucket : UInt8) (blockId : BlockId) (ctxt : ItemCtxt) :
    Rc × ItemCtxt × Db :=
  match (db.fullkeys bucket).getContentId blockId with
  | none => (.err .EFAULT, ctxt, db)
  | some contentId =>
    if contentId.dataLen = 0 then (.err .EFAULT, ctxt, db)
    else
      let ctxt := { ctxt with kvData := { ctxt.kvData with ttl := contentId.dataLen } }
      match db.contents.del contentId.fileId contentId.dataId contentId.dataLen with
      | none => (.err .EFAULT, ctxt, db)
      | some contents =>
        match (db.fullkeys bucket).del blockId with
        | (false, _) => (.err .EFAULT, ctxt, { db with contents })
        | (true, fk) =>
          let (r, data) := db.data.delFromMd5db blockId ctxt.innerFileId q.table
          (r, ctxt, { db.setFullkey bucket fk with contents, data })

def delSlot (db : Db) (q : Query) (innerKey : InnerKey) (userVersion : Nat) (fromBinlog : Bool)
    (ctxt : ItemCtxt) : Rc × Nat × ItemCtxt × Db :=
  let bucket := innerKey.bucket
  let slot := slotOf innerKey
  let item := db.buckets slot
  match item.type with
  | .directData =>
    if !(db.fullkeys bucket).compare item.blockId innerKey then (.err .ENOENT, 0, ctxt, db)
    else if userVersion ≠ 0 ∧ !fromBinlog ∧ userVersion ≠ item.version then
      (.err .EINVAL, item.version, { ctxt with isVersionError := true }, db)
    else if userVersion ≠ 0 ∧ fromBinlog ∧ !binlogVersionValid userVersion item.version then
      (.ok, item.version, { ctxt with isVersionError := true }, db)
    else
      match db.deleteDirectData q bucket item.blockId ctxt with
      | (.err e, ctxt, db) =>
        (.err (if e = .ENOENT then .EFAULT else e), item.version, ctxt, db)
      | (.ok, ctxt, db) =>
        let item := (item.setBlockId ⟨0, 0⟩).setType .noData
        (.ok, item.version, ctxt, db.setBucket slot item)
  | .conflictData => db.deleteConflictData q innerKey userVersion fromBinlog ctxt
  | .noData => (.err .ENOENT, 0, ctxt, db)

def del (db : Db) (q : Query) (userKey : Bytes) (userVersion : Nat) (fromBinlog : Bool) :
    Reply × Db :=
  if userVersion > bucketDataMaxVersion then (⟨.err .EINVAL, 0, none⟩, db)
  else if !checkUserKey userKey then (⟨.err .EINVAL, 0, none⟩, db)
  else
    let innerKey := innerKeyOf md5 q userKey
    let (r, version, ctxt, db) := db.delSlot q innerKey userVersion fromBinlog
      (db.hashCtxt q innerKey)
    (⟨r, version, some ctxt⟩, db)

end Db

end HustStore.Md5db
