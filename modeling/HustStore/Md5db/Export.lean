import HustStore.Md5db.Store

/-!
# Exporting records

The walk over a listing file. `export_md5db_record_callback` goes from a listing entry to the record, takes it
apart and asks the slot for its version.
-/

namespace HustStore.Md5db

def maxBucketNum : Nat := 1024

def bucketHash (data : Bytes) : Nat := hustHashKey data % 2 ^ 16 % maxBucketNum

def BlockId.ofBytes (b : Bytes) : BlockId := ⟨b.headD 0, readLe32 b.tail⟩

def blockIdBytes : Nat := 5

structure Exported where
  key : Bytes
  val : Bytes
  version : Nat
  compressType : Nat
  deriving DecidableEq, Repr

structure ExportParam where
  table : Option Bytes
  start : Nat
  stop : Nat
  offset : Nat
  size : Nat
  noval : Bool
  byscore : Bool
  min21 : Bytes
  max21 : Bytes

namespace Db

variable (md5 : Bytes → InnerKey)

def md5dbInfoByKey (db : Db) (table key : Bytes) : Nat :=
  match db.locate (md5 (table ++ key)) with
  | .ok (_, version) => version
  | .error _ => 0

def recordAt (db : Db) (blockId : BlockId) : Option (Bytes × Bytes × Nat) :=
  match (db.fullkeys blockId.bucketId).getContentId blockId with
  | none => none
  | some contentId =>
    if contentId.dataLen = 0 then none
    else
      match db.contents.get contentId.fileId contentId.dataId contentId.dataLen with
      | none => none
      | some record =>
        if record.length ≤ KvDataItem.size then none
        else
          let kvData := KvDataItem.parse (record.drop (record.length - KvDataItem.size))
          let kl := kvData.userKeyLen
          if kl = 0 ∨ record.length < KvDataItem.size + kl then none
          else
            let vl := record.length - KvDataItem.size - kl
            some ((record.drop vl).take kl, record.take vl, kvData.compressType)

def listingTable (key : Bytes) : Bytes :=
  if key.length > blockIdBytes + 1 then key.take (key.length - blockIdBytes) else []

def exportRecord (db : Db) (key : Bytes) (start stop : Nat) (noval : Bool) : Option Exported :=
  match db.recordAt (BlockId.ofBytes (key.drop (key.length - blockIdBytes))) with
  | none => none
  | some (userKey, val, compressType) =>
    let hash := bucketHash userKey
    if hash < start ∨ hash ≥ stop then none
    else
      some ⟨userKey, if noval then [] else val, db.md5dbInfoByKey md5 (listingTable key) userKey, compressType⟩

def leaves (p : ExportParam) (table key : Bytes) : Bool :=
  !table.isPrefixOf key ||
    (p.byscore && (key.length ≠ table.length + zsetScoreLen + blockIdBytes ||
      p.max21 < (key.drop (key.length - blockIdBytes - zsetScoreLen)).take zsetScoreLen))

def listingType (key : Bytes) : Option UInt8 :=
  if key.length > blockIdBytes then
    if key.length > zsetScoreLen + blockIdBytes + 1 ∧
        key[key.length - zsetScoreLen - blockIdBytes - 1]? = some zsetTb then some zsetTb
    else key[key.length - blockIdBytes - 1]?
  else none

def realTableType (type : UInt8) : Char :=
  if type = 33 then 'H' else if type = 35 then 'S' else if type = 3 then 'Y'
  else if type = zsetTb then 'Z' else 'N'

def listingLabel (key : Bytes) : Option (Bytes × Char) :=
  if key.length > blockIdBytes then
    let tableLen :=
      if key.length > zsetScoreLen + blockIdBytes + 1 ∧
          key[key.length - zsetScoreLen - blockIdBytes - 1]? = some zsetTb then
        key.length - zsetScoreLen - blockIdBytes - 1
      else key.length - blockIdBytes - 1
    some (key.take tableLen, realTableType (key.getD tableLen 0))
  else none

def exportLoop (db : Db) (p : ExportParam) : List Bytes → List Exported
  | [] => []
  | key :: rest =>
    let next := exportLoop db p rest
    let emit :=
      match db.exportRecord md5 key p.start p.stop p.noval with
      | none => next
      | some x => if x.version = 0 then next else x :: next
    match p.table with
    | none => if listingType key = some 3 then next else emit
    | some table => if leaves p table key then [] else emit

def exportDbMem (db : Db) (fileId : Nat) (p : ExportParam) : Rc × List Exported :=
  if fileId ≥ db.data.fileCount then (.err .EFAULT, [])
  else
    let keys := (db.data.files fileId).entries.map Prod.fst
    let seek :=
      match p.table with
      | none => []
      | some table => if p.byscore then table ++ p.min21 else table
    let keys := keys.dropWhile fun key => key < seek
    (.ok, db.exportLoop md5 p ((keys.take (p.offset + p.size)).drop p.offset))

def exportDb (db : Db) (fileId : Nat) (p : ExportParam) : Rc × List Exported :=
  if fileId ≥ db.data.fileCount then (.err .EFAULT, [])
  else
    let keys := (db.data.files fileId).entries.map Prod.fst
    let keys := keys.dropWhile fun key => key < p.table.getD []
    let keys :=
      if p.offset + p.size = 0 then keys else (keys.take (p.offset + p.size)).drop p.offset
    (.ok, db.exportLoop md5 { p with byscore := false } keys)

end Db

end HustStore.Md5db
