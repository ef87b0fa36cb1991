import HustStore.Base

/-!
# Bucket items

A record of the md5db store is reached through an eight-byte item: two bits of type, a version packed into a
six-bit and a sixteen-bit field, and the five-byte block id of the record.
-/

namespace HustStore.Md5db

inductive BucketType
  | noData
  | directData
  | conflictData
  deriving DecidableEq, Repr

structure BlockId where
  bucketId : UInt8
  dataId : Nat
  deriving DecidableEq, Repr

def BlockId.bytes (b : BlockId) : Bytes := b.bucketId :: le32 b.dataId

@[simp] theorem BlockId.length_bytes (b : BlockId) : b.bytes.length = 5 := rfl

theorem BlockId.bytes_inj {a b : BlockId} (ha : a.dataId < 2 ^ 32) (hb : b.dataId < 2 ^ 32)
    (h : a.bytes = b.bytes) : a = b := by
  obtain ⟨hbucket, hdata⟩ := List.cons.inj h
  have hid := le32_inj ha hb hdata
  cases a
  cases b
  simp_all

def bucketDataMaxVersion : Nat := 4194303

structure BucketDataItem where
  type : BucketType
  verH : Nat
  verL : Nat
  blockId : BlockId
  deriving DecidableEq, Repr

namespace BucketDataItem

def reset : BucketDataItem := ⟨.noData, 0, 0, ⟨0, 0⟩⟩

def setType (item : BucketDataItem) (type : BucketType) : BucketDataItem := { item with type }

def setVersion (item : BucketDataItem) (version : Nat) : BucketDataItem :=
  { item with verH := version / 64 % 2 ^ 6, verL := version % 65536 }

def version (item : BucketDataItem) : Nat := item.verH * 16 + item.verL

def getConflictCount (item : BucketDataItem) : Nat := item.verH * 16 + item.verL

def setConflictCount (item : BucketDataItem) (v : Nat) : BucketDataItem :=
  if v ≤ bucketDataMaxVersion then item.setVersion v else item

def addConflictCount (item : BucketDataItem) : Option BucketDataItem :=
  let version := item.verH * 16 + item.verL
  if version = bucketDataMaxVersion then none else some (item.setVersion (version + 1))

def decConflictCount (item : BucketDataItem) : Nat × BucketDataItem :=
  let version := item.verH * 16 + item.verL
  let version := if version > 0 then version - 1 else version
  (version, item.setVersion version)

def setBlockId (item : BucketDataItem) (blockId : BlockId) : BucketDataItem :=
  { item with blockId }

end BucketDataItem

def packVersion (v : Nat) : Nat := v / 64 % 2 ^ 6 * 16 + v % 65536

def Representable (v : Nat) : Prop := v < 65536 ∧ v % 4096 < 64

instance : DecidablePred Representable :=
  fun v => inferInstanceAs (Decidable (v < 65536 ∧ v % 4096 < 64))

theorem packVersion_eq_self_iff (v : Nat) : packVersion v = v ↔ Representable v := by
  unfold packVersion Representable
  omega

theorem packVersion_lt (v : Nat) : packVersion v < 66544 := by
  unfold packVersion
  omega

theorem packVersion_le (v : Nat) : packVersion v ≤ bucketDataMaxVersion := (packVersion_lt v).le.trans (by decide)

theorem Representable.packVersion {v : Nat} (h : Representable v) : packVersion v = v :=
  (packVersion_eq_self_iff v).mpr h

namespace BucketDataItem

variable (item : BucketDataItem) (v : Nat) (t : BucketType) (b : BlockId)

@[simp] theorem version_setVersion : (item.setVersion v).version = packVersion v := rfl

@[simp] theorem type_setVersion : (item.setVersion v).type = item.type := rfl

@[simp] theorem blockId_setVersion : (item.setVersion v).blockId = item.blockId := rfl

@[simp] theorem version_setType : (item.setType t).version = item.version := rfl

@[simp] theorem type_setType : (item.setType t).type = t := rfl

@[simp] theorem blockId_setType : (item.setType t).blockId = item.blockId := rfl

@[simp] theorem version_setBlockId : (item.setBlockId b).version = item.version := rfl

@[simp] theorem type_setBlockId : (item.setBlockId b).type = item.type := rfl

@[simp] theorem blockId_setBlockId : (item.setBlockId b).blockId = b := rfl

@[simp] theorem getConflictCount_eq_version : item.getConflictCount = item.version := rfl

end BucketDataItem

structure ContentId where
  fileIdH : Nat
  dataId : Nat
  fileIdL : Nat
  dataLen : Nat
  deriving DecidableEq, Repr

namespace ContentId

def reset : ContentId := ⟨0, 0, 0, 0⟩

def set (fileId dataId dataLen : Nat) : ContentId :=
  { fileIdH := fileId / 16 % 2 ^ 4
    dataId := dataId % 2 ^ 28
    fileIdL := fileId % 16
    dataLen := dataLen % 2 ^ 28 }

def fileId (c : ContentId) : Nat := c.fileIdH * 16 + c.fileIdL

theorem fileId_set {fileId : Nat} (dataId dataLen : Nat) (h : fileId < 256) :
    (set fileId dataId dataLen).fileId = fileId := by
  simp only [ContentId.fileId, set]
  omega

theorem dataId_set {dataId : Nat} (fileId dataLen : Nat) (h : dataId < 2 ^ 28) :
    (set fileId dataId dataLen).dataId = dataId := Nat.mod_eq_of_lt h

theorem dataLen_set {dataLen : Nat} (fileId dataId : Nat) (h : dataLen < 2 ^ 28) :
    (set fileId dataId dataLen).dataLen = dataLen := Nat.mod_eq_of_lt h

end ContentId

/-- The md5 digest of a key, under which the store files it: sixteen bytes, the first of them the
lowest. -/
abbrev InnerKey := BitVec 128

namespace InnerKey

def byte (innerKey : InnerKey) (j : Nat) : Nat := innerKey.toNat / 2 ^ (8 * j) % 2 ^ 8

def bucket (innerKey : InnerKey) : UInt8 := .ofNat (innerKey.byte 0)

def bytes (innerKey : InnerKey) : Bytes := (List.range 16).map fun j => .ofNat (innerKey.byte j)

end InnerKey

structure Slot where
  bucket : UInt8
  item : Nat
  deriving DecidableEq, Repr

def keyToItem (innerKey : InnerKey) : Nat :=
  let p2 := innerKey.byte 1 / 16
  let p1 := innerKey.byte 1 % 16 * 16 + innerKey.byte 2 / 16
  let p0 := innerKey.byte 2 % 16 * 16 + innerKey.byte 3 / 16
  p0 + p1 * 2 ^ 8 + p2 * 2 ^ 16

def slotOf (innerKey : InnerKey) : Slot := ⟨innerKey.bucket, keyToItem innerKey⟩

structure Md5Suffix where
  head : Nat
  tail : Nat
  deriving DecidableEq, Repr

def md5Suffix (innerKey : InnerKey) : Md5Suffix where
  head := innerKey.toNat / 2 ^ 24 % 2 ^ 32
  tail := innerKey.toNat / 2 ^ 56

theorem InnerKey.toNat_eq (k : InnerKey) :
    k.toNat = k.byte 0 + 2 ^ 8 * k.byte 1 + 2 ^ 16 * k.byte 2 + 2 ^ 24 * (k.toNat / 2 ^ 24) := by
  simp only [InnerKey.byte]
  omega

theorem keyToItem_eq (k : InnerKey) : keyToItem k = k.byte 1 * 2 ^ 12 + k.byte 2 * 2 ^ 4 + k.byte 3 / 2 ^ 4 := by
  simp only [keyToItem]
  omega

theorem innerKey_eq {a b : InnerKey} (hslot : slotOf a = slotOf b) (hsuffix : md5Suffix a = md5Suffix b) : a = b := by
  have hhead : a.toNat / 2 ^ 24 % 2 ^ 32 = b.toNat / 2 ^ 24 % 2 ^ 32 :=
    congrArg Md5Suffix.head hsuffix
  have htail : a.toNat / 2 ^ 56 = b.toNat / 2 ^ 56 := congrArg Md5Suffix.tail hsuffix
  have hrest : a.toNat / 2 ^ 24 = b.toNat / 2 ^ 24 := by omega
  have hbyte0 : a.byte 0 = b.byte 0 := by
    have := congrArg (fun s => s.bucket.toNat) hslot
    simp only [slotOf, InnerKey.bucket, InnerKey.byte, UInt8.toNat_ofNat'] at this ⊢
    omega
  have hbyte3 : a.byte 3 = b.byte 3 := by
    simp only [InnerKey.byte]
    exact congrArg (· % 2 ^ 8) hrest
  have hitem : keyToItem a = keyToItem b := congrArg Slot.item hslot
  rw [keyToItem_eq, keyToItem_eq, hbyte3] at hitem
  have hlt (k : InnerKey) (j : Nat) : k.byte j < 2 ^ 8 := Nat.mod_lt _ (by decide)
  have ha2 := hlt a 2
  have hb2 := hlt b 2
  have hb3 := hlt b 3
  refine BitVec.eq_of_toNat_eq ?_
  rw [a.toNat_eq, b.toNat_eq, hrest, hbyte0]
  omega

def addVersion (version : Nat) : Nat :=
  if version < bucketDataMaxVersion then version + 1 else 1

def binlogVersionValid (userVersion curVersion : Nat) : Bool :=
  let verThreshold := 100000
  if userVersion ≥ curVersion then true
  else bucketDataMaxVersion - curVersion ≤ verThreshold && userVersion ≤ verThreshold

end HustStore.Md5db
