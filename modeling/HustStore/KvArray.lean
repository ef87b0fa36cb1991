import HustStore.Lib.SortedMap
import HustStore.Md5db.Bucket

/-!
# The listing files and the ttl index

Beside the records themselves the store keeps ordered databases: every record has an entry in one of
the listing files, under its table and block id, and a record that was inserted with a ttl has an
entry in the ttl index.
-/

namespace HustStore

open Md5db (BlockId)

def leveldbKeyMax : Nat := 1024

def leveldbCheckKey (key : Bytes) : Bool := 0 < key.length && key.length ≤ leveldbKeyMax

structure TtlEntry where
  ttl : Nat
  fileId : Nat
  deriving DecidableEq, Repr

structure KvArray where
  fileCount : Nat
  files : Nat → SortedMap Bytes Bytes
  ttlFile : SortedMap Bytes TtlEntry

def hustHashKey (data : Bytes) : Nat :=
  data.foldl (fun key b => (key * 31 + if b.toNat < 128 then b.toNat else b.toNat + (2 ^ 32 - 256)) % 2 ^ 32) 0

namespace KvArray

def create (fileCount : Nat) : KvArray := ⟨fileCount, fun _ => .empty, .empty⟩

def hashWithMd5db (kv : KvArray) (key : Bytes) : Nat := hustHashKey key % kv.fileCount

def listingKey (table : Bytes) (blockId : BlockId) : Bytes := table ++ blockId.bytes

def putFromMd5db (kv : KvArray) (blockId : BlockId) (fileId : Nat) (table : Bytes) (ttl : Nat) :
    Rc × KvArray :=
  let key := listingKey table blockId
  if fileId ≥ kv.fileCount then (.err .EINVAL, kv)
  else if !leveldbCheckKey key then (.err .EINVAL, kv)
  else
    let kv := { kv with files := assign kv.files fileId ((kv.files fileId).insert key []) }
    (.ok, if ttl > 0 then { kv with ttlFile := kv.ttlFile.insert key ⟨ttl, fileId⟩ } else kv)

def delFromMd5db (kv : KvArray) (blockId : BlockId) (fileId : Nat) (table : Bytes) :
    Rc × KvArray :=
  let key := listingKey table blockId
  if fileId ≥ kv.fileCount then (.err .EINVAL, kv)
  else if !leveldbCheckKey key then (.err .EINVAL, kv)
  else (.ok, { kv with files := assign kv.files fileId ((kv.files fileId).erase key) })

variable {kv : KvArray} {blockId : BlockId} {fileId ttl : Nat} {table : Bytes}

theorem putFromMd5db_ok (h : (kv.putFromMd5db blockId fileId table ttl).1 = .ok) :
    (kv.putFromMd5db blockId fileId table ttl).2 = { kv with
        files := assign kv.files fileId ((kv.files fileId).insert (listingKey table blockId) [])
        ttlFile := if ttl > 0 then kv.ttlFile.insert (listingKey table blockId) ⟨ttl, fileId⟩
          else kv.ttlFile } := by
  unfold putFromMd5db at h ⊢
  simp only at h ⊢
  split_ifs at h ⊢ <;> rfl

theorem delFromMd5db_ok (h : (kv.delFromMd5db blockId fileId table).1 = .ok) :
    (kv.delFromMd5db blockId fileId table).2 = { kv with
        files := assign kv.files fileId ((kv.files fileId).erase (listingKey table blockId)) } := by
  unfold delFromMd5db at h ⊢
  simp only at h ⊢
  split_ifs at h ⊢
  rfl

theorem delFromMd5db_subset {f : Nat} {key v : Bytes}
    (h : ((kv.delFromMd5db blockId fileId table).2.files f).get? key = some v) :
    (kv.files f).get? key = some v := by
  unfold delFromMd5db at h
  simp only at h
  split_ifs at h
  · exact h
  · exact h
  · simp only at h
    by_cases hf : f = fileId
    · subst hf
      rw [assign_self, SortedMap.get?_erase] at h
      split_ifs at h
      exact h
    · rwa [assign_of_ne hf] at h

theorem putFromMd5db_fileCount : (kv.putFromMd5db blockId fileId table ttl).2.fileCount = kv.fileCount := by
  unfold putFromMd5db
  simp only
  split_ifs <;> rfl

theorem delFromMd5db_fileCount : (kv.delFromMd5db blockId fileId table).2.fileCount = kv.fileCount := by
  unfold delFromMd5db
  simp only
  split_ifs <;> rfl

theorem listingKey_inj {t t' : Bytes} {b b' : BlockId} (hb : b.dataId < 2 ^ 32)
    (hb' : b'.dataId < 2 ^ 32) (h : listingKey t b = listingKey t' b') : t = t' ∧ b = b' := by
  obtain ⟨ht, hbytes⟩ := List.append_inj' h (by simp)
  exact ⟨ht, Md5db.BlockId.bytes_inj hb hb' hbytes⟩

end KvArray

end HustStore
