import HustStore.Md5db.Records
import Mathlib.Algebra.Ring.Int.Defs

/-!
# Compressing a value before it is stored

The handler of a put compresses a value when the configured ratio promises to save a page, and stores the result
when it did save one.
-/

namespace HustStore

open Md5db (KvDataItem)
open Md5db.Content2 (pageCount_eq pageCount_mono)

def dataLen (keyLen valLen : Nat) : Nat := (keyLen + valLen + KvDataItem.size) % 2 ^ 32

def savedPages (orgSize newSize : Nat) : Nat := (orgSize + 2 ^ 32 - newSize) % 2 ^ 32

def worthToCompress (ratio keyLen valLen : Nat) : Bool :=
  if dataLen keyLen valLen ≤ Md5db.page ∨ ratio = 100 then false
  else
    let estimate := valLen * ratio % 2 ^ 32 / 100
    savedPages (Md5db.pageCount (dataLen keyLen valLen)) (Md5db.pageCount (dataLen keyLen estimate)) ≥ 1

def checkFromCompress (keyLen valLen compressedLen : Nat) : Bool :=
  savedPages (Md5db.pageCount (dataLen keyLen valLen)) (Md5db.pageCount (dataLen keyLen compressedLen)) ≥ 1

structure Payload where
  compressed : Bool
  len : Nat
  deriving DecidableEq, Repr

def toHustdbData (ratio keyLen valLen : Nat) (compress : Int) : Option Payload :=
  if !worthToCompress ratio keyLen valLen then some ⟨false, valLen⟩
  else
    let len := (compress % 2 ^ 64).toNat
    if len < 1 then none
    else if !checkFromCompress keyLen valLen (len % 2 ^ 32) then some ⟨false, valLen⟩
    else some ⟨true, len⟩

/-! ### Pages -/

def recordPages (keyLen valLen : Nat) : Nat := Md5db.pageCount (keyLen + valLen + KvDataItem.size)

/-- The lengths that reach the two functions: the value and the compressed text are held in buffers
of `tcp.max_body_size` bytes, which is an `int`, and the key is part of the request line. -/
structure Lengths (keyLen valLen compressedLen : Nat) : Prop where
  key_le : keyLen + KvDataItem.size ≤ 2 ^ 31
  val_lt : valLen < 2 ^ 31
  compressed_lt : compressedLen < 2 ^ 31

section Pages

variable {keyLen valLen compressedLen ratio m n : Nat}

theorem pageCount_lt (h : m + Md5db.page ≤ n) : Md5db.pageCount m < Md5db.pageCount n := by
  unfold Md5db.page at h
  rw [pageCount_eq, pageCount_eq]
  omega

theorem one_le_savedPages_iff (hm : m < 2 ^ 32) (hn : n < 2 ^ 32) : 1 ≤ savedPages m n ↔ m ≠ n := by
  unfold savedPages
  omega

theorem pageCount_lt_word (h : n < 2 ^ 32) : Md5db.pageCount n < 2 ^ 32 := by
  rw [pageCount_eq]
  omega

theorem dataLen_eq (hkey : keyLen + KvDataItem.size ≤ 2 ^ 31) (hval : valLen < 2 ^ 31) :
    dataLen keyLen valLen = keyLen + valLen + KvDataItem.size := Nat.mod_eq_of_lt (by omega)

theorem dataLen_lt : dataLen keyLen valLen < 2 ^ 32 := Nat.mod_lt _ (by decide)

theorem savedPages_dataLen (keyLen valLen compressedLen : Nat) :
    1 ≤ savedPages (Md5db.pageCount (dataLen keyLen valLen)) (Md5db.pageCount (dataLen keyLen compressedLen)) ↔
      Md5db.pageCount (dataLen keyLen valLen) ≠ Md5db.pageCount (dataLen keyLen compressedLen) :=
  one_le_savedPages_iff (pageCount_lt_word dataLen_lt) (pageCount_lt_word dataLen_lt)

theorem checkFromCompress_iff (h : Lengths keyLen valLen compressedLen) :
    checkFromCompress keyLen valLen compressedLen = true ↔
      recordPages keyLen compressedLen ≠ recordPages keyLen valLen := by
  unfold checkFromCompress recordPages
  rw [decide_eq_true_eq, ge_iff_le, savedPages_dataLen, dataLen_eq h.key_le h.val_lt,
    dataLen_eq h.key_le h.compressed_lt]
  exact ne_comm

theorem worthToCompress_iff (hkey : keyLen + KvDataItem.size ≤ 2 ^ 31) (hval : valLen < 2 ^ 31)
    (hratio : ratio ≤ 100) :
    worthToCompress ratio keyLen valLen = true ↔
      recordPages keyLen (valLen * ratio / 100) < recordPages keyLen valLen := by
  have hprod : valLen * ratio ≤ valLen * 100 := Nat.mul_le_mul_left valLen hratio
  unfold worthToCompress recordPages
  rw [dataLen_eq hkey hval]
  split
  · rename_i hskip
    simp only [Bool.false_eq_true, false_iff, Nat.not_lt]
    rcases hskip with hsmall | rfl
    · -- One page holds the record, and no record takes less.
      have hone : Md5db.pageCount (keyLen + valLen + KvDataItem.size) ≤ 1 := by
        unfold Md5db.page at hsmall
        rw [pageCount_eq]
        omega
      refine hone.trans ?_
      rw [pageCount_eq]
      unfold KvDataItem.size
      omega
    · rw [Nat.mul_div_cancel valLen (by decide)]
  · rename_i hskip
    have hlow : valLen * ratio ≤ valLen * 99 := Nat.mul_le_mul_left valLen (by omega)
    have hestimate : valLen * ratio % 2 ^ 32 / 100 ≤ valLen * ratio / 100 :=
      Nat.div_le_div_right (Nat.mod_le _ _)
    have hmono : Md5db.pageCount (keyLen + valLen * ratio % 2 ^ 32 / 100 + KvDataItem.size) ≤
        Md5db.pageCount (keyLen + valLen * ratio / 100 + KvDataItem.size) := pageCount_mono (by omega)
    have hle : Md5db.pageCount (keyLen + valLen * ratio / 100 + KvDataItem.size) ≤
        Md5db.pageCount (keyLen + valLen + KvDataItem.size) := pageCount_mono (by omega)
    have hsaved := savedPages_dataLen keyLen valLen (valLen * ratio % 2 ^ 32 / 100)
    rw [dataLen_eq hkey hval] at hsaved
    simp only [decide_eq_true_eq, ge_iff_le, hsaved]
    rw [dataLen_eq hkey (by omega)]
    by_cases hfit : valLen * ratio < 2 ^ 32
    · rw [Nat.mod_eq_of_lt hfit] at hmono ⊢
      omega
    · have hless : Md5db.pageCount (keyLen + valLen * ratio / 100 + KvDataItem.size) <
          Md5db.pageCount (keyLen + valLen + KvDataItem.size) := pageCount_lt (by unfold Md5db.page; omega)
      omega

end Pages

/-! ### What is stored -/

section Stored

variable {keyLen valLen compressedLen ratio : Nat}

theorem checkFromCompress_of_toHustdbData (hlen : compressedLen < 2 ^ 31) {p : Payload}
    (h : toHustdbData ratio keyLen valLen compressedLen = some p) (hp : p.compressed = true) :
    checkFromCompress keyLen valLen compressedLen = true := by
  have hword : ((compressedLen : Int) % 2 ^ 64).toNat % 2 ^ 32 = compressedLen := by omega
  unfold toHustdbData at h
  simp only [hword] at h
  split_ifs at h with hworth hshort hcheck
  · cases h
    cases hp
  · cases h
    cases hp
  · simpa using hcheck

end Stored

/-- The two checks are exact, and only a text that saves a page is stored compressed, exactly when
the compression does not need more pages than the value itself. -/
theorem compression_pays_off_iff {keyLen valLen compressedLen ratio : Nat}
    (hlen : Lengths keyLen valLen compressedLen) (hratio : ratio ≤ 100) :
    ((checkFromCompress keyLen valLen compressedLen = true ↔
        recordPages keyLen compressedLen < recordPages keyLen valLen) ∧
      (worthToCompress ratio keyLen valLen = true ↔
        recordPages keyLen (valLen * ratio / 100) < recordPages keyLen valLen) ∧
      ∀ p, toHustdbData ratio keyLen valLen compressedLen = some p → p.compressed = true →
        recordPages keyLen compressedLen < recordPages keyLen valLen) ↔
      recordPages keyLen compressedLen ≤ recordPages keyLen valLen := by
  have hcheck := checkFromCompress_iff hlen
  constructor
  · rintro ⟨hexact, -⟩
    by_contra hgrown
    have hfewer := hexact.mp (hcheck.mpr (by omega))
    omega
  · intro hle
    have hexact : checkFromCompress keyLen valLen compressedLen = true ↔
        recordPages keyLen compressedLen < recordPages keyLen valLen := by
      rw [hcheck]
      omega
    refine ⟨hexact, worthToCompress_iff hlen.key_le hlen.val_lt hratio, fun p hp hcompressed => ?_⟩
    exact hexact.mp (checkFromCompress_of_toHustdbData hlen.compressed_lt hp hcompressed)

/-- A value of four kilobytes that shrinks to one. -/
theorem compression_pays_off_small : Lengths 10 4096 1000 ∧ checkFromCompress 10 4096 1000 = true ∧
      recordPages 10 1000 < recordPages 10 4096 := by
  have hlen : Lengths 10 4096 1000 := ⟨by decide, by decide, by decide⟩
  have hpays := (compression_pays_off_iff hlen (show 50 ≤ 100 by decide)).mpr (by decide)
  exact ⟨hlen, by decide, hpays.1.mp (by decide)⟩

/-- A value that fills two pages with its key and grows by ten bytes is stored compressed, in three
pages. -/
theorem grown_value_is_stored : toHustdbData 40 10 2020 2030 = some ⟨true, 2030⟩ ∧ recordPages 10 2020 = 2 ∧
      recordPages 10 2030 = 3 := by
  decide

-- the -1 of a compression that failed is read as a length
example : toHustdbData 40 10 2020 (-1) = some ⟨true, 2 ^ 64 - 1⟩ := by
  decide

end HustStore
