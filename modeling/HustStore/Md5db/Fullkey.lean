import HustStore.Lib.Chain
import HustStore.Md5db.Bucket
import Mathlib.Data.Set.Insert

/-!
# Fullkey files

A fullkey file keeps one record for each stored key: the suffix of the digest and the content id of the value.
Record 0 is the header.
-/

namespace HustStore.Md5db

def filekeyBytesPerFile : Nat := 0xFFFFFFFF - 1

def fullkeyDataBytes : Nat := 21

def fullkeyItemMaxPerFile : Nat := filekeyBytesPerFile / fullkeyDataBytes

def fullkeyDefaultItemCount : Nat := 400000

def fullkeyExpandItemCount : Nat := 400000

structure FullkeyData where
  md5Suffix : Md5Suffix
  contentId : ContentId
  deriving DecidableEq, Repr

def FullkeyData.reset : FullkeyData := ⟨⟨0, 0⟩, ContentId.reset⟩

def FullkeyData.link (d : FullkeyData) : Nat := d.md5Suffix.head

def FullkeyData.setLink (d : FullkeyData) (n : Nat) : FullkeyData :=
  { d with md5Suffix := { d.md5Suffix with head := n } }

structure Fullkey where
  fileId : UInt8
  count : Nat
  freeListId : Nat
  capacity : Nat
  data : Nat → FullkeyData

namespace Fullkey

def create (fileId : UInt8) : Fullkey where
  fileId
  count := 0
  freeListId := 0
  capacity := fullkeyDefaultItemCount
  data := fun _ => .reset

def setData (fk : Fullkey) (index : Nat) (d : FullkeyData) : Fullkey :=
  { fk with data := assign fk.data index d }

def parseBlockId (fk : Fullkey) (blockId : BlockId) : Option Nat :=
  let index := blockId.dataId
  if index = 0 then none
  else if blockId.bucketId ≠ fk.fileId ∨ index ≥ fullkeyItemMaxPerFile then none
  else if fk.count = 0 ∨ index > fk.count then none
  else some index

def appendItem (fk : Fullkey) : Option (Nat × Fullkey) :=
  if fk.count > fk.capacity then none
  else if fk.count = fk.capacity then
    let expandCount :=
      if fk.count + 1 + fullkeyExpandItemCount > fullkeyItemMaxPerFile then
        fullkeyItemMaxPerFile - 1 - fk.count
      else fullkeyExpandItemCount
    if expandCount = 0 then none
    else some (fk.count + 1, { fk with count := fk.count + 1, capacity := fk.capacity + expandCount })
  else some (fk.count + 1, { fk with count := fk.count + 1 })

def allocItem (fk : Fullkey) : Option (Nat × Fullkey) :=
  if fk.freeListId ≠ 0 ∧ fk.freeListId ≤ fk.count then
    let item := fk.freeListId
    let next := (fk.data item).link
    some (item, { fk.setData item ((fk.data item).setLink 0) with
      freeListId := if next > fk.count then 0 else next })
  else fk.appendItem

def write (fk : Fullkey) (innerKey : InnerKey) : Option BlockId × Fullkey :=
  match fk.allocItem with
  | none => (none, fk)
  | some (item, fk) =>
    let offset := item * fullkeyDataBytes
    if offset < fullkeyDataBytes ∨ offset + fullkeyDataBytes > filekeyBytesPerFile then (none, fk)
    else
      (some ⟨fk.fileId, offset / fullkeyDataBytes⟩,
        fk.setData item { fk.data item with md5Suffix := md5Suffix innerKey })

def compare (fk : Fullkey) (blockId : BlockId) (innerKey : InnerKey) : Bool :=
  match fk.parseBlockId blockId with
  | none => false
  | some index => (fk.data index).md5Suffix = md5Suffix innerKey

def get (fk : Fullkey) (blockId : BlockId) : Option Md5Suffix :=
  (fk.parseBlockId blockId).map fun index => (fk.data index).md5Suffix

def del (fk : Fullkey) (blockId : BlockId) : Bool × Fullkey :=
  match fk.parseBlockId blockId with
  | none => (false, fk)
  | some index =>
    (true, { fk.setData index (FullkeyData.reset.setLink fk.freeListId) with freeListId := index })

def setContentId (fk : Fullkey) (blockId : BlockId) (contentId : ContentId) : Bool × Fullkey :=
  match fk.parseBlockId blockId with
  | none => (false, fk)
  | some index =>
    if contentId.fileId > 0xFF ∨ contentId.dataId = 0 ∨ contentId.dataLen = 0 then (false, fk)
    else (true, fk.setData index { fk.data index with contentId })

def getContentId (fk : Fullkey) (blockId : BlockId) : Option ContentId :=
  (fk.parseBlockId blockId).map fun index => (fk.data index).contentId

end Fullkey

namespace Fullkey

/-! ### The allocator's invariant

`live` is the set of records that the store refers to. The free list never reaches one of them;
records that are neither live nor free are lost space and do no harm. -/

open Intrusive (Chain)

structure Inv (fk : Fullkey) (live : Set Nat) : Prop where
  free : ∃ free : List Nat, Chain (fun i => (fk.data i).link) 0 fk.freeListId free ∧ free.Nodup ∧
    ∀ i ∈ free, 0 < i ∧ i ≤ fk.count ∧ i ∉ live
  live_le : ∀ i ∈ live, 0 < i ∧ i ≤ fk.count
  count_le : fk.count ≤ fk.capacity
  capacity_lt : fk.capacity < fullkeyItemMaxPerFile

theorem inv_create (fileId : UInt8) : (create fileId).Inv ∅ where
  free := ⟨[], rfl, List.nodup_nil, by simp⟩
  live_le := by simp
  count_le := Nat.zero_le _
  capacity_lt := show fullkeyDefaultItemCount < fullkeyItemMaxPerFile by decide

variable {fk fk' : Fullkey} {live live' : Set Nat}

theorem Inv.mono (h : fk.Inv live) (hsub : live' ⊆ live) : fk.Inv live' where
  free := by
    obtain ⟨free, hchain, hnodup, hfree⟩ := h.free
    exact ⟨free, hchain, hnodup, fun i hi =>
      ⟨(hfree i hi).1, (hfree i hi).2.1, fun hlive => (hfree i hi).2.2 (hsub hlive)⟩⟩
  live_le i hi := h.live_le i (hsub hi)
  count_le := h.count_le
  capacity_lt := h.capacity_lt

section

variable (i : Nat) (d : FullkeyData)

@[simp] theorem setData_fileId : (fk.setData i d).fileId = fk.fileId :=
  rfl

@[simp] theorem setData_count : (fk.setData i d).count = fk.count :=
  rfl

@[simp] theorem setData_capacity : (fk.setData i d).capacity = fk.capacity := rfl

@[simp] theorem setData_freeListId : (fk.setData i d).freeListId = fk.freeListId := rfl

@[simp] theorem setData_data_self : (fk.setData i d).data i = d :=
  assign_self ..

end

theorem setData_data_of_ne {i j : Nat} (h : j ≠ i) (d : FullkeyData) :
    (fk.setData i d).data j = fk.data j := assign_of_ne h ..

variable {i : Nat}

theorem Inv.setData (h : fk.Inv live) (hi : i ∈ live) (d : FullkeyData) : (fk.setData i d).Inv live where
  free := by
    obtain ⟨free, hchain, hnodup, hfree⟩ := h.free
    refine ⟨free, hchain.congr fun j hj => ?_, hnodup, hfree⟩
    have hne : j ≠ i := fun heq => (hfree j hj).2.2 (heq ▸ hi)
    rw [setData_data_of_ne hne]
  live_le := h.live_le
  count_le := h.count_le
  capacity_lt := h.capacity_lt

theorem Inv.parseBlockId (h : fk.Inv live) (hi : i ∈ live) : fk.parseBlockId ⟨fk.fileId, i⟩ = some i := by
  obtain ⟨hpos, hle⟩ := h.live_le i hi
  have hcap := h.count_le
  have hmax := h.capacity_lt
  unfold Fullkey.parseBlockId
  simp only
  rw [if_neg (by omega), if_neg (by simp; omega), if_neg (by omega)]

structure Allocated (fk : Fullkey) (live : Set Nat) (item : Nat) (fk' : Fullkey) : Prop where
  fresh : item ∉ live
  inv : fk'.Inv (insert item live)
  data_eq : ∀ i ∈ live, fk'.data i = fk.data i
  fileId_eq : fk'.fileId = fk.fileId

theorem Inv.appendItem (h : fk.Inv live) {item : Nat} (halloc : fk.appendItem = some (item, fk')) :
    Allocated fk live item fk' := by
  have hcount := h.count_le
  have hcap := h.capacity_lt
  -- Both ways of appending take record `count + 1` and leave the records alone.
  have hshape : ∃ capacity, item = fk.count + 1 ∧
      fk' = { fk with count := fk.count + 1, capacity } ∧ fk.count + 1 ≤ capacity ∧
      capacity < fullkeyItemMaxPerFile := by
    have hexpand : fullkeyExpandItemCount = 400000 := rfl
    unfold Fullkey.appendItem at halloc
    simp only at halloc
    split_ifs at halloc with h1 h2 h3 h4 h5
    all_goals
      simp only [Option.some.injEq, Prod.mk.injEq] at halloc
      obtain ⟨rfl, rfl⟩ := halloc
      exact ⟨_, rfl, rfl, by omega, by omega⟩
  obtain ⟨capacity, rfl, rfl, hle, hlt⟩ := hshape
  have hfresh : fk.count + 1 ∉ live := fun hmem => by
    have := (h.live_le _ hmem).2
    omega
  refine ⟨hfresh, ⟨?_, ?_, hle, hlt⟩, fun _ _ => rfl, rfl⟩
  · obtain ⟨free, hchain, hnodup, hfree⟩ := h.free
    refine ⟨free, hchain, hnodup, fun i hi => ?_⟩
    obtain ⟨hpos, hle', hnot⟩ := hfree i hi
    refine ⟨hpos, by simp only; omega, ?_⟩
    simp only [Set.mem_insert_iff, not_or]
    exact ⟨by omega, hnot⟩
  · rintro i (rfl | hi)
    · simp
    · have := h.live_le i hi
      simp only
      omega

theorem Inv.allocItem (h : fk.Inv live) {item : Nat} (halloc : fk.allocItem = some (item, fk')) :
    Allocated fk live item fk' := by
  unfold Fullkey.allocItem at halloc
  by_cases hfirst : fk.freeListId ≠ 0 ∧ fk.freeListId ≤ fk.count
  · obtain ⟨free, hchain, hnodup, hfree⟩ := h.free
    obtain ⟨rest, rfl, hrest⟩ := hchain.exists_cons hfirst.1
    obtain ⟨hpos, hle, hnot⟩ := hfree fk.freeListId (by simp)
    have hnotrest : fk.freeListId ∉ rest := (List.nodup_cons.mp hnodup).1
    -- The next link is a record of the list or the end marker, so it is never out of range.
    have hnext : ¬ (fk.data fk.freeListId).link > fk.count := by
      rcases hrest.head_mem with hend | hmem
      · simp [hend]
      · have := (hfree _ (List.mem_cons_of_mem _ hmem)).2.1
        omega
    simp only [if_pos hfirst, if_neg hnext, Option.some.injEq, Prod.mk.injEq] at halloc
    obtain ⟨rfl, rfl⟩ := halloc
    refine ⟨hnot, ⟨⟨rest, ?_, (List.nodup_cons.mp hnodup).2, fun i hi => ?_⟩, ?_, h.count_le,
      h.capacity_lt⟩, fun i hi => ?_, rfl⟩
    · refine hrest.congr fun j hj => ?_
      have hne : j ≠ fk.freeListId := fun heq => hnotrest (heq ▸ hj)
      simp only [setData_data_of_ne hne]
    · obtain ⟨hipos, hile, hinot⟩ := hfree i (List.mem_cons_of_mem _ hi)
      refine ⟨hipos, hile, ?_⟩
      rintro (rfl | hlive)
      · exact hnotrest hi
      · exact hinot hlive
    · rintro i (rfl | hi)
      · exact ⟨hpos, hle⟩
      · exact h.live_le i hi
    · have hne : i ≠ fk.freeListId := fun heq => hnot (heq ▸ hi)
      exact setData_data_of_ne hne _
  · rw [if_neg hfirst] at halloc
    exact h.appendItem halloc

theorem Inv.write (h : fk.Inv live) (innerKey : InnerKey) :
    ((fk.write innerKey).1 = none ∧ (fk.write innerKey).2 = fk) ∨
    ∃ item, (fk.write innerKey).1 = some ⟨fk.fileId, item⟩ ∧ Allocated fk live item (fk.write innerKey).2 ∧
      ((fk.write innerKey).2.data item).md5Suffix = md5Suffix innerKey := by
  unfold Fullkey.write
  cases halloc : fk.allocItem with
  | none => exact .inl ⟨rfl, rfl⟩
  | some result =>
    obtain ⟨item, fk'⟩ := result
    have hspec := h.allocItem halloc
    have hitem := hspec.inv.live_le item (Set.mem_insert _ _)
    have hcount := hspec.inv.count_le
    have hcap := hspec.inv.capacity_lt
    have hroom : ¬ (item * fullkeyDataBytes < fullkeyDataBytes ∨
        item * fullkeyDataBytes + fullkeyDataBytes > filekeyBytesPerFile) := by
      simp only [fullkeyItemMaxPerFile, fullkeyDataBytes, filekeyBytesPerFile] at *
      omega
    simp only [if_neg hroom]
    refine .inr ⟨item, ?_, ⟨hspec.fresh, ?_, fun i hi => ?_, hspec.fileId_eq⟩, by simp⟩
    · rw [Nat.mul_div_cancel _ (by decide), hspec.fileId_eq]
    · exact hspec.inv.setData (Set.mem_insert _ _) _
    · have hne : i ≠ item := fun heq => hspec.fresh (heq ▸ hi)
      rw [setData_data_of_ne hne, hspec.data_eq i hi]

theorem Inv.del (h : fk.Inv live) (hi : i ∈ live) :
    (fk.del ⟨fk.fileId, i⟩).1 = true ∧ (fk.del ⟨fk.fileId, i⟩).2.Inv (live \ {i}) ∧
    (∀ j, j ≠ i → (fk.del ⟨fk.fileId, i⟩).2.data j = fk.data j) ∧
    (fk.del ⟨fk.fileId, i⟩).2.fileId = fk.fileId := by
  simp only [Fullkey.del, h.parseBlockId hi]
  refine ⟨trivial, ⟨?_, fun j hj => h.live_le j hj.1, h.count_le, h.capacity_lt⟩,
    fun j hj => setData_data_of_ne hj _, rfl⟩
  obtain ⟨free, hchain, hnodup, hfree⟩ := h.free
  have hnot : i ∉ free := fun hmem => (hfree i hmem).2.2 hi
  refine ⟨i :: free, hchain.push (by simp [FullkeyData.link, FullkeyData.setLink]) fun j hj => ?_,
    List.nodup_cons.mpr ⟨hnot, hnodup⟩, ?_⟩
  · have hne : j ≠ i := fun heq => hnot (heq ▸ hj)
    simp only [setData_data_of_ne hne]
  · rintro j hj
    rcases List.mem_cons.mp hj with rfl | hj
    · exact ⟨(h.live_le j hi).1, (h.live_le j hi).2, by simp⟩
    · obtain ⟨hpos, hle, hjnot⟩ := hfree j hj
      exact ⟨hpos, hle, fun hmem => hjnot hmem.1⟩

theorem Inv.setContentId (h : fk.Inv live) (hi : i ∈ live) (contentId : ContentId)
    (hfile : contentId.fileId ≤ 0xFF) (hdata : contentId.dataId ≠ 0)
    (hlen : contentId.dataLen ≠ 0) :
    fk.setContentId ⟨fk.fileId, i⟩ contentId = (true, fk.setData i { fk.data i with contentId }) := by
  simp only [Fullkey.setContentId, h.parseBlockId hi]
  rw [if_neg]
  simp only [not_or]
  exact ⟨by omega, hdata, hlen⟩

end Fullkey

end HustStore.Md5db
