import HustStore.Md5db.Records

/-!
# The directory of the store

The upper half of the store: slots, conflict rows and conflict databases together lead from a digest to the
record of its key. The directory is the function that they represent.
-/

namespace HustStore.Md5db

/-- What the store knows about a key: the index of its record in the fullkey file of its bucket, and
the version that reading its item yields. -/
structure Entry where
  dataId : Nat
  version : Nat
  deriving DecidableEq, Repr

abbrev Directory := InnerKey → Option Entry

def Entry.addr (e : Entry) (k : InnerKey) : Addr := (k.bucket, e.dataId)

def Directory.live (dir : Directory) : Set Addr := {a | ∃ k e, dir k = some e ∧ a = e.addr k}

structure Leads (dir : Directory) (k : InnerKey) (item : BucketDataItem) : Prop where
  bucket : item.blockId.bucketId = k.bucket
  entry : dir k = some ⟨item.blockId.dataId, item.version⟩
  version_le : item.version ≤ bucketDataMaxVersion

theorem Leads.blockId_eq {dir : Directory} {k : InnerKey} {item : BucketDataItem} (h : Leads dir k item) :
    item.blockId = (Entry.addr ⟨item.blockId.dataId, item.version⟩ k).blockId := by
  have hbucket := h.bucket
  obtain ⟨type, verH, verL, ⟨bucketId, dataId⟩⟩ := item
  simp only at hbucket
  subst hbucket
  rfl

/-- The items of a conflict row and the conflict database share the keys of a slot: `spill` lists the
keys that overflowed into the database. -/
structure RowInv (dir : Directory) (s : Slot) (row : List BucketDataItem) (spill : List InnerKey)
    (lookup : InnerKey → Option BucketDataItem) : Prop where
  items : ∀ item ∈ row, item.blockId.dataId ≠ 0 → ∃ k, slotOf k = s ∧ k ∉ spill ∧ Leads dir k item
  distinct : row.Pairwise fun a b => a.blockId.dataId ≠ 0 → a.blockId.dataId ≠ b.blockId.dataId
  over_nodup : spill.Nodup
  over_lookup : ∀ k ∈ spill, slotOf k = s ∧ ∃ item, lookup k = some item ∧ Leads dir k item
  lookup_none : ∀ k, slotOf k = s → k ∉ spill → lookup k = none
  complete : ∀ k e, slotOf k = s → dir k = some e → k ∈ spill ∨ ∃ item ∈ row, item.blockId.dataId = e.dataId

namespace Db

variable {db db' : Db} {dir dir' : Directory} {s : Slot} {k k' : InnerKey} {e e' : Entry}

structure ConflictInv (db : Db) (dir : Directory) (s : Slot) (index : Nat)
    (row : List BucketDataItem) (spill : List InnerKey) : Prop where
  rowOf : (db.fastConflicts s.bucket).rowOf (db.buckets s) = some (index, row)
  rowInv : RowInv dir s row spill db.conflicts.lookup
  count : (db.buckets s).version = FastConflict.validConflictCount row + spill.length
  count_pos : 0 < (db.buckets s).version
  count_lt : (db.buckets s).version < 64

def SlotInv (db : Db) (dir : Directory) (s : Slot) : Prop :=
  match (db.buckets s).type with
  | .noData => ∀ k, slotOf k = s → dir k = none ∧ db.conflicts.lookup k = none
  | .directData =>
    (∀ k, slotOf k = s → db.conflicts.lookup k = none) ∧
    ∃ k, slotOf k = s ∧ Leads dir k (db.buckets s) ∧ ∀ k', slotOf k' = s → k' ≠ k → dir k' = none
  | .conflictData => ∃ index row spill, db.ConflictInv dir s index row spill

structure IndexInv (db : Db) (dir : Directory) : Prop where
  fast : ∀ c, (db.fastConflicts c).Inv ∧ (db.fastConflicts c).fileId = c
  slots : ∀ s, db.SlotInv dir s
  rows : ∀ s s', (db.buckets s).type = .conflictData → (db.buckets s').type = .conflictData →
    s.bucket = s'.bucket → (db.buckets s).blockId.dataId = (db.buckets s').blockId.dataId → s = s'

structure Inv (db : Db) (dir : Directory) : Prop where
  records : db.RecordsInv dir.live ∅
  suffix : ∀ k e, dir k = some e → (db.cell (e.addr k)).md5Suffix = md5Suffix k
  inj : ∀ k k' e e', dir k = some e → dir k' = some e' → e.addr k = e'.addr k' → k = k'
  index : db.IndexInv dir

theorem mem_live (h : dir k = some e) : e.addr k ∈ dir.live := ⟨k, e, h, rfl⟩

theorem Inv.dataId_ne (h : db.Inv dir) (hk : dir k = some e) : e.dataId ≠ 0 :=
  ((h.records.fullkey k.bucket).live_le e.dataId (.inl (mem_live hk))).1.ne'

theorem Inv.eq_of_dataId {e' : Entry} (h : db.Inv dir) (hslot : slotOf k' = slotOf k)
    (hk' : dir k' = some e') (hk : dir k = some e) (hid : e'.dataId = e.dataId) : k' = k :=
  h.inj k' k e' e hk' hk (Prod.ext (congrArg Slot.bucket hslot) hid)

theorem Inv.compare (h : db.Inv dir) (hk : dir k = some e) (hslot : slotOf k' = slotOf k) :
    (db.fullkeys k'.bucket).compare (e.addr k).blockId k' = decide (k = k') := by
  have hbucket : k'.bucket = k.bucket := congrArg Slot.bucket hslot
  have hcmp := h.records.compare (mem_live hk) k'
  rw [h.suffix k e hk] at hcmp
  rw [hbucket]
  refine hcmp.trans ?_
  by_cases heq : k = k'
  · simp [heq]
  · have hne : md5Suffix k ≠ md5Suffix k' := fun hs => heq (innerKey_eq hslot.symm hs)
    simp [heq, hne]

theorem Inv.fullkey_get (h : db.Inv dir) (hk : dir k = some e) :
    (db.fullkeys k.bucket).get (e.addr k).blockId = some (md5Suffix k) := by
  have hparse := h.records.live_mem (.inl (mem_live hk))
  change (db.fullkeys k.bucket).parseBlockId (e.addr k).blockId = some e.dataId at hparse
  rw [Fullkey.get, hparse, Option.map_some]
  exact congrArg some (h.suffix k e hk)

variable {row : List BucketDataItem} {spill : List InnerKey}

variable {lookup : InnerKey → Option BucketDataItem}

theorem Inv.isItemOf (h : db.Inv dir) (hrow : RowInv dir (slotOf k) row spill lookup)
    {item : BucketDataItem} (hitem : item ∈ row) :
    FastConflict.isItemOf (db.fullkeys k.bucket) k item = true ↔
      item.blockId.dataId ≠ 0 ∧ Leads dir k item ∧ k ∉ spill := by
  unfold FastConflict.isItemOf
  by_cases hzero : item.blockId.dataId = 0
  · simp [hzero]
  · obtain ⟨k₁, hslot, hnot, hleads⟩ := hrow.items item hitem hzero
    have hcmp := h.compare hleads.entry hslot.symm
    rw [← hleads.blockId_eq] at hcmp
    simp only [ne_eq, hzero, not_false_eq_true, decide_true, Bool.true_and, hcmp, decide_eq_true_eq, true_and]
    constructor
    · rintro rfl
      exact ⟨hleads, hnot⟩
    · rintro ⟨hleads', -⟩
      refine h.inj k₁ k _ _ hleads.entry hleads'.entry ?_
      exact Prod.ext (hleads.bucket.symm.trans hleads'.bucket) rfl

theorem Inv.find_row (h : db.Inv dir) (hrow : RowInv dir (slotOf k) row spill lookup) :
    match row.find? (FastConflict.isItemOf (db.fullkeys k.bucket) k) with
    | some item => item ∈ row ∧ item.blockId.dataId ≠ 0 ∧ Leads dir k item ∧ k ∉ spill
    | none => dir k ≠ none → k ∈ spill := by
  split
  · rename_i item hfind
    have hmem := List.mem_of_find?_eq_some hfind
    exact ⟨hmem, (h.isItemOf hrow hmem).mp (List.find?_some hfind)⟩
  · rename_i hfind
    intro hne
    obtain ⟨e, he⟩ := Option.ne_none_iff_exists'.mp hne
    by_contra hnot
    obtain ⟨item, hitem, hid⟩ := (hrow.complete k e rfl he).resolve_left hnot
    have hzero : item.blockId.dataId ≠ 0 := hid ▸ h.dataId_ne he
    obtain ⟨k₁, hslot, -, hleads⟩ := hrow.items item hitem hzero
    obtain rfl := h.eq_of_dataId hslot hleads.entry he hid
    have := List.find?_eq_none.mp hfind item hitem
    exact this ((h.isItemOf hrow hitem).mpr ⟨hzero, hleads, hnot⟩)

/-! ### Searching

A search goes through the slot, the row and the conflict database, and ends with the entry of the
directory. -/

theorem Inv.findConflict_some (h : db.Inv dir) {index : Nat} (hslot : db.ConflictInv dir (slotOf k) index row spill)
    (hk : dir k = some e) :
    db.findConflict k (db.buckets (slotOf k)) = .ok ((e.addr k).blockId, e.version, decide (k ∉ spill)) := by
  have hrowOf : (db.fastConflicts k.bucket).rowOf (db.buckets (slotOf k)) = some (index, row) :=
    hslot.rowOf
  have hfind := h.find_row hslot.rowInv
  unfold findConflict FastConflict.get
  rw [hrowOf]
  simp only
  cases hsearch : row.find? (FastConflict.isItemOf (db.fullkeys k.bucket) k) with
  | some item =>
    rw [hsearch] at hfind
    obtain ⟨-, -, hleads, hnot⟩ := hfind
    obtain rfl : e = ⟨item.blockId.dataId, item.version⟩ :=
      Option.some.inj (hk.symm.trans hleads.entry)
    simp [← hleads.blockId_eq, hnot]
  | none =>
    rw [hsearch] at hfind
    have hmem : k ∈ spill := hfind (by simp [hk])
    obtain ⟨-, item, hlookup, hleads⟩ := hslot.rowInv.over_lookup k hmem
    obtain rfl : e = ⟨item.blockId.dataId, item.version⟩ :=
      Option.some.inj (hk.symm.trans hleads.entry)
    -- The count exceeds the row, so the conflict database is asked.
    have hpos : 0 < spill.length := List.length_pos_of_mem hmem
    have hcount := hslot.count
    have hversion := hleads.version_le
    rw [FastConflict.notFound_of_lt (by omega)]
    simp only [Conflicts.get, hlookup]
    rw [if_neg (by omega)]
    simp [← hleads.blockId_eq, hmem]

theorem Inv.findConflict_none (h : db.Inv dir) {index : Nat} (hslot : db.ConflictInv dir (slotOf k) index row spill)
    (hk : dir k = none) :
    db.findConflict k (db.buckets (slotOf k)) = .error .ENOENT := by
  have hrowOf : (db.fastConflicts k.bucket).rowOf (db.buckets (slotOf k)) = some (index, row) :=
    hslot.rowOf
  have hfind := h.find_row hslot.rowInv
  have hcount := hslot.count
  unfold findConflict FastConflict.get
  rw [hrowOf]
  simp only
  cases hsearch : row.find? (FastConflict.isItemOf (db.fullkeys k.bucket) k) with
  | some item =>
    rw [hsearch] at hfind
    exact absurd hfind.2.2.1.entry (by simp [hk])
  | none =>
    by_cases hover : spill.length = 0
    · rw [FastConflict.notFound_of_eq (by omega)]
    · have hnot : k ∉ spill := fun hmem => by
        obtain ⟨-, item, -, hleads⟩ := hslot.rowInv.over_lookup k hmem
        exact absurd hleads.entry (by simp [hk])
      rw [FastConflict.notFound_of_lt (by omega)]
      simp only [Conflicts.get, hslot.rowInv.lookup_none k rfl hnot]

theorem Inv.locate (h : db.Inv dir) (k : InnerKey) : db.locate k = match dir k with
      | none => .error .ENOENT
      | some e => .ok ((e.addr k).blockId, e.version) := by
  have hslot := h.index.slots (slotOf k)
  unfold SlotInv at hslot
  unfold Db.locate
  simp only
  split at hslot
  · rename_i htype
    rw [htype, (hslot k rfl).1]
  · rename_i htype
    obtain ⟨-, k₁, hk₁, hleads, hothers⟩ := hslot
    have hcmp := h.compare hleads.entry hk₁.symm
    rw [← hleads.blockId_eq] at hcmp
    simp only [htype, hcmp, decide_eq_true_eq]
    by_cases heq : k₁ = k
    · subst heq
      rw [if_pos rfl, hleads.entry]
      simp only
      rw [← hleads.blockId_eq]
    · rw [if_neg heq, hothers k rfl (Ne.symm heq)]
  · rename_i htype
    obtain ⟨index, row, spill, hslot⟩ := hslot
    rw [htype]
    cases hk : dir k with
    | none => rw [h.findConflict_none hslot hk]
    | some e => rw [h.findConflict_some hslot hk]

end Db

end HustStore.Md5db
