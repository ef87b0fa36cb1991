import HustStore.Md5db.Fullkey

/-!
# Conflict records

When several keys share a slot, the slot points to a fast-conflict record: a short row of items, one for each
key. Keys that find no room in the row go to the conflict databases, which map whole digests to items.
-/

namespace HustStore.Md5db

def fastConflictBytesPerFile : Nat := 0xFFFFFFFF - 1

def fastConflictDefaultItemCount : Nat := 80000

def fastConflictExpandItemCount : Nat := 80000

def bucketDataItemBytes : Nat := 8

structure FastConflict where
  fileId : UInt8
  conflictCount : Nat
  count : Nat
  capacity : Nat
  freeList : List Nat
  data : Nat → List BucketDataItem

/-- What a search of a row says: the item was found, the key is certainly absent (or the call failed), or the
conflict database has to be asked. -/
inductive FastResult (α : Type)
  | found (a : α)
  | stop (e : Errno)
  | search (e : Errno)
  deriving DecidableEq, Repr

def modifyFirst {α : Type} (p : α → Bool) (f : α → α) : List α → List α
  | [] => []
  | x :: xs => if p x then f x :: xs else x :: modifyFirst p f xs

namespace FastConflict

def create (conflictCount : Nat) (fileId : UInt8) : FastConflict where
  fileId
  conflictCount
  count := 0
  capacity := fastConflictDefaultItemCount
  freeList := []
  data := fun _ => List.replicate conflictCount .reset

def itemMaxPerFile (fc : FastConflict) : Nat :=
  fastConflictBytesPerFile / (fc.conflictCount * bucketDataItemBytes)

def setData (fc : FastConflict) (index : Nat) (row : List BucketDataItem) : FastConflict :=
  { fc with data := assign fc.data index row }

def appendItem (fc : FastConflict) : Option (Nat × FastConflict) :=
  if fc.count > fc.capacity then none
  else if fc.count = fc.capacity then
    let expandCount :=
      if fc.count + 1 + fastConflictExpandItemCount > fc.itemMaxPerFile then
        fc.itemMaxPerFile - 1 - fc.count
      else fastConflictExpandItemCount
    if expandCount = 0 then none
    else some (fc.count + 1, { fc with count := fc.count + 1, capacity := fc.capacity + expandCount })
  else some (fc.count + 1, { fc with count := fc.count + 1 })

def allocItem (fc : FastConflict) : Option (Nat × FastConflict) :=
  match fc.freeList with
  | [] => fc.appendItem
  | index :: rest =>
    if index > fc.count then fc.appendItem
    else some (index, { fc with freeList := if rest.headD 0 > fc.count then [] else rest })

def write (fc : FastConflict) (item1 item2 : BucketDataItem) : Option BlockId × FastConflict :=
  match fc.allocItem with
  | none => (none, fc)
  | some (item, fc) =>
    let rowBytes := fc.conflictCount * bucketDataItemBytes
    let offset := item * rowBytes
    if offset < rowBytes ∨ offset + rowBytes > fastConflictBytesPerFile then (none, fc)
    else
      (some ⟨fc.fileId, offset / rowBytes⟩,
        fc.setData item (item1 :: item2 :: List.replicate (fc.conflictCount - 2) .reset))

def parseAddr (fc : FastConflict) (addr : BlockId) : Option Nat :=
  let index := addr.dataId
  if index = 0 then none
  else if addr.bucketId ≠ fc.fileId ∨ index ≥ fc.itemMaxPerFile then none
  else if fc.count = 0 ∨ index > fc.count then none
  else some index

def Released (fc : FastConflict) (addr : BlockId) : Prop := addr.dataId ∈ fc.freeList

instance (fc : FastConflict) (addr : BlockId) : Decidable (fc.Released addr) :=
  inferInstanceAs (Decidable (addr.dataId ∈ fc.freeList))

def isItemOf (fk : Fullkey) (innerKey : InnerKey) (item : BucketDataItem) : Bool :=
  item.blockId.dataId ≠ 0 && fk.compare item.blockId innerKey

def validConflictCount (row : List BucketDataItem) : Nat :=
  row.countP fun item => item.blockId.dataId ≠ 0

def notFound {α : Type} (bucketItem : BucketDataItem) (row : List BucketDataItem) : FastResult α :=
  if bucketItem.getConflictCount = validConflictCount row then .stop .ENOENT
  else if bucketItem.getConflictCount > validConflictCount row then .search .ENOENT
  else .search .EFAULT

def rowOf (fc : FastConflict) (bucketItem : BucketDataItem) :
    Option (Nat × List BucketDataItem) :=
  if bucketItem.type ≠ .conflictData then none
  else (fc.parseAddr bucketItem.blockId).map fun index => (index, fc.data index)

def get (fc : FastConflict) (fk : Fullkey) (bucketItem : BucketDataItem) (innerKey : InnerKey) :
    FastResult (BlockId × Nat) :=
  match fc.rowOf bucketItem with
  | none => .search .EFAULT
  | some (_, row) =>
    match row.find? (isItemOf fk innerKey) with
    | some item => .found (item.blockId, item.version)
    | none => notFound bucketItem row

def writeRow (fc : FastConflict) (firstBlockId : BlockId) (firstVersion : Nat)
    (secondBlockId : BlockId) (secondVersion : Nat) : Option BlockId × FastConflict :=
  if firstVersion > bucketDataMaxVersion ∨ secondVersion > bucketDataMaxVersion then (none, fc)
  else
    let item (blockId : BlockId) (version : Nat) : BucketDataItem :=
      ((BucketDataItem.reset.setType .conflictData).setVersion version).setBlockId blockId
    fc.write (item firstBlockId firstVersion) (item secondBlockId secondVersion)

def add (fc : FastConflict) (fk : Fullkey) (bucketItem : BucketDataItem) (innerKey : InnerKey)
    (blockId : BlockId) (version : Nat) : FastResult Unit × FastConflict :=
  if version > bucketDataMaxVersion then (.stop .EINVAL, fc)
  else
    match fc.get fk bucketItem innerKey with
    | .found _ => (.stop .EEXIST, fc)
    | .stop e | .search e =>
      if e ≠ .ENOENT then (.search .EFAULT, fc)
      else
        match fc.rowOf bucketItem with
        | none => (.search .EFAULT, fc)
        | some (index, row) =>
          if row.any fun item => item.blockId.dataId = 0 then
            (.found (), fc.setData index (modifyFirst (fun item => item.blockId.dataId = 0)
              (fun item => ((item.setType .conflictData).setVersion version).setBlockId blockId)
              row))
          else (.search .EPERM, fc)

def update (fc : FastConflict) (fk : Fullkey) (bucketItem : BucketDataItem) (innerKey : InnerKey)
    (blockId : BlockId) (version : Nat) : FastResult Unit × FastConflict :=
  if version > bucketDataMaxVersion then (.stop .EINVAL, fc)
  else
    match fc.rowOf bucketItem with
    | none => (.search .EFAULT, fc)
    | some (index, row) =>
      match row.find? (isItemOf fk innerKey) with
      | some item =>
        if item.blockId ≠ blockId then (.stop .EINVAL, fc)
        else (.found (), fc.setData index (modifyFirst (isItemOf fk innerKey)
          (fun item => if item.version ≠ version then item.setVersion version else item) row))
      | none => (notFound bucketItem row, fc)

def del (fc : FastConflict) (fk : Fullkey) (bucketItem : BucketDataItem) (innerKey : InnerKey) :
    FastResult Unit × FastConflict :=
  match fc.rowOf bucketItem with
  | none => (.search .EFAULT, fc)
  | some (index, row) =>
    match row.find? (isItemOf fk innerKey) with
    | some _ =>
      (.found (), fc.setData index (modifyFirst (isItemOf fk innerKey) (fun _ => .reset) row))
    | none => (notFound bucketItem row, fc)

end FastConflict

structure Conflicts where
  size : Nat
  files : Nat → InnerKey → Option BucketDataItem

namespace Conflicts

def create (size : Nat) : Conflicts := ⟨size, fun _ _ => none⟩

def fileOf (cs : Conflicts) (innerKey : InnerKey) : Nat :=
  innerKey.toNat % 2 ^ 32 % cs.size

def lookup (cs : Conflicts) (innerKey : InnerKey) : Option BucketDataItem :=
  cs.files (cs.fileOf innerKey) innerKey

def store (cs : Conflicts) (innerKey : InnerKey) (item : Option BucketDataItem) : Conflicts :=
  let file := cs.fileOf innerKey
  { cs with files := assign cs.files file (assign (cs.files file) innerKey item) }

def get (cs : Conflicts) (innerKey : InnerKey) : Except Errno (BlockId × Nat) :=
  match cs.lookup innerKey with
  | none => .error .ENOENT
  | some item =>
    if item.version > bucketDataMaxVersion then .error .EFAULT
    else .ok (item.blockId, item.version)

def put (cs : Conflicts) (innerKey : InnerKey) (blockId : BlockId) (version : Nat) :
    Rc × Conflicts :=
  if version > bucketDataMaxVersion then (.err .EINVAL, cs)
  else
    (.ok, cs.store innerKey (some ((BucketDataItem.reset.setVersion version).setBlockId blockId)))

def del (cs : Conflicts) (innerKey : InnerKey) : Rc × Conflicts := (.ok, cs.store innerKey none)

end Conflicts

/-! ### Rows -/

section ModifyFirst

variable {α : Type} {p : α → Bool} {f : α → α} {l : List α} {x y : α}

theorem mem_of_mem_modifyFirst (h : y ∈ modifyFirst p f l) : y ∈ l ∨ ∃ x ∈ l, p x ∧ y = f x := by
  induction l with
  | nil => cases h
  | cons z rest ih =>
    unfold modifyFirst at h
    split at h
    · rename_i hz
      rcases List.mem_cons.mp h with rfl | h
      · exact .inr ⟨z, by simp, hz, rfl⟩
      · exact .inl (List.mem_cons_of_mem _ h)
    · rcases List.mem_cons.mp h with rfl | h
      · exact .inl (by simp)
      · rcases ih h with h | ⟨x, hx, hpx, rfl⟩
        · exact .inl (List.mem_cons_of_mem _ h)
        · exact .inr ⟨x, List.mem_cons_of_mem _ hx, hpx, rfl⟩

theorem mem_modifyFirst_of_not (hx : x ∈ l) (hp : ¬ p x) : x ∈ modifyFirst p f l := by
  induction l with
  | nil => cases hx
  | cons z rest ih =>
    unfold modifyFirst
    rcases List.mem_cons.mp hx with rfl | hx
    · rw [if_neg hp]
      simp
    · split
      · exact List.mem_cons_of_mem _ hx
      · exact List.mem_cons_of_mem _ (ih hx)

theorem exists_mem_modifyFirst (h : ∃ x ∈ l, p x) : ∃ x ∈ l, p x ∧ f x ∈ modifyFirst p f l := by
  induction l with
  | nil => simp at h
  | cons z rest ih =>
    unfold modifyFirst
    by_cases hz : p z
    · exact ⟨z, by simp, hz, by simp [hz]⟩
    · have hrest : ∃ x ∈ rest, p x := by simpa [hz] using h
      obtain ⟨x, hx, hpx, hmem⟩ := ih hrest
      exact ⟨x, List.mem_cons_of_mem _ hx, hpx, by simp [hz, hmem]⟩

theorem pairwise_modifyFirst {r : α → α → Prop} (h : l.Pairwise r)
    (hnew : ∀ x ∈ l, p x → ∀ y ∈ l, (r x y → r (f x) y) ∧ (r y x → r y (f x))) :
    (modifyFirst p f l).Pairwise r := by
  induction l with
  | nil => exact .nil
  | cons z rest ih =>
    obtain ⟨hz, hrest⟩ := List.pairwise_cons.mp h
    unfold modifyFirst
    split
    · rename_i hpz
      refine List.pairwise_cons.mpr ⟨fun y hy => ?_, hrest⟩
      exact (hnew z (by simp) hpz y (List.mem_cons_of_mem _ hy)).1 (hz y hy)
    · refine List.pairwise_cons.mpr ⟨fun y hy => ?_, ih hrest fun x hx hpx y hy =>
        hnew x (List.mem_cons_of_mem _ hx) hpx y (List.mem_cons_of_mem _ hy)⟩
      rcases mem_of_mem_modifyFirst hy with hy | ⟨x, hx, hpx, rfl⟩
      · exact hz y hy
      · exact (hnew x (List.mem_cons_of_mem _ hx) hpx z (by simp)).2 (hz x hx)

theorem countP_modifyFirst (q : α → Bool) (h : ∃ x ∈ l, p x) :
    ∃ x ∈ l, p x ∧ (modifyFirst p f l).countP q + (if q x then 1 else 0) =
      l.countP q + (if q (f x) then 1 else 0) := by
  induction l with
  | nil => simp at h
  | cons z rest ih =>
    unfold modifyFirst
    by_cases hz : p z
    · refine ⟨z, by simp, hz, ?_⟩
      simp only [if_pos hz, List.countP_cons]
      omega
    · obtain ⟨x, hx, hpx, hcount⟩ := ih (by simpa [hz] using h)
      refine ⟨x, List.mem_cons_of_mem _ hx, hpx, ?_⟩
      simp only [if_neg hz, List.countP_cons]
      omega

theorem modifyFirst_eq_map (h : l.Pairwise fun a b => p a → ¬ p b) :
    modifyFirst p f l = l.map fun x => if p x then f x else x := by
  induction l with
  | nil => rfl
  | cons z rest ih =>
    obtain ⟨hz, hrest⟩ := List.pairwise_cons.mp h
    unfold modifyFirst
    split
    · rename_i hpz
      have hmap : rest.map (fun x => if p x then f x else x) = rest.map id :=
        List.map_congr_left fun y hy => if_neg (hz y hy hpz)
      rw [List.map_cons, if_pos hpz, hmap, List.map_id]
    · rename_i hpz
      rw [List.map_cons, if_neg hpz, ih hrest]

end ModifyFirst

namespace FastConflict

variable {fc fc' : FastConflict}

structure Inv (fc : FastConflict) : Prop where
  two_le : 2 ≤ fc.conflictCount
  count_le : fc.count ≤ fc.capacity
  capacity_lt : fc.capacity < fc.itemMaxPerFile
  free_nil : fc.freeList = []

theorem inv_create {conflictCount : Nat} (hge : 2 ≤ conflictCount) (hle : conflictCount ≤ 10)
    (fileId : UInt8) : (create conflictCount fileId).Inv := by
  refine ⟨hge, Nat.zero_le _, ?_, rfl⟩
  change fastConflictDefaultItemCount < fastConflictBytesPerFile / (conflictCount * bucketDataItemBytes)
  rw [Nat.lt_div_iff_mul_lt (by simp only [bucketDataItemBytes]; omega)]
  simp only [fastConflictDefaultItemCount, fastConflictBytesPerFile, bucketDataItemBytes]
  omega

@[simp] theorem setData_data_self (i : Nat) (row : List BucketDataItem) :
    (fc.setData i row).data i = row := assign_self ..

theorem setData_eq_self (i : Nat) : fc.setData i (fc.data i) = fc := by
  simp [setData]

theorem setData_data_of_ne {i j : Nat} (h : j ≠ i) (row : List BucketDataItem) :
    (fc.setData i row).data j = fc.data j := assign_of_ne h ..

variable {row : List BucketDataItem}

theorem validConflictCount_modifyFirst {p : BucketDataItem → Bool}
    (f : BucketDataItem → BucketDataItem) (h : ∃ x ∈ row, p x) :
    ∃ x ∈ row, p x ∧ validConflictCount (modifyFirst p f row) + (if x.blockId.dataId ≠ 0 then 1 else 0) =
        validConflictCount row + (if (f x).blockId.dataId ≠ 0 then 1 else 0) := by
  simpa only [decide_eq_true_eq, validConflictCount] using
    countP_modifyFirst (f := f) (fun item : BucketDataItem => item.blockId.dataId ≠ 0) h

variable {bucketItem : BucketDataItem}

theorem notFound_of_eq {α : Type} (h : bucketItem.version = validConflictCount row) :
    (notFound bucketItem row : FastResult α) = .stop .ENOENT := if_pos h

theorem notFound_of_lt {α : Type} (h : validConflictCount row < bucketItem.version) :
    (notFound bucketItem row : FastResult α) = .search .ENOENT :=
  (if_neg h.ne').trans (if_pos h)

theorem Inv.setData (h : fc.Inv) (index : Nat) (row : List BucketDataItem) : (fc.setData index row).Inv :=
  ⟨h.two_le, h.count_le, h.capacity_lt, h.free_nil⟩

theorem Inv.parseAddr (h : fc.Inv) {index : Nat} (hpos : 0 < index) (hle : index ≤ fc.count) :
    fc.parseAddr ⟨fc.fileId, index⟩ = some index := by
  have hcount := h.count_le
  have hcap := h.capacity_lt
  unfold FastConflict.parseAddr
  simp only
  rw [if_neg (by omega), if_neg (by simp; omega), if_neg (by omega)]

theorem parseAddr_eq_some {addr : BlockId} {index : Nat} (h : fc.parseAddr addr = some index) :
    addr = ⟨fc.fileId, index⟩ ∧ 0 < index ∧ index ≤ fc.count := by
  unfold FastConflict.parseAddr at h
  simp only at h
  split_ifs at h with h0 h1 h2
  cases h
  simp only [ne_eq, not_or, not_not] at h1
  obtain ⟨b, i⟩ := addr
  simp only at *
  exact ⟨by rw [h1.1], by omega, by omega⟩

theorem Inv.not_released (h : fc.Inv) (addr : BlockId) : ¬ fc.Released addr := by
  simp [Released, h.free_nil]

theorem Inv.allocItem (h : fc.Inv) {item : Nat} (halloc : fc.allocItem = some (item, fc')) :
    item = fc.count + 1 ∧ fc'.Inv ∧ fc'.data = fc.data ∧ fc'.count = fc.count + 1 ∧
      fc'.fileId = fc.fileId ∧ fc'.conflictCount = fc.conflictCount := by
  have hcount := h.count_le
  have hcap := h.capacity_lt
  have hexpand : fastConflictExpandItemCount = 80000 := rfl
  unfold FastConflict.allocItem at halloc
  rw [h.free_nil] at halloc
  simp only [appendItem] at halloc
  split_ifs at halloc with h1 h2 h3 h4
  all_goals
    simp only [Option.some.injEq, Prod.mk.injEq] at halloc
    obtain ⟨rfl, rfl⟩ := halloc
    refine ⟨rfl, ⟨h.two_le, ?_, ?_, h.free_nil⟩, rfl, rfl, rfl, rfl⟩
  all_goals
    simp only [itemMaxPerFile] at *
    omega

theorem Inv.write (h : fc.Inv) (item1 item2 : BucketDataItem) :
    ((fc.write item1 item2).1 = none ∧ (fc.write item1 item2).2 = fc) ∨
    ((fc.write item1 item2).1 = some ⟨fc.fileId, fc.count + 1⟩ ∧ (fc.write item1 item2).2.Inv ∧
      (fc.write item1 item2).2.data (fc.count + 1) = item1 :: item2 :: List.replicate (fc.conflictCount - 2) .reset ∧
      (∀ i, i ≠ fc.count + 1 → (fc.write item1 item2).2.data i = fc.data i) ∧
      (fc.write item1 item2).2.count = fc.count + 1 ∧
      (fc.write item1 item2).2.fileId = fc.fileId ∧
      (fc.write item1 item2).2.conflictCount = fc.conflictCount) := by
  unfold FastConflict.write
  cases halloc : fc.allocItem with
  | none => exact .inl ⟨rfl, rfl⟩
  | some result =>
    obtain ⟨item, fc'⟩ := result
    obtain ⟨rfl, hinv, hdata, hcount, hid, hcc⟩ := h.allocItem halloc
    have htwo := hinv.two_le
    have hpos : 0 < fc'.conflictCount * bucketDataItemBytes := by
      simp only [bucketDataItemBytes]
      omega
    have hlast : fc.count + 1 + 1 ≤ fastConflictBytesPerFile / (fc'.conflictCount * bucketDataItemBytes) := by
      have h1 := hinv.count_le
      have h2 := hinv.capacity_lt
      simp only [itemMaxPerFile] at h2
      omega
    have hroom : ¬ ((fc.count + 1) * (fc'.conflictCount * bucketDataItemBytes) <
          fc'.conflictCount * bucketDataItemBytes ∨
        (fc.count + 1) * (fc'.conflictCount * bucketDataItemBytes) +
          fc'.conflictCount * bucketDataItemBytes > fastConflictBytesPerFile) := by
      have hmul := (Nat.le_div_iff_mul_le hpos).mp hlast
      rw [Nat.add_mul (fc.count + 1) 1, Nat.one_mul] at hmul
      have hge := Nat.le_mul_of_pos_left (fc'.conflictCount * bucketDataItemBytes) (Nat.succ_pos fc.count)
      simp only [Nat.succ_eq_add_one] at hge
      omega
    simp only [if_neg hroom]
    refine .inr ⟨?_, ⟨hinv.two_le, hinv.count_le, hinv.capacity_lt, hinv.free_nil⟩, ?_,
      fun i hi => ?_, hcount, hid, hcc⟩
    · rw [Nat.mul_div_cancel _ hpos, hid]
    · rw [setData_data_self, hcc]
    · rw [setData_data_of_ne hi, hdata]

end FastConflict

namespace Conflicts

variable {cs : Conflicts} {k k' : InnerKey}

@[simp] theorem lookup_store_self (item : Option BucketDataItem) : (cs.store k item).lookup k = item := by
  simp [lookup, store, fileOf]

theorem lookup_store_of_ne (h : k' ≠ k) (item : Option BucketDataItem) :
    (cs.store k item).lookup k' = cs.lookup k' := by
  simp only [lookup, store, fileOf]
  by_cases hf : k'.toNat % 2 ^ 32 % cs.size = k.toNat % 2 ^ 32 % cs.size
  · rw [hf, assign_self, assign_of_ne h]
  · rw [assign_of_ne hf]

end Conflicts

end HustStore.Md5db
