import HustStore.Md5db.PutSpec

/-!
# What a deletion does

A deletion frees the cells and the fullkey entry of a record and takes the item of its key away. A
slot whose count reaches zero is empty again; its row stays behind unused.
-/

namespace HustStore.Md5db

theorem RowInv.eq_none_of_count {dir : Directory} {s : Slot} {row : List BucketDataItem} {spill : List InnerKey}
    {lookup : InnerKey → Option BucketDataItem} {k : InnerKey} (h : RowInv dir s row spill lookup)
    (hpos : ∀ k e, dir k = some e → e.dataId ≠ 0)
    (hcount : FastConflict.validConflictCount row + spill.length = 0) (hk : slotOf k = s) :
    dir k = none ∧ lookup k = none := by
  obtain ⟨hrow, hspill⟩ := Nat.add_eq_zero_iff.mp hcount
  have hover : spill = [] := List.length_eq_zero_iff.mp hspill
  have hitems : ∀ item ∈ row, item.blockId.dataId = 0 := by
    simpa [FastConflict.validConflictCount, List.countP_eq_zero] using hrow
  refine ⟨?_, h.lookup_none k hk (by simp [hover])⟩
  by_contra hne
  obtain ⟨e, he⟩ := Option.ne_none_iff_exists'.mp hne
  rcases h.complete k e hk he with hmem | ⟨item, hitem, hid⟩
  · simp [hover] at hmem
  · exact hpos k e he (hid ▸ hitems item hitem)

namespace Db

variable {db db' db₁ : Db} {dir dir' : Directory} {s : Slot} {k : InnerKey} {e : Entry}
  {index : Nat} {row : List BucketDataItem} {spill : List InnerKey} {item : BucketDataItem}
  {conflicts : Conflicts}

structure Removed (db : Db) (dir : Directory) (k : InnerKey) (e : Entry) (db' : Db) : Prop where
  inv : db'.Inv (Function.update dir k none)
  present : dir k = some e
  same : SameRecords (dir.live \ {e.addr k}) db db'

theorem Inv.live_update_none (h : db.Inv dir) (hk : dir k = some e) :
    Directory.live (Function.update dir k none) ⊆ dir.live \ {e.addr k} := by
  rintro a ⟨k', e', he', rfl⟩
  have hne : k' ≠ k := by
    rintro rfl
    simp at he'
  rw [Function.update_of_ne hne] at he'
  exact ⟨mem_live he', fun haddr => hne (h.inj k' k e' e he' hk haddr)⟩

theorem Inv.removed (h : db.Inv dir) (hk : dir k = some e) (hrec : db'.RecordsInv (dir.live \ {e.addr k}) ∅)
    (hsame : SameRecords (dir.live \ {e.addr k}) db db')
    (hindex : db'.IndexInv (Function.update dir k none)) : Removed db dir k e db' := by
  have hsub := h.live_update_none hk
  refine ⟨h.restrict (fun k' e' he' => ?_) (hrec.mono hsub (by simpa using hsub))
    (fun a ha => hsame.suffix_eq a (hsub ha)) hindex, hk, hsame⟩
  by_cases hne : k' = k
  · rw [hne, Function.update_self] at he'
    cases he'
  · rw [Function.update_of_ne hne] at he'
    exact ⟨e', he', rfl⟩

/-! ### The item of the key -/

theorem decConflictCount_eq (hpos : 0 < item.version) (hlt : item.version < 64) :
    item.decConflictCount = (item.version - 1, item.setVersion (item.version - 1)) ∧
      (item.setVersion (item.version - 1)).version = item.version - 1 := by
  constructor
  · unfold BucketDataItem.decConflictCount
    have hpos' : item.verH * 16 + item.verL > 0 := hpos
    simp only [if_pos hpos']
    rfl
  · exact Representable.packVersion ⟨by omega, by omega⟩

/-- A slot that has lost its last key is empty; before that it keeps its row. -/
theorem IndexInv.lowerConflict (h : db.IndexInv dir) (hslot : db.ConflictInv dir s index row spill)
    (hdir : ∀ k, slotOf k ≠ s → dir' k = dir k)
    (hlookup : ∀ k, slotOf k ≠ s → conflicts.lookup k = db.conflicts.lookup k)
    {row' : List BucketDataItem} {over' : List InnerKey} (hrow : RowInv dir' s row' over' conflicts.lookup)
    (hcount : (db.buckets s).version - 1 = FastConflict.validConflictCount row' + over'.length)
    (hpos : ∀ k e, dir' k = some e → e.dataId ≠ 0) : (db.withConflict s index row' conflicts
      (if (db.buckets s).version - 1 = 0 then ((db.buckets s).setVersion ((db.buckets s).version - 1)).setType .noData
        else (db.buckets s).setVersion ((db.buckets s).version - 1))).IndexInv dir' := by
  have hlt := hslot.count_lt
  have hversion := (decConflictCount_eq hslot.count_pos hlt).2
  split_ifs with hzero
  · refine h.withConflict hslot hdir hlookup rfl ?_
    unfold SlotInv
    rw [setBucket_buckets_self]
    exact fun k hk => hrow.eq_none_of_count hpos (hcount.symm.trans hzero) hk
  · exact h.setConflict hslot hdir hlookup rfl over' hrow (FastConflict.rowOf_eq_some hslot.rowOf).1
      (hversion.trans hcount) (by omega) (by omega)

theorem Inv.eraseRow_count (h : db.Inv dir) (hslot : db.ConflictInv dir (slotOf k) index row spill)
    (hk : dir k = some e) (hnot : k ∉ spill) {p : BucketDataItem → Bool}
    (hp : ∀ x ∈ row, p x ↔ x.blockId.dataId = e.dataId) :
    (db.buckets (slotOf k)).version - 1 =
      FastConflict.validConflictCount (modifyFirst p (fun _ => .reset) row) + spill.length := by
  obtain ⟨x, hx, hpx, hsum⟩ := FastConflict.validConflictCount_modifyFirst
    (fun _ : BucketDataItem => BucketDataItem.reset) (hslot.exists_item hk hnot hp)
  have hxpos : x.blockId.dataId ≠ 0 := (hp x hx).mp hpx ▸ h.dataId_ne hk
  rw [if_pos hxpos, if_neg (by simp [BucketDataItem.reset])] at hsum
  have hsum' := hslot.count
  omega

theorem ConflictInv.eraseOver_count (h : db.ConflictInv dir s index row spill) (hmem : k ∈ spill) :
    (db.buckets s).version - 1 = FastConflict.validConflictCount row + (spill.erase k).length := by
  have hlen := List.length_erase_of_mem hmem
  have hlen' := List.length_pos_of_mem hmem
  have hsum := h.count
  omega

/-! ### The whole deletion -/

variable {q : Query} {userVersion : Nat} {fromBinlog : Bool} {ctxt : ItemCtxt}

abbrev unlisted (db : Db) (q : Query) (k : InnerKey) (e : Entry) (ctxt : ItemCtxt) : Rc × KvArray :=
  db.data.delFromMd5db (e.addr k).blockId ctxt.innerFileId q.table

structure Listable (db : Db) (q : Query) (ctxt : ItemCtxt) : Prop where
  file_lt : ctxt.innerFileId < db.data.fileCount
  table_le : q.table.length + 5 ≤ leveldbKeyMax

theorem Listable.delFromMd5db (h : db.Listable q ctxt) (blockId : BlockId) :
    (db.data.delFromMd5db blockId ctxt.innerFileId q.table).1 = .ok := by
  have hlt := h.file_lt
  have hle := h.table_le
  have hkey : leveldbCheckKey (KvArray.listingKey q.table blockId) = true := by
    simp only [leveldbCheckKey, KvArray.listingKey, List.length_append, BlockId.length_bytes,
      Bool.and_eq_true, decide_eq_true_eq]
    omega
  unfold KvArray.delFromMd5db
  simp only [hkey]
  rw [if_neg (by omega), if_neg (by simp)]

inductive DelOutcome (db : Db) (dir : Directory) (q : Query) (k : InnerKey) (userVersion : Nat)
    (fromBinlog : Bool) (ctxt : ItemCtxt) : Rc × Nat × ItemCtxt × Db → Directory → Prop
  /-- There is no such key. -/
  | absent (absent : dir k = none) : DelOutcome db dir q k userVersion fromBinlog ctxt (.err .ENOENT, 0, ctxt, db) dir
  /-- The key has another version. A replicated deletion may still touch the listing. -/
  | refused {e : Entry} {ctxt' : ItemCtxt} {db' : Db} (present : dir k = some e)
      (refuse : ¬ Accepts userVersion fromBinlog e.version) (flag : ctxt'.isVersionError = true)
      (kept : Kept db dir db') (unchanged : fromBinlog = false → db' = db)
      (data : db'.data = db.data ∨ db'.data = (db.unlisted q k e ctxt).2) :
      DelOutcome db dir q k userVersion fromBinlog ctxt
        (if fromBinlog then .ok else .err .EINVAL, e.version, ctxt', db') dir
  /-- The key was deleted. -/
  | removed {e : Entry} {ctxt' : ItemCtxt} {db' : Db}
      (accept : Accepts userVersion fromBinlog e.version) (removed : Removed db dir k e db')
      (report : ctxt'.isVersionError = ctxt.isVersionError ∧
        ctxt'.kvData.ttl = (db.cell (e.addr k)).contentId.dataLen)
      (data : db'.data = (db.unlisted q k e ctxt).2) :
      DelOutcome db dir q k userVersion fromBinlog ctxt (.ok, e.version, ctxt', db') (Function.update dir k none)

section

variable (h : db.Inv dir)
include h

theorem Inv.directData_compare (htype : (db.buckets (slotOf k)).type = .directData) :
    (db.fullkeys k.bucket).compare (db.buckets (slotOf k)).blockId k = (dir k).isSome := by
  obtain ⟨-, k₁, hk₁, hleads, hothers⟩ := h.index.of_directData htype
  rw [hleads.blockId_eq, h.compare hleads.entry hk₁.symm]
  by_cases heq : k₁ = k
  · subst heq
    simp [hleads.entry]
  · simp [heq, hothers k rfl (Ne.symm heq)]

theorem Inv.deleteDirectData (hlist : db.Listable q ctxt) (hk : dir k = some e) {contents : ContentArray}
    (hdel : db.contents.del (db.cell (e.addr k)).contentId.fileId
      (db.cell (e.addr k)).contentId.dataId (db.cell (e.addr k)).contentId.dataLen = some contents) :
    db.deleteDirectData q k.bucket (e.addr k).blockId ctxt = (.ok, { ctxt with kvData := { ctxt.kvData with
          ttl := (db.cell (e.addr k)).contentId.dataLen } },
        { db.withoutKey (e.addr k) with contents, data := (db.unlisted q k e ctxt).2 }) := by
  have hlive := mem_live hk
  have hcontent : (db.fullkeys k.bucket).getContentId (e.addr k).blockId = _ :=
    h.records.getContentId hlive
  have hdelKey : ((db.fullkeys k.bucket).del (e.addr k).blockId).1 = true :=
    (h.records.delKey (.inl hlive)).1
  have hunlist := hlist.delFromMd5db (e.addr k).blockId
  have hpos := h.records.dataLen_pos _ hlive
  simp only [Db.deleteDirectData, hcontent, if_neg hpos.ne', hdel, unlisted, withoutKey]
  have hbucket : (e.addr k).1 = k.bucket := rfl
  rw [hbucket]
  generalize (db.fullkeys k.bucket).del (e.addr k).blockId = deleted at hdelKey ⊢
  generalize db.data.delFromMd5db (e.addr k).blockId ctxt.innerFileId q.table = unlisted at hunlist ⊢
  obtain ⟨_, fk⟩ := deleted
  obtain ⟨_, data⟩ := unlisted
  subst hdelKey hunlist
  rfl

theorem Inv.delSlot_directData (hroom : db.contents.Room)
    (hlist : db.Listable q ctxt) (htype : (db.buckets (slotOf k)).type = .directData) :
    ∃ dir', db.DelOutcome dir q k userVersion fromBinlog ctxt (db.delSlot q k userVersion fromBinlog ctxt) dir' := by
  unfold Db.delSlot
  simp only [htype, h.directData_compare htype]
  cases hk : dir k with
  | none => exact ⟨_, .absent hk⟩
  | some e =>
    obtain ⟨hblock, hversion, hlookup, hothers⟩ := h.index.directData_some htype hk
    simp only [hblock, hversion, Option.isSome_some, Bool.not_true, Bool.false_eq_true, if_false]
    by_cases haccept : Accepts userVersion fromBinlog e.version
    · obtain ⟨contents, hdel, hrec, hsame⟩ := h.records.free hroom (mem_live hk)
      have hout := h.deleteDirectData hlist hk hdel
      simp only [if_accepts, if_pos haccept, hout]
      have hitem : (((db.buckets (slotOf k)).setBlockId ⟨0, 0⟩).setType .noData).version =
          e.version := hversion
      rw [hitem]
      refine ⟨_, .removed haccept ?_ ⟨rfl, rfl⟩ rfl⟩
      exact h.removed hk (hrec.congr rfl rfl) (hsame.trans (sameRecords_of_eq rfl rfl))
        ((h.index.setNoData rfl hlookup hothers).congr ⟨rfl, rfl, rfl⟩)
    · simp only [if_accepts, if_neg haccept]
      cases fromBinlog with
      | false => exact ⟨_, .refused hk haccept rfl (.rfl h) (fun _ => rfl) (.inl rfl)⟩
      | true => exact ⟨_, .refused hk haccept rfl (.rfl h) (fun _ => rfl) (.inl rfl)⟩

section

variable (hslot : db.ConflictInv dir (slotOf k) index row spill) (hk : dir k = some e)
include hslot hk

theorem Inv.fastConflict_del (hnot : k ∉ spill) :
    (db.fastConflicts k.bucket).del (db.fullkeys k.bucket) (db.buckets (slotOf k)) k =
      (.found (), (db.fastConflicts k.bucket).setData index
        (modifyFirst (FastConflict.isItemOf (db.fullkeys k.bucket) k) (fun _ => .reset) row)) := by
  have hrowOf : (db.fastConflicts k.bucket).rowOf (db.buckets (slotOf k)) = some (index, row) :=
    hslot.rowOf
  obtain ⟨item, -, hfind, -⟩ := h.find_row_some hslot hk hnot
  simp only [FastConflict.del, hrowOf, hfind]

theorem Inv.eraseItem_index : ((if decide (k ∉ spill) = true then
          db.setFastConflict k.bucket ((db.fastConflicts k.bucket).del (db.fullkeys k.bucket)
            (db.buckets (slotOf k)) k).2
        else { db with conflicts := (db.conflicts.del k).2 }).setBucket (slotOf k)
      (if (db.buckets (slotOf k)).version - 1 = 0 then
        ((db.buckets (slotOf k)).setVersion ((db.buckets (slotOf k)).version - 1)).setType .noData
      else (db.buckets (slotOf k)).setVersion ((db.buckets (slotOf k)).version - 1))).IndexInv
      (Function.update dir k none) := by
  obtain ⟨-, -, -, -, hrow⟩ := FastConflict.rowOf_eq_some hslot.rowOf
  have hdir (k' : InnerKey) (hk' : slotOf k' ≠ slotOf k) : Function.update dir k none k' = dir k' :=
    update_of_slotOf_ne _ hk'
  have hpos (k' : InnerKey) (e' : Entry) (he' : Function.update dir k none k' = some e') :
      e'.dataId ≠ 0 := by
    by_cases hne : k' = k
    · rw [hne, Function.update_self] at he'
      cases he'
    · rw [Function.update_of_ne hne] at he'
      exact h.dataId_ne he'
  by_cases hmem : k ∈ spill
  · have hover := hslot.rowInv.eraseOver hmem (fun k' hk' => Function.update_of_ne hk' ..)
      (Function.update_self k none dir) (fun k' hk' => Conflicts.lookup_store_of_ne hk' _)
      (Conflicts.lookup_store_self none)
    have hindex := h.index.lowerConflict hslot hdir
      (fun k' hk' => Conflicts.lookup_store_of_ne (fun heq => hk' (congrArg slotOf heq)) _) hover
      (hslot.eraseOver_count hmem) hpos
    rw [withConflict, hrow, FastConflict.setData_eq_self] at hindex
    rw [if_neg (by simp [hmem])]
    exact hindex.congr ⟨rfl, assign_eq_self.symm, rfl⟩
  · have hp (x : BucketDataItem) (hx : x ∈ row) := h.isItemOf_iff hslot hk hx
    have herased := hslot.rowInv.replace (f := fun _ => .reset) rfl hmem hk (h.dataId_ne hk)
      (fun k' hk' => Function.update_of_ne hk' none dir) hp (fun k' e' hk' he' hid => h.eq_of_dataId hk' he' hk hid)
      (fun _ _ _ hne => absurd rfl hne) fun e' he' => by simp at he'
    rw [if_pos (by simp [hmem]), h.fastConflict_del hslot hk hmem]
    exact h.index.lowerConflict hslot hdir (fun _ _ => rfl) herased (h.eraseRow_count hslot hk hmem hp) hpos

theorem Inv.delConflictBlockId (haccept : Accepts userVersion fromBinlog e.version) (ctxt : ItemCtxt) :
    ∃ db₁, db.delConflictBlockId k userVersion fromBinlog ctxt =
        (.ok, (e.addr k).blockId, (db.cell (e.addr k)).contentId, e.version, ctxt, db₁) ∧
      db₁.fullkeys = (db.withoutKey (e.addr k)).fullkeys ∧ db₁.contents = db.contents ∧
      db₁.data = db.data ∧ db₁.IndexInv (Function.update dir k none) := by
  have hcount := (decConflictCount_eq hslot.count_pos hslot.count_lt).1
  have hcontent : (db.fullkeys k.bucket).getContentId (e.addr k).blockId = _ :=
    h.records.getContentId (mem_live hk)
  have hindex := h.eraseItem_index hslot hk
  unfold Db.delConflictBlockId
  simp only [h.findConflict_some hslot hk, if_accepts, if_pos haccept, hcount]
  generalize hstate : (if decide (k ∉ spill) = true then
      db.setFastConflict k.bucket ((db.fastConflicts k.bucket).del (db.fullkeys k.bucket) (db.buckets (slotOf k)) k).2
    else { db with conflicts := (db.conflicts.del k).2 }) = db₂ at hindex ⊢
  have hfk : db₂.fullkeys = db.fullkeys := by
    rw [← hstate]
    split_ifs <;> rfl
  have hcontents : db₂.contents = db.contents := by
    rw [← hstate]
    split_ifs <;> rfl
  have hdata : db₂.data = db.data := by
    rw [← hstate]
    split_ifs <;> rfl
  simp only [hfk, hcontent, Option.getD_some]
  exact ⟨_, rfl, by simp only [withoutKey, setBucket, setFullkey, hfk]; rfl, hcontents, hdata,
    hindex.congr ⟨rfl, rfl, rfl⟩⟩

theorem Inv.delConflictBlockId_refused (hrefuse : ¬ Accepts userVersion fromBinlog e.version) :
    db.delConflictBlockId k userVersion fromBinlog ctxt =
      (if fromBinlog then .ok else .err .EINVAL, (e.addr k).blockId, .reset, e.version,
        { ctxt with isVersionError := true }, db) := by
  simp only [Db.delConflictBlockId, h.findConflict_some hslot hk, if_accepts, if_neg hrefuse]
  cases fromBinlog <;> rfl

end

theorem Inv.delSlot_conflictData (hroom : db.contents.Room)
    (hlist : db.Listable q ctxt) (htype : (db.buckets (slotOf k)).type = .conflictData) :
    ∃ dir', db.DelOutcome dir q k userVersion fromBinlog ctxt (db.delSlot q k userVersion fromBinlog ctxt) dir' := by
  obtain ⟨index, row, spill, hslot⟩ := h.index.of_conflictData htype
  unfold Db.delSlot Db.deleteConflictData
  simp only [htype]
  cases hk : dir k with
  | none =>
    simp only [Db.delConflictBlockId, h.findConflict_none hslot hk]
    exact ⟨_, .absent hk⟩
  | some e =>
    have hunlist := hlist.delFromMd5db (e.addr k).blockId
    by_cases haccept : Accepts userVersion fromBinlog e.version
    · obtain ⟨db₁, hout, hfk, hcontents, hdata, hindex⟩ :=
        h.delConflictBlockId hslot hk haccept ctxt
      obtain ⟨contents, hdel, hrec, hsame⟩ := h.records.free hroom (mem_live hk)
      simp only [hout, hcontents, hdel, hdata, hunlist]
      refine ⟨_, .removed haccept ?_ ⟨rfl, rfl⟩ rfl⟩
      refine h.removed hk (hrec.congr hfk rfl) (hsame.trans (sameRecords_of_eq hfk rfl)) ?_
      exact hindex.congr ⟨rfl, rfl, rfl⟩
    · simp only [h.delConflictBlockId_refused hslot hk haccept]
      cases fromBinlog with
      | false => exact ⟨_, .refused hk haccept rfl (.rfl h) (fun _ => rfl) (.inl rfl)⟩
      | true =>
        -- The refused deletion goes on with an empty content id, and frees nothing.
        obtain ⟨contents, hdel, hinv, hcells⟩ := h.records.contents.del_empty hroom
        obtain ⟨hrec, hsame⟩ := h.records.setContents hinv hcells
        have hempty : db.contents.del ContentId.reset.fileId ContentId.reset.dataId
            ContentId.reset.dataLen = some contents := hdel
        simp only [if_true, hempty, hunlist]
        refine ⟨_, .refused hk haccept rfl ⟨?_, ?_⟩ (fun hfalse => by cases hfalse) (.inr rfl)⟩
        · exact h.congr_records (hrec.congr rfl rfl) (hsame.trans (sameRecords_of_eq rfl rfl)) ⟨rfl, rfl, rfl⟩
        · exact hsame.trans (sameRecords_of_eq rfl rfl)

theorem Inv.delSlot (hroom : db.contents.Room) (hlist : db.Listable q ctxt) :
    ∃ dir', db.DelOutcome dir q k userVersion fromBinlog ctxt (db.delSlot q k userVersion fromBinlog ctxt) dir' := by
  cases htype : (db.buckets (slotOf k)).type with
  | noData =>
    simp only [Db.delSlot, htype]
    exact ⟨_, .absent (h.index.of_noData htype rfl).1⟩
  | directData => exact h.delSlot_directData hroom hlist htype
  | conflictData => exact h.delSlot_conflictData hroom hlist htype

end

end Db

end HustStore.Md5db
