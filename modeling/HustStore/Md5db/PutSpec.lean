import HustStore.Md5db.IndexStep

/-!
# What a put does

A put that finds its key replaces the bytes of its record and the version of its item. A put of a new key gives
it a record and an item.
-/

namespace HustStore.Md5db

def Entry.repack (e : Entry) : Entry := { e with version := packVersion e.version }

namespace Db

variable {db db' db₁ : Db} {dir dir' : Directory} {k : InnerKey} {e : Entry} {id : Nat}
  {bytes : Bytes} {version : Nat}

structure Kept (db : Db) (dir : Directory) (db' : Db) : Prop where
  inv : db'.Inv dir
  same : SameRecords dir.live db db'

structure Inserted (db : Db) (dir : Directory) (k : InnerKey) (id : Nat) (bytes : Bytes)
    (version : Nat) (db' : Db) (dir' : Directory) : Prop where
  inv : db'.Inv dir'
  absent : dir k = none
  fresh : (k.bucket, id) ∉ dir.live
  entry : dir' k = some ⟨id, packVersion version⟩
  raw_eq : db'.raw (k.bucket, id) = some bytes
  others : ∀ k', k' ≠ k → dir' k' = dir k' ∨ dir' k' = (dir k').map Entry.repack
  same : SameRecords dir.live db db'

structure Updated (db : Db) (dir : Directory) (k : InnerKey) (e : Entry) (bytes : Bytes)
    (version : Nat) (db' : Db) : Prop where
  inv : db'.Inv (Function.update dir k (some ⟨e.dataId, version⟩))
  present : dir k = some e
  raw_eq : db'.raw (e.addr k) = some bytes
  same : SameRecords (dir.live \ {e.addr k}) db db'

theorem Kept.rfl (h : db.Inv dir) : Kept db dir db := ⟨h, .rfl⟩

theorem Inv.congr_records (h : db.Inv dir) (hrec : db'.RecordsInv dir.live ∅)
    (hsame : SameRecords dir.live db db') (hindex : SameIndex db db') : db'.Inv dir :=
  h.restrict (fun _ e' he' => ⟨e', he', rfl⟩) hrec hsame.suffix_eq (h.index.congr hindex)

/-! ### A new record -/

structure NewRecord (db : Db) (dir : Directory) (k : InnerKey) (id : Nat) (bytes : Bytes) (db₁ : Db) : Prop where
  fresh : (k.bucket, id) ∉ dir.live
  inv : db₁.Inv dir
  records : db₁.RecordsInv (insert (k.bucket, id) dir.live) ∅
  suffix_eq : (db₁.cell (k.bucket, id)).md5Suffix = md5Suffix k
  raw_eq : db₁.raw (k.bucket, id) = some bytes
  same : SameRecords dir.live db db₁
  index : SameIndex db db₁

theorem NewRecord.id_pos (h : NewRecord db dir k id bytes db₁) : id ≠ 0 :=
  ((h.records.fullkey k.bucket).live_le id (.inl (.inl rfl))).1.ne'

theorem NewRecord.undo (h : NewRecord db dir k id bytes db₁) :
    Kept db dir (db₁.withoutKey (k.bucket, id)) := by
  obtain ⟨-, hrec, hsame⟩ := h.records.delKey (a := (k.bucket, id)) (.inl (.inl rfl))
  rw [Set.insert_sdiff_self_of_notMem h.fresh] at hrec hsame
  exact ⟨h.inv.congr_records hrec hsame (sameIndex_setFullkey _ _), h.same.trans hsame⟩

theorem Inv.newRecord (h : db.Inv dir) (hroom : db.contents.Room) (q : Query) (k : InnerKey)
    {userKey val : Bytes} (hlen : userKey.length + val.length ≤ maxValLen) (ctxt : ItemCtxt) :
    (∃ fk, (db.fullkeys k.bucket).write k = (none, fk) ∧ db.setFullkey k.bucket fk = db) ∨
    ∃ id fk db₁, (db.fullkeys k.bucket).write k = (some ⟨k.bucket, id⟩, fk) ∧
      (db.setFullkey k.bucket fk).addDataToContentDb q k.bucket ⟨k.bucket, id⟩ userKey val ctxt =
        ((db.data.putFromMd5db ⟨k.bucket, id⟩ ctxt.innerFileId q.table q.wttl).1,
          { ctxt with kvData := kvDataOf q userKey }, db₁) ∧
      NewRecord db dir k id (recordBytes val userKey (kvDataOf q userKey)) db₁ ∧
      db₁.data = (db.data.putFromMd5db ⟨k.bucket, id⟩ ctxt.innerFileId q.table q.wttl).2 := by
  refine (h.records.writeKey k).imp (fun ⟨hwrite, hsame⟩ => ⟨_, Prod.ext hwrite rfl, hsame⟩) ?_
  rintro ⟨⟨c, id⟩, rfl, hfresh, hwrite, hrec, hsuffix, hsame⟩
  obtain ⟨db₁, hadd, hstored, hdata⟩ :=
    hrec.addDataToContentDb (a := (k.bucket, id)) rfl hfresh hroom q hlen ctxt
  have hlive : dir.live \ {(k.bucket, id)} = dir.live := Set.sdiff_singleton_eq_self hfresh
  have hsame₁ : SameRecords dir.live db db₁ := hsame.trans (hlive ▸ hstored.same)
  have hindex : SameIndex db db₁ := (sameIndex_setFullkey _ _).trans hstored.index
  have hrec₁ : db₁.RecordsInv dir.live ∅ :=
    hstored.records.mono (Set.subset_insert _ _) (by simp)
  exact ⟨id, _, db₁, Prod.ext hwrite rfl, hadd, ⟨hfresh, h.congr_records hrec₁ hsame₁ hindex, hstored.records,
    hstored.suffix_eq.trans hsuffix, hstored.raw_eq, hsame₁, hindex⟩, hdata⟩

theorem NewRecord.inserted (h : NewRecord db dir k id bytes db₁) (hnone : dir k = none)
    (hentry : dir' k = some ⟨id, packVersion version⟩)
    (hothers : ∀ k', k' ≠ k → dir' k' = dir k' ∨ dir' k' = (dir k').map Entry.repack)
    (hindex : db'.IndexInv dir') (hfk : db'.fullkeys = db₁.fullkeys)
    (hcontents : db'.contents = db₁.contents) : Inserted db dir k id bytes version db' dir' := by
  refine ⟨h.inv.insert h.records h.fresh h.suffix_eq (fun k' e' hne he' => ?_) hentry rfl hfk
    hcontents hindex, hnone, h.fresh, hentry, ?_, hothers,
    h.same.trans (sameRecords_of_eq hfk hcontents)⟩
  · rcases hothers k' hne with heq | heq
    · exact ⟨e', heq ▸ he', rfl⟩
    · rw [heq] at he'
      obtain ⟨e, he, rfl⟩ := Option.map_eq_some_iff.mp he'
      exact ⟨e, he, rfl⟩
  · rw [← h.raw_eq]
    simp only [raw, cell, hfk, hcontents]

/-! ### Insertion

An insertion fails before any item leads to the new record, or it gives the key its item. -/

abbrev listed (db : Db) (q : Query) (k : InnerKey) (id : Nat) (ctxt : ItemCtxt) : Rc × KvArray :=
  db.data.putFromMd5db ⟨k.bucket, id⟩ ctxt.innerFileId q.table q.wttl

def InsertSpec (db : Db) (dir : Directory) (q : Query) (k : InnerKey) (userKey val : Bytes)
    (version reported : Nat) (kind : KvType) (ctxt : ItemCtxt) (out : Rc × Nat × ItemCtxt × Db) : Prop :=
  (∃ e ctxt' db', out = (.err e, 0, ctxt', db') ∧ ctxt'.isVersionError = ctxt.isVersionError ∧
    Kept db dir db' ∧ db'.data = db.data) ∨
  ∃ id ctxt' db' dir', out = (.ok, reported, ctxt', db') ∧ ctxt'.isVersionError = ctxt.isVersionError ∧
    ctxt'.kvType = kind ∧ Inserted db dir k id (recordBytes val userKey (kvDataOf q userKey)) version db' dir' ∧
    (db.listed q k id ctxt).1 = .ok ∧ db'.data = (db.listed q k id ctxt).2

theorem putFromMd5db_of_ne_ok {kv : KvArray} {blockId : BlockId} {fileId ttl : Nat} {table : Bytes}
    (h : (kv.putFromMd5db blockId fileId table ttl).1 ≠ .ok) :
    (kv.putFromMd5db blockId fileId table ttl).2 = kv := by
  unfold KvArray.putFromMd5db at h ⊢
  simp only at h ⊢
  split_ifs at h ⊢ <;> simp_all

abbrev newVersion (userVersion : Nat) (fromBinlog : Bool) : Nat :=
  if fromBinlog then userVersion else 1

variable {q : Query} {userKey val : Bytes} {userVersion : Nat} {fromBinlog : Bool} {ctxt : ItemCtxt}

theorem newVersion_le (hver : userVersion ≤ bucketDataMaxVersion) (fromBinlog : Bool) :
    newVersion userVersion fromBinlog ≤ bucketDataMaxVersion := by
  unfold newVersion
  split_ifs
  · exact hver
  · decide

theorem Inv.newData (h : db.Inv dir) (hroom : db.contents.Room) (hlen : userKey.length + val.length ≤ maxValLen)
    (htype : (db.buckets (slotOf k)).type = .noData) :
    db.InsertSpec dir q k userKey val (newVersion userVersion fromBinlog)
      (packVersion (newVersion userVersion fromBinlog)) ctxt.kvType ctxt
      (db.newData q k userKey val userVersion fromBinlog ctxt) := by
  unfold Db.newData
  by_cases hrefuse : !fromBinlog ∧ userVersion ≠ 0
  · rw [if_pos hrefuse]
    exact .inl ⟨_, _, _, rfl, rfl, .rfl h, rfl⟩
  rw [if_neg hrefuse]
  rcases h.newRecord hroom q k hlen ctxt with ⟨fk, hwrite, hsame⟩ |
    ⟨id, fk, db₁, hwrite, hadd, hnew, hdata⟩
  · simp only [hwrite]
    exact .inl ⟨_, _, _, rfl, rfl, hsame.symm ▸ .rfl h, rfl⟩
  · simp only [hwrite, hadd]
    cases hlist : (db.listed q k id ctxt).1 with
    | err e =>
      refine .inl ⟨_, _, _, rfl, rfl, hnew.undo, ?_⟩
      exact hdata.trans (putFromMd5db_of_ne_ok (by simp [hlist]))
    | ok =>
      refine .inr ⟨id, _, _, Function.update dir k
        (some ⟨id, packVersion (newVersion userVersion fromBinlog)⟩), rfl, rfl, rfl, ?_, hlist, hdata⟩
      have hnone := fun k' (hk' : slotOf k' = slotOf k) => h.index.of_noData htype hk'
      have htype₁ : (db₁.buckets (slotOf k)).type = .noData := by rw [hnew.index.buckets, htype]
      refine hnew.inserted (hnone k rfl).1 (Function.update_self ..)
        (fun k' hne => .inl (Function.update_of_ne hne ..))
        (hnew.inv.index.setDirect rfl ⟨rfl, Function.update_self .., ?_⟩ (fun k' hk' => ?_)
          fun k' hk' _ => (hnone k' hk').1) rfl rfl
      · exact packVersion_le _
      · exact (hnew.inv.index.of_noData htype₁ hk').2

theorem Inv.undoKey (h : db.Inv dir) {fk : Fullkey}
    (hwrite : (db.fullkeys k.bucket).write k = (some ⟨k.bucket, id⟩, fk)) :
    Kept db dir ((db.setFullkey k.bucket fk).setFullkey k.bucket (fk.del ⟨k.bucket, id⟩).2) := by
  rcases h.records.writeKey k with ⟨hnone, -⟩ | ⟨⟨c, id'⟩, rfl, hfresh, hsome, hrec, -, hsame⟩
  · simp [hwrite] at hnone
  · obtain rfl : id = id' := by simpa [hwrite, Addr.blockId] using hsome
    obtain ⟨-, hrec', hsame'⟩ := hrec.delKey (a := (k.bucket, id)) (.inr rfl)
    rw [Set.sdiff_singleton_eq_self hfresh] at hrec' hsame'
    have hstate : (db.withKey k).withoutKey (k.bucket, id) =
        (db.setFullkey k.bucket fk).setFullkey k.bucket (fk.del ⟨k.bucket, id⟩).2 := by
      simp only [withKey, withoutKey, hwrite, setFullkey_fullkeys_self, Addr.blockId]
    rw [hstate] at hrec' hsame'
    have hsame'' := hsame.trans hsame'
    exact ⟨h.congr_records hrec' hsame'' ⟨rfl, rfl, rfl⟩, hsame''⟩

theorem SameIndex.setBucket (h : SameIndex db db') (s : Slot) (item : BucketDataItem) :
    SameIndex (db.setBucket s item) (db'.setBucket s item) :=
  ⟨by simp only [Db.setBucket, h.buckets], h.fastConflicts, h.conflicts⟩

/-- The item that `fast_conflict_array_t::write` makes. -/
abbrev rowItem (blockId : BlockId) (version : Nat) : BucketDataItem :=
  ((BucketDataItem.reset.setType .conflictData).setVersion version).setBlockId blockId

theorem validConflictCount_pair (b₁ b₂ : BlockId) (h₁ : b₁.dataId ≠ 0) (h₂ : b₂.dataId ≠ 0) (v₁ v₂ n : Nat) :
    FastConflict.validConflictCount (rowItem b₁ v₁ :: rowItem b₂ v₂ :: List.replicate n .reset) = 2 := by
  simp [FastConflict.validConflictCount, h₁, h₂, BucketDataItem.reset, List.countP_replicate]

theorem writeRow_cases {fc : FastConflict} (h : fc.Inv) (b₁ b₂ : BlockId) {v₁ v₂ : Nat}
    (hv₁ : v₁ ≤ bucketDataMaxVersion) (hv₂ : v₂ ≤ bucketDataMaxVersion) :
    fc.writeRow b₁ v₁ b₂ v₂ = (none, fc) ∨
    ∃ fc', fc.writeRow b₁ v₁ b₂ v₂ = (some ⟨fc.fileId, fc.count + 1⟩, fc') ∧
      fc.Grown (rowItem b₁ v₁ :: rowItem b₂ v₂ :: List.replicate (fc.conflictCount - 2) .reset)
        fc' := by
  unfold FastConflict.writeRow
  rw [if_neg (by omega)]
  rcases h.write (rowItem b₁ v₁) (rowItem b₂ v₂) with ⟨hnone, hsame⟩ |
    ⟨hsome, hinv, hrow, hrows, hcount, hid, -⟩
  · exact .inl (Prod.ext hnone hsame)
  · exact .inr ⟨_, Prod.ext hsome rfl, hinv, hid, hcount, hrow, fun i hi => hrows i (by omega)⟩

theorem Inv.addRow_index (h : db.Inv dir) {k₁ : InnerKey} {fc : FastConflict}
    (hk₁ : slotOf k₁ = slotOf k) (hne : k₁ ≠ k) (hleads : Leads dir k₁ (db.buckets (slotOf k)))
    (hlookup : ∀ k', slotOf k' = slotOf k → db.conflicts.lookup k' = none)
    (hothers : ∀ k', slotOf k' = slotOf k → k' ≠ k₁ → dir k' = none)
    (hgrown : (db.fastConflicts k.bucket).Grown
      (rowItem (db.buckets (slotOf k)).blockId (db.buckets (slotOf k)).version :: rowItem ⟨k.bucket, id⟩ version ::
        List.replicate ((db.fastConflicts k.bucket).conflictCount - 2) .reset) fc)
    (hpos : id ≠ 0) (hfresh : (k.bucket, id) ∉ dir.live) :
    ((db.setFastConflict k.bucket fc).setBucket (slotOf k) ((((db.buckets (slotOf k)).setConflictCount 2).setBlockId
        ⟨(db.fastConflicts k.bucket).fileId, (db.fastConflicts k.bucket).count + 1⟩).setType .conflictData)).IndexInv
      (Function.update (Function.update dir k₁ (some (Entry.repack
        ⟨(db.buckets (slotOf k)).blockId.dataId, (db.buckets (slotOf k)).version⟩))) k
        (some ⟨id, packVersion version⟩)) := by
  have hbucket : k₁.bucket = k.bucket := congrArg Slot.bucket hk₁
  have hid₁ : (db.buckets (slotOf k)).blockId.dataId ≠ 0 := h.dataId_ne hleads.entry
  have hcount := validConflictCount_pair (db.buckets (slotOf k)).blockId ⟨k.bucket, id⟩ hid₁ hpos
    (db.buckets (slotOf k)).version version ((db.fastConflicts k.bucket).conflictCount - 2)
  refine h.index.setRow hgrown (fun k' hk' => ?_) ?_ rfl ?_ hcount.symm Nat.two_pos (show 2 < 64 by decide)
  · rw [update_of_slotOf_ne _ hk', update_of_slotOf_ne _ (by rw [hk₁]; exact hk')]
  · refine RowInv.pair _ hk₁ rfl ⟨hleads.bucket, ?_, packVersion_le _⟩
      ⟨rfl, Function.update_self .., packVersion_le _⟩ (fun heq => hfresh ?_) hpos hlookup
      fun k' hk' hne₁ hne₂ => ?_
    · rw [Function.update_of_ne hne, Function.update_self]
      rfl
    · have hmem := mem_live hleads.entry
      have haddr : (Entry.addr ⟨(db.buckets (slotOf k)).blockId.dataId,
          (db.buckets (slotOf k)).version⟩ k₁) = (k.bucket, id) := Prod.ext hbucket heq
      rwa [haddr] at hmem
    · rw [Function.update_of_ne hne₂, Function.update_of_ne hne₁]
      exact hothers k' hk' hne₁
  · change (⟨(db.fastConflicts k.bucket).fileId, _⟩ : BlockId) = ⟨k.bucket, _⟩
    rw [(h.index.fast k.bucket).2]
    rfl

theorem Inv.addConflictData (h : db.Inv dir) (hroom : db.contents.Room)
    (hlen : userKey.length + val.length ≤ maxValLen) (hver : userVersion ≤ bucketDataMaxVersion)
    (htype : (db.buckets (slotOf k)).type = .directData) (hnone : dir k = none) :
    db.InsertSpec dir q k userKey val (newVersion userVersion fromBinlog) (newVersion userVersion fromBinlog)
      ctxt.kvType ctxt (db.addConflictData q k userKey val userVersion fromBinlog ctxt) := by
  have hversion := newVersion_le hver fromBinlog
  obtain ⟨hlookup, k₁, hk₁, hleads, hothers⟩ := h.index.of_directData htype
  have hne : k₁ ≠ k := by
    rintro rfl
    exact absurd hleads.entry (by simp [hnone])
  have hbucket : k₁.bucket = k.bucket := congrArg Slot.bucket hk₁
  have hfirst : (db.fullkeys k.bucket).get (db.buckets (slotOf k)).blockId =
      some (md5Suffix k₁) := by
    rw [hleads.blockId_eq, ← hbucket]
    exact h.fullkey_get hleads.entry
  unfold Db.addConflictData
  by_cases hrefuse : !fromBinlog ∧ userVersion ≠ 0
  · rw [if_pos hrefuse]
    exact .inl ⟨_, _, _, rfl, rfl, .rfl h, rfl⟩
  rw [if_neg hrefuse]
  simp only [hfirst]
  rcases h.newRecord hroom q k hlen ctxt with ⟨fk, hwrite, hsame⟩ |
    ⟨id, fk, -, hwrite, -, -, -⟩
  · simp only [hwrite]
    exact .inl ⟨_, _, _, rfl, rfl, hsame.symm ▸ .rfl h, rfl⟩
  simp only [hwrite]
  have hfast : (db.setFullkey k.bucket fk).fastConflicts = db.fastConflicts := rfl
  rw [← newVersion, hfast]
  rcases writeRow_cases (h.index.fast k.bucket).1 (db.buckets (slotOf k)).blockId
    ⟨k.bucket, id⟩ hleads.version_le hversion with hrow | ⟨fc, hrow, hgrown⟩
  · simp only [hrow]
    refine .inl ⟨_, _, _, rfl, rfl, ?_, rfl⟩
    have hstate : ((db.setFullkey k.bucket fk).setFastConflict k.bucket
        (db.fastConflicts k.bucket)) = db.setFullkey k.bucket fk := by
      simp [setFastConflict, setFullkey]
    rw [hstate]
    exact h.undoKey hwrite
  simp only [hrow]
  -- The record is made in a state that already has the row.
  have hgrow : (db.setFastConflict k.bucket fc).Inv dir :=
    ⟨h.records.congr rfl rfl, h.suffix, h.inj, h.index.grow hgrown⟩
  have hbase : SameRecords dir.live db (db.setFastConflict k.bucket fc) := sameRecords_of_eq rfl rfl
  rcases hgrow.newRecord hroom q k hlen ctxt with ⟨_, hwrite', -⟩ |
    ⟨id', fk', db₁, hwrite', hadd, hnew, hdata⟩
  · exact absurd (hwrite.symm.trans hwrite') (by simp)
  obtain ⟨hid, rfl⟩ : id = id' ∧ fk = fk' := by
    have := hwrite.symm.trans hwrite'
    simpa using this
  subst hid
  change (((db.setFullkey k.bucket fk).setFastConflict k.bucket fc).addDataToContentDb q k.bucket
    ⟨k.bucket, id⟩ userKey val ctxt) = ((db.listed q k id ctxt).1, _, db₁) at hadd
  simp only [hadd]
  cases hlist : (db.listed q k id ctxt).1 with
  | err e =>
    have hrefused : (db.listed q k id ctxt).1 ≠ .ok := by simp [hlist]
    exact .inl ⟨_, _, _, rfl, rfl, ⟨hnew.inv, hbase.trans hnew.same⟩, hdata.trans (putFromMd5db_of_ne_ok hrefused)⟩
  | ok =>
    have hindex := h.addRow_index hk₁ hne hleads hlookup hothers hgrown hnew.id_pos hnew.fresh
    have hins := hnew.inserted hnone (Function.update_self ..) (fun k' hk' => ?_)
      (hindex.congr (hnew.index.setBucket ..)) rfl rfl
    · exact .inr ⟨id, _, _, _, rfl, rfl, rfl, { hins with same := hbase.trans hins.same }, hlist, hdata⟩
    · rw [Function.update_of_ne hk']
      by_cases heq : k' = k₁
      · subst heq
        exact .inr (by rw [Function.update_self, hleads.entry]; rfl)
      · exact .inl (Function.update_of_ne heq ..)

theorem ConflictInv.congr {s : Slot} {index : Nat} {row : List BucketDataItem}
    {spill : List InnerKey} (h : db.ConflictInv dir s index row spill) (hindex : SameIndex db db') :
    db'.ConflictInv dir s index row spill := by
  refine ⟨?_, hindex.conflicts.symm ▸ h.rowInv, ?_, ?_, ?_⟩ <;> rw [hindex.buckets]
  · rw [hindex.fastConflicts]
    exact h.rowOf
  · exact h.count
  · exact h.count_pos
  · exact h.count_lt

section NewItem

variable {index : Nat} {row : List BucketDataItem} {spill : List InnerKey}

theorem Inv.fastConflict_add (h : db.Inv dir)
    (hslot : db.ConflictInv dir (slotOf k) index row spill) (hnone : dir k = none)
    (hver : version ≤ bucketDataMaxVersion) (blockId : BlockId) :
    (db.fastConflicts k.bucket).add (db.fullkeys k.bucket) (db.buckets (slotOf k)) k blockId version =
      if row.any fun item => item.blockId.dataId = 0 then
        (.found (), (db.fastConflicts k.bucket).setData index (modifyFirst (fun item => item.blockId.dataId = 0)
            (fun item => ((item.setType .conflictData).setVersion version).setBlockId blockId) row))
      else (.search .EPERM, db.fastConflicts k.bucket) := by
  have hrowOf : (db.fastConflicts k.bucket).rowOf (db.buckets (slotOf k)) = some (index, row) :=
    hslot.rowOf
  have hfind := h.find_row hslot.rowInv
  have hsearch : row.find? (FastConflict.isItemOf (db.fullkeys k.bucket) k) = none := by
    cases hitem : row.find? (FastConflict.isItemOf (db.fullkeys k.bucket) k) with
    | none => rfl
    | some item =>
      rw [hitem] at hfind
      exact absurd hfind.2.2.1.entry (by simp [hnone])
  have hcount := hslot.count
  have hget : (db.fastConflicts k.bucket).get (db.fullkeys k.bucket) (db.buckets (slotOf k)) k = .stop .ENOENT ∨
      (db.fastConflicts k.bucket).get (db.fullkeys k.bucket) (db.buckets (slotOf k)) k =
      .search .ENOENT := by
    simp only [FastConflict.get, hrowOf, hsearch]
    by_cases hover : spill.length = 0
    · exact .inl (FastConflict.notFound_of_eq (by omega))
    · exact .inr (FastConflict.notFound_of_lt (by omega))
  unfold FastConflict.add
  rw [if_neg (by omega)]
  rcases hget with hget | hget
  · simp only [hget, hrowOf, ne_eq, not_true_eq_false, if_false]
  · simp only [hget, hrowOf, ne_eq, not_true_eq_false, if_false]

theorem addConflictCount_eq {item : BucketDataItem} (h : item.version < 63) :
    item.addConflictCount = some (item.setVersion (item.version + 1)) ∧
      (item.setVersion (item.version + 1)).version = item.version + 1 := by
  constructor
  · unfold BucketDataItem.addConflictCount
    exact if_neg (show item.version ≠ bucketDataMaxVersion by simp only [bucketDataMaxVersion]; omega)
  · exact Representable.packVersion ⟨by omega, by omega⟩

section

variable (hnew : NewRecord db dir k id bytes db₁) (hnone : dir k = none)
  (hslot : db₁.ConflictInv dir (slotOf k) index row spill)
  (hcount : (db₁.buckets (slotOf k)).version < 63)
include hnew hnone hslot hcount

theorem NewRecord.insertRow_index (hfree : row.any fun item => item.blockId.dataId = 0) :
    (db₁.withConflict (slotOf k) index (modifyFirst (fun item => item.blockId.dataId = 0)
        (fun item => ((item.setType .conflictData).setVersion version).setBlockId ⟨k.bucket, id⟩) row)
      db₁.conflicts ((db₁.buckets (slotOf k)).setVersion ((db₁.buckets (slotOf k)).version + 1))).IndexInv
      (Function.update dir k (some ⟨id, packVersion version⟩)) := by
  have hexists : ∃ x ∈ row, (fun item : BucketDataItem => decide (item.blockId.dataId = 0)) x :=
    List.any_eq_true.mp hfree
  have hversion := (addConflictCount_eq hcount).2
  obtain ⟨hconflict, -⟩ := FastConflict.rowOf_eq_some hslot.rowOf
  refine hnew.inv.index.setConflict hslot (fun k' hk' => update_of_slotOf_ne _ hk') (fun _ _ => rfl) rfl
    spill ?_ hconflict ?_ (by omega) (by omega)
  · refine hslot.rowInv.insert rfl hnone (fun k' hk' => Function.update_of_ne hk' ..)
      (Function.update_self ..) (fun k' e' he' => hnew.inv.dataId_ne he') (fun item hitem heq => ?_)
      (fun x => by simp) hexists fun x => ⟨rfl, Function.update_self .., ?_⟩
    · -- The index of the new record is that of no other record of the file.
      obtain ⟨k', hk', -, hleads⟩ := hslot.rowInv.items item hitem (heq ▸ hnew.id_pos)
      have hbucket : k'.bucket = k.bucket := congrArg Slot.bucket hk'
      have haddr : Entry.addr ⟨item.blockId.dataId, item.version⟩ k' = (k.bucket, id) :=
        Prod.ext hbucket heq
      exact hnew.fresh (haddr ▸ mem_live hleads.entry)
    · exact packVersion_le _
  · obtain ⟨x, -, hx, hsum⟩ := FastConflict.validConflictCount_modifyFirst
      (fun item => ((item.setType .conflictData).setVersion version).setBlockId ⟨k.bucket, id⟩)
      hexists
    have hx : x.blockId.dataId = 0 := by simpa using hx
    rw [if_neg (not_not.mpr hx), if_pos (by exact hnew.id_pos)] at hsum
    rw [hversion, hslot.count]
    omega

theorem NewRecord.insertOver_index (version : Nat) : (db₁.withConflict (slotOf k) index row
      (db₁.conflicts.store k (some ((BucketDataItem.reset.setVersion version).setBlockId ⟨k.bucket, id⟩)))
      ((db₁.buckets (slotOf k)).setVersion ((db₁.buckets (slotOf k)).version + 1))).IndexInv
      (Function.update dir k (some ⟨id, packVersion version⟩)) := by
  have hversion := (addConflictCount_eq hcount).2
  obtain ⟨hconflict, -⟩ := FastConflict.rowOf_eq_some hslot.rowOf
  refine hnew.inv.index.setConflict hslot (fun k' hk' => update_of_slotOf_ne _ hk')
    (fun k' hk' => Conflicts.lookup_store_of_ne (fun heq => hk' (congrArg slotOf heq)) _) rfl
    (k :: spill) ?_ hconflict ?_ (by omega) (by omega)
  · exact hslot.rowInv.insertOver rfl hnone (fun k' hk' => Function.update_of_ne hk' ..)
      (fun k' hk' => Conflicts.lookup_store_of_ne hk' _) (Conflicts.lookup_store_self _)
      ⟨rfl, Function.update_self .., packVersion_le _⟩
  · rw [hversion, hslot.count, List.length_cons]
    omega

end

end NewItem

theorem Inv.newConflictData (h : db.Inv dir) (hroom : db.contents.Room)
    (hlen : userKey.length + val.length ≤ maxValLen) (hver : userVersion ≤ bucketDataMaxVersion)
    (htype : (db.buckets (slotOf k)).type = .conflictData) (hnone : dir k = none)
    (hcount : (db.buckets (slotOf k)).version < 63) :
    db.InsertSpec dir q k userKey val (newVersion userVersion fromBinlog) (newVersion userVersion fromBinlog)
      .newKv ctxt (db.newConflictData q k userKey val userVersion fromBinlog ctxt) := by
  have hversion := newVersion_le hver fromBinlog
  unfold Db.newConflictData
  by_cases hrefuse : !fromBinlog ∧ userVersion ≠ 0
  · rw [if_pos hrefuse]
    exact .inl ⟨_, _, _, rfl, rfl, .rfl h, rfl⟩
  rw [if_neg hrefuse]
  rcases h.newRecord hroom q k hlen ctxt with ⟨fk, hwrite, hsame⟩ |
    ⟨id, fk, db₁, hwrite, hadd, hnew, hdata⟩
  · simp only [hwrite]
    exact .inl ⟨_, _, _, rfl, rfl, hsame.symm ▸ .rfl h, rfl⟩
  simp only [hwrite, hadd]
  cases hlist : (db.listed q k id ctxt).1 with
  | err e =>
    refine .inl ⟨_, _, _, rfl, rfl, hnew.undo, ?_⟩
    exact hdata.trans (putFromMd5db_of_ne_ok (by simp [hlist]))
  | ok =>
    obtain ⟨index, row, spill, hslot⟩ := h.index.of_conflictData htype
    have hslot₁ := hslot.congr hnew.index
    have hbucket : db.buckets (slotOf k) = db₁.buckets (slotOf k) := by rw [hnew.index.buckets]
    rw [hbucket] at hcount
    have hadd' := hnew.inv.fastConflict_add hslot₁ hnone hversion ⟨k.bucket, id⟩
    simp only [hbucket, (addConflictCount_eq hcount).1]
    rw [← newVersion, hadd']
    have hothers (e : Entry) (k' : InnerKey) (hk' : k' ≠ k) : Function.update dir k (some e) k' = dir k' ∨
          Function.update dir k (some e) k' = (dir k').map Entry.repack :=
      .inl (Function.update_of_ne hk' ..)
    by_cases hfree : row.any fun item => item.blockId.dataId = 0
    · rw [if_pos hfree]
      exact .inr ⟨id, _, _, _, rfl, rfl, rfl, hnew.inserted hnone (Function.update_self ..) (hothers _)
        (hnew.insertRow_index hnone hslot₁ hcount hfree) rfl rfl, hlist, hdata⟩
    · rw [if_neg hfree]
      have hput : db₁.conflicts.put k ⟨k.bucket, id⟩ (newVersion userVersion fromBinlog) =
          (.ok, db₁.conflicts.store k (some ((BucketDataItem.reset.setVersion
            (newVersion userVersion fromBinlog)).setBlockId ⟨k.bucket, id⟩))) :=
        if_neg (by omega)
      obtain ⟨-, -, -, -, hrow⟩ := FastConflict.rowOf_eq_some hslot₁.rowOf
      have hindex := hnew.insertOver_index hnone hslot₁ hcount (newVersion userVersion fromBinlog)
      rw [hrow, withConflict, FastConflict.setData_eq_self] at hindex
      simp only [hput, if_true]
      exact .inr ⟨id, _, _, _, rfl, rfl, rfl, hnew.inserted hnone (Function.update_self ..) (hothers _)
        hindex rfl rfl, hlist, hdata⟩

/-! ### Update

An update replaces the bytes of a record first and the version of its item afterwards. -/

def Accepts (userVersion : Nat) (fromBinlog : Bool) (version : Nat) : Prop :=
  userVersion = 0 ∨
    if fromBinlog then binlogVersionValid userVersion version = true else userVersion = version

instance (userVersion : Nat) (fromBinlog : Bool) (version : Nat) :
    Decidable (Accepts userVersion fromBinlog version) :=
  inferInstanceAs (Decidable (userVersion = 0 ∨
    if fromBinlog then binlogVersionValid userVersion version = true else userVersion = version))

abbrev nextVersion (userVersion : Nat) (fromBinlog : Bool) (version : Nat) : Nat :=
  if fromBinlog then userVersion else addVersion version

/-- The outcomes of a function that updates a key: it is refused and nothing happens, or it is
accepted. A row item that already reads as the version is not written. -/
def UpdateSpec (db : Db) (dir : Directory) (q : Query) (k : InnerKey) (e : Entry)
    (userKey val : Bytes) (userVersion : Nat) (fromBinlog : Bool) (ctxt : ItemCtxt)
    (out : Rc × Nat × ItemCtxt × Db) : Prop :=
  let t := nextVersion userVersion fromBinlog e.version
  (¬ Accepts userVersion fromBinlog e.version ∧
    out = (if fromBinlog then .ok else .err .EINVAL, e.version, { ctxt with isVersionError := true }, db)) ∨
  (Accepts userVersion fromBinlog e.version ∧ ∃ stored db',
    out = (.ok, t, { ctxt with kvData := kvDataOf q userKey }, db') ∧
    Updated db dir k e (recordBytes val userKey (kvDataOf q userKey)) stored db' ∧
    (stored = packVersion t ∨ stored = t ∧ e.version = t) ∧ db'.data = db.data)

theorem live_update_subset (hk : dir k = some e) (version : Nat) :
    Directory.live (Function.update dir k (some ⟨e.dataId, version⟩)) ⊆ dir.live := by
  rintro a ⟨k', e', he', rfl⟩
  by_cases heq : k' = k
  · subst heq
    rw [Function.update_self] at he'
    obtain rfl := Option.some.inj he'
    exact ⟨k', e, hk, rfl⟩
  · rw [Function.update_of_ne heq] at he'
    exact mem_live he'

section

variable (h : Stored db dir.live (e.addr k) bytes db₁)
include h

theorem Stored.suffix (a : Addr) (ha : a ∈ dir.live) : (db₁.cell a).md5Suffix = (db.cell a).md5Suffix := by
  by_cases heq : a = e.addr k
  · rw [heq, h.suffix_eq]
  · exact h.same.suffix_eq a ⟨ha, heq⟩

theorem Stored.inv (hinv : db.Inv dir) (hk : dir k = some e) : db₁.Inv dir := by
  refine hinv.restrict (fun _ e' he' => ⟨e', he', rfl⟩) ?_ h.suffix (hinv.index.congr h.index)
  have := h.records
  rwa [Set.insert_eq_of_mem (mem_live hk)] at this

theorem Stored.updated (hinv : db.Inv dir) (hk : dir k = some e)
    (hindex : db'.IndexInv (Function.update dir k (some ⟨e.dataId, version⟩)))
    (hfk : db'.fullkeys = db₁.fullkeys) (hcontents : db'.contents = db₁.contents) :
    Updated db dir k e bytes version db' := by
  have hsub := live_update_subset hk version
  have hrec : db₁.RecordsInv dir.live ∅ := (h.inv hinv hk).records
  refine ⟨hinv.restrict (fun k' e' he' => ?_) ((hrec.mono hsub (by simpa using hsub)).congr hfk
    hcontents) (fun a ha => ?_) hindex, hk, ?_, h.same.trans (sameRecords_of_eq hfk hcontents)⟩
  · by_cases heq : k' = k
    · subst heq
      rw [Function.update_self] at he'
      exact ⟨e, hk, by rw [← Option.some.inj he']⟩
    · rw [Function.update_of_ne heq] at he'
      exact ⟨e', he', rfl⟩
  · rw [← h.suffix a (hsub ha)]
    simp only [cell, hfk]
  · rw [← h.raw_eq]
    simp only [raw, cell, hfk, hcontents]

end

theorem nextVersion_le (hver : userVersion ≤ bucketDataMaxVersion) (fromBinlog : Bool)
    (version : Nat) : nextVersion userVersion fromBinlog version ≤ bucketDataMaxVersion := by
  unfold nextVersion addVersion
  split_ifs
  · exact hver
  · omega
  · decide

theorem nextVersion_pos (hbinlog : fromBinlog → userVersion ≠ 0) (version : Nat) :
    nextVersion userVersion fromBinlog version ≠ 0 := by
  unfold nextVersion addVersion
  split_ifs with h
  · exact hbinlog h
  · omega
  · decide

theorem if_accepts {α : Type} (version : Nat) (client binlog accepted : α) :
    (if userVersion ≠ 0 ∧ (!fromBinlog) ∧ userVersion ≠ version then client
      else if userVersion ≠ 0 ∧ fromBinlog ∧ !binlogVersionValid userVersion version then binlog
      else accepted) =
    if Accepts userVersion fromBinlog version then accepted
    else if fromBinlog then binlog else client := by
  unfold Accepts
  cases fromBinlog
  · by_cases h : userVersion = 0 <;> simp [h]
  · by_cases h : userVersion = 0
    · simp [h]
    · by_cases hvalid : binlogVersionValid userVersion version = true <;> simp [h, hvalid]

theorem Inv.updateDirectData (h : db.Inv dir) (hroom : db.contents.Room)
    (hlen : userKey.length + val.length ≤ maxValLen)
    (hbinlog : fromBinlog → userVersion ≠ 0)
    (htype : (db.buckets (slotOf k)).type = .directData) (hk : dir k = some e) :
    db.UpdateSpec dir q k e userKey val userVersion fromBinlog ctxt
      (db.updateDirectData q k userKey val userVersion fromBinlog ctxt) := by
  obtain ⟨hlookup, k₁, hk₁, hleads, hothers⟩ := h.index.of_directData htype
  obtain rfl : k₁ = k := by
    by_contra hne
    rw [hothers k rfl (Ne.symm hne)] at hk
    cases hk
  obtain rfl : e = _ := Option.some.inj (hk.symm.trans hleads.entry)
  unfold Db.updateDirectData
  by_cases haccept : Accepts userVersion fromBinlog (db.buckets (slotOf k₁)).version
  · obtain ⟨db₁, hset, hstored, hdata⟩ :=
      h.records.setDataToContentDb (mem_live hk) hroom q hlen ctxt
    rw [← hleads.blockId_eq] at hset
    change db.setDataToContentDb q k₁.bucket _ userKey val ctxt = _ at hset
    simp only [if_accepts, if_pos haccept, hset]
    have hinv₁ := hstored.inv h hk
    have hpos := nextVersion_pos hbinlog (db.buckets (slotOf k₁)).version
    refine .inr ⟨haccept, _, _, if_neg hpos, hstored.updated h hk (hinv₁.index.setDirect htype
      ⟨hleads.bucket, Function.update_self .., ?_⟩ ?_ fun k' hk' hne => hothers k' hk' hne) rfl rfl,
      .inl rfl, hdata⟩
    · exact packVersion_le _
    · rw [hstored.index.conflicts]
      exact hlookup
  · refine .inl ⟨haccept, ?_⟩
    simp only [if_accepts, if_neg haccept]
    cases fromBinlog <;> rfl

section UpdateItem

variable {index : Nat} {row : List BucketDataItem} {spill : List InnerKey}

theorem Inv.leads_of_dataId (h : db.Inv dir) (hslot : db.ConflictInv dir (slotOf k) index row spill)
    (hk : dir k = some e) {item : BucketDataItem} (hitem : item ∈ row)
    (hid : item.blockId.dataId = e.dataId) : Leads dir k item ∧ k ∉ spill := by
  obtain ⟨k', hk', hnot, hleads⟩ := hslot.rowInv.items item hitem (hid ▸ h.dataId_ne hk)
  obtain rfl := h.eq_of_dataId hk' hleads.entry hk hid
  exact ⟨hleads, hnot⟩

theorem Inv.isItemOf_iff (h : db.Inv dir) (hslot : db.ConflictInv dir (slotOf k) index row spill)
    (hk : dir k = some e) {item : BucketDataItem} (hitem : item ∈ row) :
    FastConflict.isItemOf (db.fullkeys k.bucket) k item = true ↔ item.blockId.dataId = e.dataId := by
  rw [h.isItemOf hslot.rowInv hitem]
  constructor
  · rintro ⟨-, hleads, -⟩
    rw [Option.some.inj (hk.symm.trans hleads.entry)]
  · intro hid
    exact ⟨hid ▸ h.dataId_ne hk, h.leads_of_dataId hslot hk hitem hid⟩

theorem ConflictInv.exists_item (h : db.ConflictInv dir (slotOf k) index row spill)
    (hk : dir k = some e) (hnot : k ∉ spill) {p : BucketDataItem → Bool}
    (hp : ∀ x ∈ row, p x ↔ x.blockId.dataId = e.dataId) : ∃ x ∈ row, p x := by
  obtain ⟨x, hx, hxid⟩ := (h.rowInv.complete k e rfl hk).resolve_left hnot
  exact ⟨x, hx, (hp x hx).mpr hxid⟩

section

variable (h : db.Inv dir) (hslot : db.ConflictInv dir (slotOf k) index row spill)
include h hslot

theorem Inv.find_row_some (hk : dir k = some e) (hnot : k ∉ spill) :
    ∃ item ∈ row, row.find? (FastConflict.isItemOf (db.fullkeys k.bucket) k) = some item ∧
      item.blockId = (e.addr k).blockId ∧ item.version = e.version := by
  have hfind := h.find_row hslot.rowInv
  cases hsearch : row.find? (FastConflict.isItemOf (db.fullkeys k.bucket) k) with
  | none =>
    rw [hsearch] at hfind
    exact absurd (hfind (by simp [hk])) hnot
  | some item =>
    rw [hsearch] at hfind
    obtain ⟨hmem, -, hleads, -⟩ := hfind
    obtain rfl : e = _ := Option.some.inj (hk.symm.trans hleads.entry)
    exact ⟨item, hmem, rfl, hleads.blockId_eq, rfl⟩

theorem Inv.updateRow_index (hk : dir k = some e) (hnot : k ∉ spill)
    {p : BucketDataItem → Bool} (hp : ∀ x ∈ row, p x ↔ x.blockId.dataId = e.dataId) (t : Nat) :
    (db.withConflict (slotOf k) index
      (modifyFirst p (fun x => if x.version ≠ t then x.setVersion t else x) row) db.conflicts
      (db.buckets (slotOf k))).IndexInv
      (Function.update dir k (some ⟨e.dataId, if e.version ≠ t then packVersion t else e.version⟩)) := by
  have hpos := h.dataId_ne hk
  obtain ⟨hconflict, -⟩ := FastConflict.rowOf_eq_some hslot.rowOf
  have hid (x : BucketDataItem) :
      (if x.version ≠ t then x.setVersion t else x).blockId = x.blockId := by split_ifs <;> rfl
  have hexists := hslot.exists_item hk hnot hp
  refine h.index.setConflict hslot (fun k' hk' => update_of_slotOf_ne _ hk')
    (fun _ _ => rfl) rfl spill (hslot.rowInv.replace rfl hnot hk hpos
      (fun k' hk' => Function.update_of_ne hk' ..) hp (fun k' e' hk' he' hid' => ?_)
      (fun x hx hxid _ => ?_) fun e' he' => ?_) hconflict ?_ hslot.count_pos hslot.count_lt
  · exact h.eq_of_dataId hk' he' hk hid'
  · obtain ⟨hleads, -⟩ := h.leads_of_dataId hslot hk hx hxid
    obtain rfl : e = _ := Option.some.inj (hk.symm.trans hleads.entry)
    refine ⟨⟨?_, ?_, ?_⟩, congrArg BlockId.dataId (hid x)⟩
    · rw [hid]
      exact hleads.bucket
    · rw [Function.update_self, hid]
      split_ifs <;> rfl
    · split_ifs
      · exact packVersion_le _
      · exact hleads.version_le
  · rw [Function.update_self] at he'
    rw [← Option.some.inj he']
    exact ⟨rfl, fun x hxid => by rw [hid]; exact hxid⟩
  · obtain ⟨x, hx, hpx, hsum⟩ := FastConflict.validConflictCount_modifyFirst
      (fun x : BucketDataItem => if x.version ≠ t then x.setVersion t else x) hexists
    rw [hid] at hsum
    rw [hslot.count]
    omega

theorem Inv.updateOver_index (hmem : k ∈ spill) (t : Nat) : (db.withConflict (slotOf k) index row
      (db.conflicts.store k (some ((BucketDataItem.reset.setVersion t).setBlockId (e.addr k).blockId)))
      (db.buckets (slotOf k))).IndexInv
      (Function.update dir k (some ⟨e.dataId, packVersion t⟩)) := by
  obtain ⟨hconflict, -⟩ := FastConflict.rowOf_eq_some hslot.rowOf
  exact h.index.setConflict hslot (fun k' hk' => update_of_slotOf_ne _ hk')
    (fun k' hk' => Conflicts.lookup_store_of_ne (fun heq => hk' (congrArg slotOf heq)) _) rfl spill
    (hslot.rowInv.updateOver hmem (fun k' hk' => Function.update_of_ne hk' ..)
      (fun k' hk' => Conflicts.lookup_store_of_ne hk' _) (Conflicts.lookup_store_self _)
      ⟨rfl, Function.update_self .., packVersion_le _⟩)
    hconflict hslot.count hslot.count_pos hslot.count_lt

theorem Inv.fastConflict_update (hk : dir k = some e) (hnot : k ∉ spill) {t : Nat} (hver : t ≤ bucketDataMaxVersion) :
    (db.fastConflicts k.bucket).update (db.fullkeys k.bucket) (db.buckets (slotOf k)) k (e.addr k).blockId t =
      (.found (), (db.fastConflicts k.bucket).setData index
        (modifyFirst (FastConflict.isItemOf (db.fullkeys k.bucket) k)
          (fun x => if x.version ≠ t then x.setVersion t else x) row)) := by
  have hrowOf : (db.fastConflicts k.bucket).rowOf (db.buckets (slotOf k)) = some (index, row) :=
    hslot.rowOf
  obtain ⟨item, -, hfind, hblock, -⟩ := h.find_row_some hslot hk hnot
  unfold FastConflict.update
  rw [if_neg (by omega)]
  simp only [hrowOf, hfind, hblock, ne_eq, not_true_eq_false, if_false]

end

end UpdateItem

theorem Inv.updateConflictData (h : db.Inv dir) (hroom : db.contents.Room)
    (hlen : userKey.length + val.length ≤ maxValLen) (hver : userVersion ≤ bucketDataMaxVersion)
    {index : Nat} {row : List BucketDataItem} {spill : List InnerKey}
    (hslot : db.ConflictInv dir (slotOf k) index row spill) (hk : dir k = some e) :
    db.UpdateSpec dir q k e userKey val userVersion fromBinlog ctxt
      (db.updateConflictData q k userKey val userVersion fromBinlog (e.addr k).blockId e.version
        (decide (k ∉ spill)) ctxt) := by
  have ht := nextVersion_le hver fromBinlog e.version
  unfold Db.updateConflictData
  by_cases haccept : Accepts userVersion fromBinlog e.version
  · obtain ⟨db₁, hset, hstored, hdata⟩ :=
      h.records.setDataToContentDb (mem_live hk) hroom q hlen ctxt
    change db.setDataToContentDb q k.bucket _ userKey val ctxt = _ at hset
    simp only [if_accepts, if_pos haccept, hset]
    have hinv₁ := hstored.inv h hk
    have hslot₁ := hslot.congr hstored.index
    have hbucket : db.buckets (slotOf k) = db₁.buckets (slotOf k) := by rw [hstored.index.buckets]
    refine .inr ⟨haccept, ?_⟩
    by_cases hmem : k ∈ spill
    · have hput : db₁.conflicts.put k (e.addr k).blockId
          (nextVersion userVersion fromBinlog e.version) = (.ok, _) := if_neg (by omega)
      have hindex := hinv₁.updateOver_index (e := e) hslot₁ hmem (nextVersion userVersion fromBinlog e.version)
      obtain ⟨-, -, -, -, hrow⟩ := FastConflict.rowOf_eq_some hslot₁.rowOf
      rw [withConflict_buckets_self, hrow, FastConflict.setData_eq_self] at hindex
      simp only [hmem, not_true_eq_false, decide_false, Bool.false_eq_true, if_false, hput]
      refine ⟨_, _, rfl, hstored.updated h hk (hindex.congr ⟨rfl, ?_, rfl⟩) rfl rfl, .inl rfl, hdata⟩
      exact assign_eq_self.symm
    · have hupdate := hinv₁.fastConflict_update hslot₁ hk hmem ht
      have hindex := hinv₁.updateRow_index hslot₁ hk hmem
        (fun x hx => hinv₁.isItemOf_iff hslot₁ hk hx) (nextVersion userVersion fromBinlog e.version)
      rw [withConflict_buckets_self] at hindex
      simp only [hmem, not_false_eq_true, decide_true, if_true, hbucket, hupdate]
      refine ⟨_, _, rfl, hstored.updated h hk (hindex.congr ⟨rfl, rfl, rfl⟩) rfl rfl, ?_, hdata⟩
      by_cases hsame : e.version = nextVersion userVersion fromBinlog e.version
      · exact .inr ⟨by rw [if_neg (not_not.mpr hsame)]; exact hsame, hsame⟩
      · exact .inl (if_pos hsame)
  · refine .inl ⟨haccept, ?_⟩
    simp only [if_accepts, if_neg haccept]
    cases fromBinlog <;> rfl

/-! ### The whole put -/

structure HasPlace (db : Db) (k : InnerKey) : Prop where
  room : db.contents.Room
  count : (db.buckets (slotOf k)).type = .conflictData → db.locate k = .error .ENOENT →
    (db.buckets (slotOf k)).version < 63

inductive PutOutcome (db : Db) (dir : Directory) (q : Query) (k : InnerKey) (userKey val : Bytes)
    (userVersion : Nat) (fromBinlog : Bool) (ctxt : ItemCtxt) :
    Rc × Nat × ItemCtxt × Db → Directory → Prop
  /-- A new key found no room, or the listing refused it. -/
  | failed {e : Errno} {ctxt' : ItemCtxt} {db' : Db} (absent : dir k = none)
      (flag : ctxt'.isVersionError = ctxt.isVersionError) (kept : Kept db dir db')
      (data : db'.data = db.data) :
      PutOutcome db dir q k userKey val userVersion fromBinlog ctxt (.err e, 0, ctxt', db') dir
  /-- An existing key has another version. The result of a replicated put is set by the caller. -/
  | refused {e : Entry} {r : Rc} {ctxt' : ItemCtxt} (present : dir k = some e)
      (refuse : ¬ Accepts userVersion fromBinlog e.version)
      (result : fromBinlog = false → r = .err .EINVAL) (flag : ctxt'.isVersionError = true) :
      PutOutcome db dir q k userKey val userVersion fromBinlog ctxt (r, e.version, ctxt', db) dir
  /-- A new key was stored; only in an empty slot is its version read back. -/
  | inserted {id reported : Nat} {ctxt' : ItemCtxt} {db' : Db} {dir' : Directory}
      (inserted : Inserted db dir k id (recordBytes val userKey (kvDataOf q userKey))
        (newVersion userVersion fromBinlog) db' dir')
      (reported_eq : reported = newVersion userVersion fromBinlog ∨
        reported = packVersion (newVersion userVersion fromBinlog))
      (report : ctxt'.isVersionError = ctxt.isVersionError ∧ (reported ≠ 0 → ctxt'.kvType = .newKv))
      (listed : (db.listed q k id ctxt).1 = .ok) (data : db'.data = (db.listed q k id ctxt).2) :
      PutOutcome db dir q k userKey val userVersion fromBinlog ctxt
        (if reported = 0 then .err .EFAULT else .ok, reported, ctxt', db') dir'
  /-- An existing key has a new value. -/
  | updated {e : Entry} {stored : Nat} {ctxt' : ItemCtxt} {db' : Db}
      (accept : Accepts userVersion fromBinlog e.version)
      (updated : Updated db dir k e (recordBytes val userKey (kvDataOf q userKey)) stored db')
      (stored_eq : stored = packVersion (nextVersion userVersion fromBinlog e.version) ∨
        stored = nextVersion userVersion fromBinlog e.version ∧
          e.version = nextVersion userVersion fromBinlog e.version)
      (report : ctxt'.isVersionError = ctxt.isVersionError ∧ ctxt'.kvType = ctxt.kvType)
      (data : db'.data = db.data) :
      PutOutcome db dir q k userKey val userVersion fromBinlog ctxt
        (.ok, nextVersion userVersion fromBinlog e.version, ctxt', db')
        (Function.update dir k (some ⟨e.dataId, stored⟩))

theorem newVersion_pos (hbinlog : fromBinlog → userVersion ≠ 0) :
    newVersion userVersion fromBinlog ≠ 0 := by
  unfold newVersion
  split_ifs with h
  · exact hbinlog h
  · decide

theorem PutOutcome.inserted_ok {reported : Nat} {ctxt' : ItemCtxt}
    (inserted : Inserted db dir k id (recordBytes val userKey (kvDataOf q userKey))
      (newVersion userVersion fromBinlog) db' dir')
    (reported_eq : reported = newVersion userVersion fromBinlog ∨
      reported = packVersion (newVersion userVersion fromBinlog))
    (flag : ctxt'.isVersionError = ctxt.isVersionError) (kind : ctxt'.kvType = .newKv)
    (listed : (db.listed q k id ctxt).1 = .ok) (data : db'.data = (db.listed q k id ctxt).2)
    (hpos : reported ≠ 0) :
    db.PutOutcome dir q k userKey val userVersion fromBinlog ctxt (.ok, reported, ctxt', db') dir' := by
  have hout := PutOutcome.inserted inserted reported_eq ⟨flag, fun _ => kind⟩ listed data
  rwa [if_neg hpos] at hout

theorem UpdateSpec.outcome {out : Rc × Nat × ItemCtxt × Db} (hk : dir k = some e)
    (h : db.UpdateSpec dir q k e userKey val userVersion fromBinlog ctxt out) :
    ∃ dir', db.PutOutcome dir q k userKey val userVersion fromBinlog ctxt out dir' := by
  rcases h with ⟨hrefuse, rfl⟩ | ⟨haccept, stored, db', rfl, hupdated, hstored, hdata⟩
  · exact ⟨_, .refused hk hrefuse (fun hfalse => by simp [hfalse]) rfl⟩
  · exact ⟨_, .updated haccept hupdated hstored ⟨rfl, rfl⟩ hdata⟩

section PutSlot

variable (h : db.Inv dir) (hplace : db.HasPlace k)
  (hlen : userKey.length + val.length ≤ maxValLen) (hver : userVersion ≤ bucketDataMaxVersion)
  (hbinlog : fromBinlog → userVersion ≠ 0) (hflag : ctxt.isVersionError = false)

include h hplace hlen

include hflag in
theorem Inv.putSlot_noData (htype : (db.buckets (slotOf k)).type = .noData) :
    ∃ dir', db.PutOutcome dir q k userKey val userVersion fromBinlog ctxt
      (db.putSlot q k userKey val userVersion fromBinlog ctxt) dir' := by
  have hnone := (h.index.of_noData htype rfl).1
  have hspec : db.InsertSpec dir q k userKey val _ _ _ ctxt (db.newData q k userKey val userVersion fromBinlog ctxt) :=
    h.newData hplace.room hlen htype
  unfold Db.putSlot
  simp only [htype]
  rcases hspec with ⟨e, ctxt', db', hout, hflag', hkept, hdata⟩ |
    ⟨id, ctxt', db', dir', hout, hflag', -, hins, hlisted, hdata⟩
  · simp only [hout, hflag'.trans hflag, Bool.false_eq_true, false_and, if_false]
    exact ⟨_, .failed hnone hflag' hkept hdata⟩
  · simp only [hout]
    by_cases hzero : packVersion (newVersion userVersion fromBinlog) = 0
    · have houtcome := PutOutcome.inserted hins (.inr rfl) ⟨hflag', absurd hzero⟩ hlisted hdata
      rw [if_pos hzero] at houtcome ⊢
      exact ⟨_, houtcome⟩
    · rw [if_neg hzero]
      exact ⟨_, .inserted_ok hins (.inr rfl) hflag' rfl hlisted hdata hzero⟩

include hver hbinlog in
theorem Inv.putSlot_directData (htype : (db.buckets (slotOf k)).type = .directData) :
    ∃ dir', db.PutOutcome dir q k userKey val userVersion fromBinlog ctxt
      (db.putSlot q k userKey val userVersion fromBinlog ctxt) dir' := by
  obtain ⟨-, k₁, hk₁, hleads, hothers⟩ := h.index.of_directData htype
  have hcmp := h.compare hleads.entry hk₁.symm
  rw [← hleads.blockId_eq] at hcmp
  unfold Db.putSlot
  simp only [htype, hcmp, decide_eq_true_eq]
  by_cases heq : k₁ = k
  · subst heq
    rw [if_pos rfl]
    exact (h.updateDirectData hplace.room hlen hbinlog htype hleads.entry).outcome hleads.entry
  · have hnone := hothers k rfl (Ne.symm heq)
    have hspec : db.InsertSpec dir q k userKey val _ _ _ ctxt
        (db.addConflictData q k userKey val userVersion fromBinlog ctxt) :=
      h.addConflictData hplace.room hlen hver htype hnone
    rw [if_neg heq]
    rcases hspec with ⟨e, ctxt', db', hout, hflag', hkept, hdata⟩ |
      ⟨id, ctxt', db', dir', hout, hflag', -, hins, hlisted, hdata⟩
    · simp only [hout]
      exact ⟨_, .failed hnone hflag' hkept hdata⟩
    · have hpos := newVersion_pos hbinlog
      simp only [hout, if_neg hpos]
      exact ⟨_, .inserted_ok hins (.inl rfl) hflag' rfl hlisted hdata hpos⟩

include hver hbinlog hflag in
theorem Inv.putSlot_conflictData (htype : (db.buckets (slotOf k)).type = .conflictData) :
    ∃ dir', db.PutOutcome dir q k userKey val userVersion fromBinlog ctxt
      (db.putSlot q k userKey val userVersion fromBinlog ctxt) dir' := by
  obtain ⟨index, row, spill, hslot⟩ := h.index.of_conflictData htype
  have hlocate := h.locate k
  unfold Db.putSlot Db.setConflictData
  simp only [htype]
  cases hk : dir k with
  | none =>
    rw [hk] at hlocate
    have hspec : db.InsertSpec dir q k userKey val _ _ _ ctxt
        (db.newConflictData q k userKey val userVersion fromBinlog ctxt) :=
      h.newConflictData hplace.room hlen hver htype hk (hplace.count htype hlocate)
    simp only [h.findConflict_none hslot hk]
    rcases hspec with ⟨e, ctxt', db', hout, hflag', hkept, hdata⟩ |
      ⟨id, ctxt', db', dir', hout, hflag', hkind, hins, hlisted, hdata⟩
    · simp only [hout, hflag'.trans hflag, Bool.false_eq_true, false_and, if_false]
      exact ⟨_, .failed hk hflag' hkept hdata⟩
    · have hpos := newVersion_pos hbinlog
      simp only [hout, if_neg hpos]
      exact ⟨_, .inserted_ok hins (.inl rfl) hflag' hkind hlisted hdata hpos⟩
  | some e =>
    have hspec : db.UpdateSpec dir q k e userKey val userVersion fromBinlog ctxt _ :=
      h.updateConflictData hplace.room hlen hver hslot hk
    simp only [h.findConflict_some hslot hk]
    rcases hspec with ⟨hrefuse, hout⟩ | ⟨haccept, stored, db', hout, hupdated, hstored, hdata⟩
    · rw [hout]
      cases fromBinlog
      · exact ⟨_, .refused hk hrefuse (fun _ => rfl) rfl⟩
      · exact ⟨_, .refused hk hrefuse (fun hfalse => by cases hfalse) rfl⟩
    · have hpos := nextVersion_pos hbinlog e.version
      simp only [hout, if_neg hpos]
      exact ⟨_, .updated haccept hupdated hstored ⟨rfl, rfl⟩ hdata⟩

include hver hbinlog hflag in
theorem Inv.putSlot : ∃ dir', db.PutOutcome dir q k userKey val userVersion fromBinlog ctxt
      (db.putSlot q k userKey val userVersion fromBinlog ctxt) dir' := by
  cases htype : (db.buckets (slotOf k)).type with
  | noData => exact h.putSlot_noData hplace hlen hflag htype
  | directData => exact h.putSlot_directData hplace hlen hver hbinlog htype
  | conflictData => exact h.putSlot_conflictData hplace hlen hver hbinlog hflag htype

end PutSlot

end Db

end HustStore.Md5db
