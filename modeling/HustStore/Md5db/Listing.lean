import HustStore.Lib.Walk
import HustStore.Md5db.Contents
import HustStore.Md5db.Export

/-!
# What a listing shows

The walk over a listing file as a function of its keys, and the records that the keys lead to. A page of a table
is a page of the keys that begin with the table's name, so pages add up to the whole.
-/

namespace HustStore.Md5db

def InRange (start stop : Nat) (key : Bytes) : Prop := start ≤ bucketHash key ∧ bucketHash key < stop

instance (start stop : Nat) (key : Bytes) : Decidable (InRange start stop key) :=
  inferInstanceAs (Decidable (_ ∧ _))

def Rec.exported (r : Rec) (key : Bytes) (noval : Bool) : Exported :=
  ⟨key, if noval then [] else r.val, r.version, r.kv.compressType⟩

structure ListsExactly (keys : List Bytes) (members : Set Bytes) : Prop where
  nodup : keys.Nodup
  mem_iff : ∀ key, key ∈ keys ↔ key ∈ members

namespace Db

variable {md5 : Bytes → InnerKey} {db : Db} {p : ExportParam} {table : Bytes} {f : Nat}

/-! ### The walk -/

def exported (md5 : Bytes → InnerKey) (db : Db) (p : ExportParam) (key : Bytes) : Option Exported :=
  (db.exportRecord md5 key p.start p.stop p.noval).filter fun x => x.version ≠ 0

def fileKeys (db : Db) (f : Nat) : List Bytes := (db.data.files f).entries.map Prod.fst

def tableKeys (db : Db) (f : Nat) (table : Bytes) : List Bytes :=
  (db.fileKeys f).filter fun key => table.isPrefixOf key

theorem pairwise_fileKeys (db : Db) (f : Nat) : (db.fileKeys f).Pairwise (· < ·) :=
  List.pairwise_map.mpr (db.data.files f).sorted

variable {key : Bytes}

theorem exported_of_none (h : db.exportRecord md5 key p.start p.stop p.noval = none) :
    db.exported md5 p key = none := by
  rw [exported, h]
  rfl

theorem exported_of_some {x : Exported} (h : db.exportRecord md5 key p.start p.stop p.noval = some x) :
    db.exported md5 p key = if x.version = 0 then none else some x := by
  rw [exported, h, Option.filter_some]
  by_cases hx : x.version = 0
  · rw [if_pos hx, if_neg (by simp [hx])]
  · rw [if_neg hx, if_pos (by simp [hx])]

theorem filterMap_exported_cons (key : Bytes) (keys : List Bytes) : (key :: keys).filterMap (db.exported md5 p) =
      match db.exportRecord md5 key p.start p.stop p.noval with
      | none => keys.filterMap (db.exported md5 p)
      | some x =>
        if x.version = 0 then keys.filterMap (db.exported md5 p)
        else x :: keys.filterMap (db.exported md5 p) := by
  rw [List.filterMap_cons]
  cases hrecord : db.exportRecord md5 key p.start p.stop p.noval with
  | none => rw [exported_of_none hrecord]
  | some x =>
    rw [exported_of_some hrecord]
    dsimp only
    split_ifs <;> rfl

theorem exportLoop_table (htable : p.table = some table) (hscore : p.byscore = false) (keys : List Bytes) :
    db.exportLoop md5 p keys = (keys.takeWhile fun key => table.isPrefixOf key).filterMap (db.exported md5 p) := by
  induction keys with
  | nil => rfl
  | cons key rest ih =>
    rw [exportLoop, htable]
    dsimp only
    by_cases hkey : table.isPrefixOf key
    · have hleaves : leaves p table key = false := by simp [leaves, hkey, hscore]
      rw [if_neg (by simp [hleaves]), List.takeWhile_cons_of_pos hkey, ih]
      exact (filterMap_exported_cons key _).symm
    · have hleaves : leaves p table key = true := by simp [leaves, hkey]
      rw [if_pos hleaves, List.takeWhile_cons_of_neg hkey]
      rfl

theorem exportLoop_file (htable : p.table = none) (keys : List Bytes) : db.exportLoop md5 p keys =
      (keys.filter fun key => listingType key ≠ some 3).filterMap (db.exported md5 p) := by
  induction keys with
  | nil => rfl
  | cons key rest ih =>
    rw [exportLoop, htable]
    dsimp only
    by_cases hkey : listingType key = some 3
    · rw [if_pos hkey, List.filter_cons_of_neg (by simp [hkey]), ih]
    · rw [if_neg hkey, List.filter_cons_of_pos (by simp [hkey]), ih]
      exact (filterMap_exported_cons key _).symm

def tableParam (table : Bytes) (start stop offset size : Nat) (noval : Bool) : ExportParam :=
  ⟨some table, start, stop, offset, size, noval, false, [], []⟩

variable {start stop : Nat} {noval : Bool}

def tableListing (md5 : Bytes → InnerKey) (db : Db) (f : Nat) (table : Bytes) (start stop : Nat)
    (noval : Bool) : List Exported :=
  (db.tableKeys f table).filterMap (db.exported md5 (tableParam table start stop 0 0 noval))

theorem exportDbMem_table (hf : f < db.data.fileCount) (size i : Nat) :
    db.exportDbMem md5 f (tableParam table start stop (i * size) size noval) =
      (.ok, ((Walk.page (Walk.seek table (db.fileKeys f)) size i).takeWhile fun key =>
        table.isPrefixOf key).filterMap (db.exported md5 (tableParam table start stop 0 0 noval))) := by
  unfold exportDbMem
  rw [if_neg (Nat.not_le.mpr hf)]
  exact Prod.ext rfl (exportLoop_table rfl rfl _)

theorem flatMap_exportDbMem (hf : f < db.data.fileCount) {size n : Nat} (hn : (db.fileKeys f).length ≤ n * size) :
    ((List.range n).flatMap fun i =>
        (db.exportDbMem md5 f (tableParam table start stop (i * size) size noval)).2) =
      db.tableListing md5 f table start stop noval := by
  have hlength : (Walk.seek table (db.fileKeys f)).length ≤ n * size :=
    ((List.dropWhile_sublist _).length_le).trans hn
  have hpages := Walk.flatMap_takeWhile_page (Walk.initial_seek (db.pairwise_fileKeys f) table)
    (db.exported md5 (tableParam table start stop 0 0 noval)) size n hlength
  simp only [exportDbMem_table hf]
  rw [hpages, Walk.filter_seek (db.pairwise_fileKeys f)]
  rfl

theorem exportDb_table (hf : f < db.data.fileCount) : db.exportDb md5 f (tableParam table start stop 0 0 noval) =
      (.ok, db.tableListing md5 f table start stop noval) := by
  unfold exportDb
  rw [if_neg (Nat.not_le.mpr hf)]
  refine Prod.ext rfl ?_
  have hinitial := Walk.initial_seek (db.pairwise_fileKeys f) table
  have hloop : db.exportLoop md5 (tableParam table start stop 0 0 noval)
      (Walk.seek table (db.fileKeys f)) = _ := exportLoop_table rfl rfl _
  rw [hinitial.takeWhile_eq_filter, Walk.filter_seek (db.pairwise_fileKeys f)] at hloop
  exact hloop

/-! ### The records -/

variable {complete : Prop} {used : Set Address} {dir : Directory} {m : RecMap} {a : Address} {e : Entry} {r : Rec}

theorem recordAt_of_get {blockId : BlockId} {userKey val : Bytes} {kv : KvDataItem}
    (h : db.getDataFromContentDb blockId.bucketId blockId userKey = .ok (val, kv)) :
    db.recordAt blockId = some (userKey, val, kv.compressType) := by
  unfold getDataFromContentDb at h
  unfold recordAt
  cases hid : (db.fullkeys blockId.bucketId).getContentId blockId with
  | none => simp [hid] at h
  | some contentId =>
    simp only [hid] at h ⊢
    split_ifs at h ⊢ with hlen
    cases hget : db.contents.get contentId.fileId contentId.dataId contentId.dataLen with
    | none => simp [hget] at h
    | some record =>
      simp only [hget, parseRecord] at h ⊢
      split_ifs at h with hshort hkey huser
      · rw [not_or, not_or, not_not] at hkey
        obtain ⟨hval, rfl⟩ := Prod.mk.inj (Except.ok.inj h)
        rw [if_neg hshort, if_neg (by rw [← hkey.2.1]; exact not_or.mpr ⟨hkey.2.1 ▸ hkey.1, hkey.2.2⟩)]
        rw [not_not] at huser
        rw [← hkey.2.1, huser, hval]

theorem Holds.recordAt_eq (h : db.Holds complete md5 used dir m) (ha : a ∈ used) (hm : m a = some r)
    (hk : dir (a.digest md5) = some e) :
    db.recordAt (e.addr (a.digest md5)).blockId = some (a.key, r.val, r.kv.compressType) := by
  have hview := h.view_eq a ha
  have hlocate := h.versions.run.inv.locate (a.digest md5)
  have hfits := h.fits a ha r hm
  rw [hk] at hlocate
  rw [hm] at hview
  obtain ⟨hnone, -⟩ | ⟨bytes, version, blockId, hcell, hfound, hget⟩ := h.versions.run.inv.located (a.digest md5)
  · cases hnone.symm.trans hview
  obtain ⟨rfl, -⟩ := Prod.mk.inj (Except.ok.inj (hfound.symm.trans hlocate))
  cases hcell.symm.trans hview
  apply recordAt_of_get
  rw [show (e.addr (a.digest md5)).blockId.bucketId = (a.digest md5).bucket from rfl, hget,
    Rec.bytes, parseRecord_recordBytes hfits.user r.val r.kv hfits.userKeyLen, hfits.stored]

theorem blockId_ofBytes {b : BlockId} (h : b.dataId < 2 ^ 32) : BlockId.ofBytes b.bytes = b := by
  have hread := readLe32_le32_append b.dataId []
  rw [List.append_nil, Nat.mod_eq_of_lt h] at hread
  cases b
  simp only [BlockId.ofBytes, BlockId.bytes, List.headD_cons, List.tail_cons] at hread ⊢
  rw [hread]

theorem length_listingKey (t : Bytes) (b : BlockId) : (KvArray.listingKey t b).length = t.length + blockIdBytes := by
  rw [KvArray.listingKey, List.length_append, BlockId.length_bytes, blockIdBytes]

theorem Holds.exportRecord_eq (h : db.Holds complete md5 used dir m) (ha : a ∈ used)
    (hm : m a = some r) (hk : dir (a.digest md5) = some e) (table : Bytes)
    (htable : listingTable (KvArray.listingKey table (e.addr (a.digest md5)).blockId) = a.table) :
    db.exportRecord md5 (KvArray.listingKey table (e.addr (a.digest md5)).blockId) start stop noval =
      if InRange start stop a.key then some (r.exported a.key noval) else none := by
  obtain ⟨e', hk', hlocate⟩ := h.locate_some ha hm
  obtain rfl : e' = e := Option.some.inj (hk'.symm.trans hk)
  have hblock : BlockId.ofBytes ((KvArray.listingKey table (e'.addr (a.digest md5)).blockId).drop
      ((KvArray.listingKey table (e'.addr (a.digest md5)).blockId).length - blockIdBytes)) =
        (e'.addr (a.digest md5)).blockId := by
    rw [length_listingKey, Nat.add_sub_cancel, KvArray.listingKey, List.drop_left]
    exact blockId_ofBytes (h.dataId_lt hk)
  have hversion : db.md5dbInfoByKey md5 a.table a.key = r.version := by
    rw [md5dbInfoByKey, show md5 (a.table ++ a.key) = a.digest md5 from rfl, hlocate]
  rw [exportRecord, hblock, h.recordAt_eq ha hm hk]
  simp only [htable, hversion]
  by_cases hrange : InRange start stop a.key
  · rw [if_pos hrange, if_neg (by unfold InRange at hrange; omega)]
    rfl
  · rw [if_neg hrange, if_pos (by unfold InRange at hrange; omega)]

theorem inRange_all (key : Bytes) : InRange 0 maxBucketNum key :=
  ⟨Nat.zero_le _, Nat.mod_lt _ (by decide)⟩

theorem Holds.exportRecord_all (h : db.Holds complete md5 used dir m) (ha : a ∈ used)
    (hm : m a = some r) (hk : dir (a.digest md5) = some e) (table : Bytes)
    (htable : listingTable (KvArray.listingKey table (e.addr (a.digest md5)).blockId) = a.table) :
    db.exportRecord md5 (KvArray.listingKey table (e.addr (a.digest md5)).blockId) 0 maxBucketNum
      false = some ⟨a.key, r.val, r.version, r.kv.compressType⟩ := by
  rw [h.exportRecord_eq ha hm hk table htable, if_pos (inRange_all a.key)]
  rfl

theorem listingTable_listingKey {t : Bytes} (ht : t.length ≠ 1) (b : BlockId) :
    listingTable (KvArray.listingKey t b) = t := by
  have hbytes : blockIdBytes = 5 := rfl
  unfold listingTable
  rw [length_listingKey, Nat.add_sub_cancel, KvArray.listingKey]
  split_ifs with hlen
  · exact List.take_left
  · have hnil : t = [] := List.length_eq_zero_iff.mp (by omega)
    exact hnil.symm

theorem Holds.exported_entryKey (h : db.Holds complete md5 used dir m) (ha : a ∈ used)
    (hm : m a = some r) (hk : dir (a.digest md5) = some e) (ht : a.table.length ≠ 1) :
    db.exported md5 p (entryKey md5 a e) =
      if InRange p.start p.stop a.key then some (r.exported a.key p.noval) else none := by
  unfold Db.exported entryKey
  rw [h.exportRecord_eq ha hm hk a.table (listingTable_listingKey ht _)]
  by_cases hrange : InRange p.start p.stop a.key
  · rw [if_pos hrange, Option.filter_some]
    exact if_pos (decide_eq_true (h.fits a ha r hm).version_pos)
  · rw [if_neg hrange]
    rfl

/-! ### Exactness -/

def members (md5 : Bytes → InnerKey) (used : Set Address) (db : Db) (table : Bytes) : Set Bytes :=
  {key | ⟨table, key⟩ ∈ used ∧ (db.exists_ md5 ⟨table, 0, 0, 0⟩ key).1 = .ok}

theorem Holds.mem_members (h : db.Holds complete md5 used dir m) :
    key ∈ db.members md5 used table ↔ ⟨table, key⟩ ∈ used ∧ ∃ r, m ⟨table, key⟩ = some r := by
  apply and_congr_right
  intro ha
  cases hm : m ⟨table, key⟩ with
  | none =>
    refine iff_of_false ?_ (by simp)
    by_cases huser : checkUserKey key
    · rw [h.exists_eq ha rfl huser, hm]
      simp
    · simp [exists_, huser]
  | some r =>
    refine iff_of_true ?_ ⟨r, rfl⟩
    rw [h.exists_eq ha rfl (h.fits _ ha r hm).user, hm]

theorem Holds.mem_fileKeys (h : db.Holds True md5 used dir m) : key ∈ db.fileKeys f ↔
      ∃ a ∈ used, ∃ e, dir (a.digest md5) = some e ∧ key = entryKey md5 a e ∧ f = db.fileOf md5 a := by
  constructor
  · intro hkey
    obtain ⟨⟨_, v⟩, hentry, rfl⟩ := List.mem_map.mp hkey
    exact h.listed f _ v (SortedMap.mem_entries.mp hentry)
  · rintro ⟨a, ha, e, hk, rfl, rfl⟩
    exact List.mem_map.mpr ⟨_, SortedMap.mem_entries.mpr (h.listed_all trivial a ha e hk), rfl⟩

theorem nodup_tableKeys (db : Db) (f : Nat) (table : Bytes) : (db.tableKeys f table).Nodup :=
  ((db.pairwise_fileKeys f).imp ne_of_lt).sublist List.filter_sublist

def shownKey (md5 : Bytes → InnerKey) (db : Db) (p : ExportParam) (key : Bytes) : Option Bytes :=
  (db.exported md5 p key).map Exported.key

theorem Holds.shownKey_entryKey (h : db.Holds complete md5 used dir m) (ha : a ∈ used)
    (hk : dir (a.digest md5) = some e) (ht : a.table.length ≠ 1) :
    db.shownKey md5 p (entryKey md5 a e) = some key ↔ a.key = key ∧ InRange p.start p.stop key := by
  obtain ⟨r, hm, -⟩ := h.map_some ha hk
  rw [shownKey, h.exported_entryKey ha hm hk ht]
  by_cases hrange : InRange p.start p.stop a.key
  · rw [if_pos hrange]
    constructor
    · intro hsome
      cases hsome
      exact ⟨rfl, hrange⟩
    · rintro ⟨rfl, -⟩
      rfl
  · rw [if_neg hrange]
    refine iff_of_false (by simp) ?_
    rintro ⟨rfl, hin⟩
    exact hrange hin

theorem map_key_tableListing (md5 : Bytes → InnerKey) (db : Db) (f : Nat) (table : Bytes)
    (start stop : Nat) (noval : Bool) :
    (db.tableListing md5 f table start stop noval).map Exported.key =
      (db.tableKeys f table).filterMap (db.shownKey md5 (tableParam table start stop 0 0 noval)) :=
  List.map_filterMap ..

def Intrudes (md5 : Bytes → InnerKey) (used : Set Address) (db : Db) (f : Nat) (table : Bytes)
    (start stop : Nat) (key : Bytes) : Prop :=
  ⟨[], key⟩ ∈ used ∧ (∃ blockId version, db.locate (md5 key) = .ok (blockId, version) ∧
    table <+: blockId.bytes) ∧ f = db.fileOf md5 ⟨[], key⟩ ∧ InRange start stop key

/-- What the tables of the store have in common: a name of one byte is not used, and a listing entry
that begins with the name of the table is one of the table or of a plain key. -/
structure Apart (used : Set Address) (table : Bytes) : Prop where
  ne_nil : table ≠ []
  length_ne : ∀ a ∈ used, a.table.length ≠ 1
  eq_or_nil : ∀ a ∈ used, ∀ b : BlockId, table <+: KvArray.listingKey a.table b → a.table = table ∨ a.table = []

section

variable (h : db.Holds True md5 used dir m)
include h

theorem Holds.mem_tableKeys : key ∈ db.tableKeys f table ↔ (∃ a ∈ used, ∃ e, dir (a.digest md5) = some e ∧
      key = entryKey md5 a e ∧ f = db.fileOf md5 a) ∧ table <+: key := by
  rw [tableKeys, List.mem_filter, List.isPrefixOf_iff_prefix, h.mem_fileKeys]

theorem Holds.intrudes (ha : a ∈ used) (hplain : a.table = [])
    (hk : dir (a.digest md5) = some e) (hbegins : table <+: entryKey md5 a e)
    (hf : f = db.fileOf md5 a) (hrange : InRange start stop a.key) :
    db.Intrudes md5 used f table start stop a.key := by
  obtain ⟨t, key⟩ := a
  subst hplain
  obtain ⟨r, hm, -⟩ := h.map_some ha hk
  obtain ⟨e', hk', hlocate⟩ := h.locate_some ha hm
  cases hk.symm.trans hk'
  exact ⟨ha, ⟨_, _, hlocate, hbegins⟩, hf, hrange⟩

theorem Holds.of_intrudes (hkey : db.Intrudes md5 used f table start stop key) :
    ∃ e, dir (md5 key) = some e ∧ table <+: entryKey md5 ⟨[], key⟩ e := by
  obtain ⟨ha, ⟨blockId, version, hlocate, hbegins⟩, -, -⟩ := hkey
  cases hm : m ⟨[], key⟩ with
  | none => cases hlocate.symm.trans (h.locate_none ha hm)
  | some r =>
    obtain ⟨e, hk, hfound⟩ := h.locate_some ha hm
    cases hlocate.symm.trans hfound
    exact ⟨e, hk, hbegins⟩

theorem Holds.listsExactly_of
    (hlength : ∀ a ∈ used, a.table.length ≠ 1) (hfile : ∀ a, a.table = table → f = db.fileOf md5 a)
    {passes : Bytes → Bool} (hown : ∀ b, passes (KvArray.listingKey table b))
    (hothers : ∀ a ∈ used, ∀ e, dir (a.digest md5) = some e → f = db.fileOf md5 a →
      passes (entryKey md5 a e) → InRange p.start p.stop a.key → a.table = table) :
    ListsExactly (((db.fileKeys f).filter passes).filterMap (db.shownKey md5 p))
      {key | key ∈ db.members md5 used table ∧ InRange p.start p.stop key} := by
  have hentries {entry key : Bytes} (hentry : entry ∈ (db.fileKeys f).filter passes)
      (hshown : db.shownKey md5 p entry = some key) : ⟨table, key⟩ ∈ used ∧
        InRange p.start p.stop key ∧ ∃ e, dir (Address.digest md5 ⟨table, key⟩) = some e ∧
          entry = entryKey md5 ⟨table, key⟩ e := by
    obtain ⟨hmem, hpasses⟩ := List.mem_filter.mp hentry
    obtain ⟨a, ha, e, hk, rfl, hf⟩ := h.mem_fileKeys.mp hmem
    obtain ⟨rfl, hrange⟩ := (h.shownKey_entryKey ha hk (hlength a ha)).mp hshown
    have htable := hothers a ha e hk hf hpasses hrange
    subst htable
    exact ⟨ha, hrange, e, hk, rfl⟩
  have hnodup : ((db.fileKeys f).filter passes).Nodup :=
    ((db.pairwise_fileKeys f).imp ne_of_lt).sublist List.filter_sublist
  constructor
  · rw [Walk.nodup_filterMap_iff hnodup]
    intro x hx y hy key hxkey hykey
    obtain ⟨-, -, e, hk, rfl⟩ := hentries hx hxkey
    obtain ⟨-, -, e', hk', rfl⟩ := hentries hy hykey
    cases hk.symm.trans hk'
    rfl
  · intro key
    rw [List.mem_filterMap]
    constructor
    · rintro ⟨entry, hentry, hshown⟩
      obtain ⟨ha, hrange, e, hk, -⟩ := hentries hentry hshown
      obtain ⟨r, hm, -⟩ := h.map_some ha hk
      exact ⟨h.mem_members.mpr ⟨ha, r, hm⟩, hrange⟩
    · rintro ⟨hmember, hrange⟩
      obtain ⟨ha, r, hm⟩ := h.mem_members.mp hmember
      obtain ⟨id, hk⟩ := h.dir_some ha hm
      have hmem := h.mem_fileKeys.mpr ⟨_, ha, _, hk, rfl, hfile _ rfl⟩
      exact ⟨_, List.mem_filter.mpr ⟨hmem, hown _⟩, (h.shownKey_entryKey ha hk (hlength _ ha)).mpr ⟨rfl, hrange⟩⟩

theorem Holds.listsExactly_iff (hapart : Apart used table) (hfile : ∀ a, a.table = table → f = db.fileOf md5 a) :
    ListsExactly ((db.tableListing md5 f table start stop noval).map Exported.key)
        {key | key ∈ db.members md5 used table ∧ InRange start stop key} ↔
      ∀ key, ¬db.Intrudes md5 used f table start stop key := by
  rw [map_key_tableListing]
  constructor
  · intro hexact key hkey
    obtain ⟨e, hk, hbegins⟩ := h.of_intrudes hkey
    obtain ⟨ha, -, hf, hrange⟩ := hkey
    have hentry : entryKey md5 ⟨[], key⟩ e ∈ db.tableKeys f table :=
      h.mem_tableKeys.mpr ⟨⟨_, ha, e, hk, rfl, hf⟩, hbegins⟩
    have hshown := (h.shownKey_entryKey (p := tableParam table start stop 0 0 noval) ha hk
      (hapart.length_ne _ ha)).mpr ⟨rfl, hrange⟩
    -- what it shows must be a member, and is then shown twice
    obtain ⟨hmember, -⟩ := (hexact.mem_iff key).mp (List.mem_filterMap.mpr ⟨_, hentry, hshown⟩)
    obtain ⟨ha', r, hm⟩ := h.mem_members.mp hmember
    obtain ⟨id, hk'⟩ := h.dir_some ha' hm
    have hentry' : entryKey md5 ⟨table, key⟩ ⟨id, r.version⟩ ∈ db.tableKeys f table :=
      h.mem_tableKeys.mpr ⟨⟨_, ha', _, hk', rfl, hfile _ rfl⟩, List.prefix_append _ _⟩
    have hshown' := (h.shownKey_entryKey (p := tableParam table start stop 0 0 noval) ha' hk'
      (hapart.length_ne _ ha')).mpr ⟨rfl, hrange⟩
    have hsame := (Walk.nodup_filterMap_iff (db.nodup_tableKeys f table) _).mp hexact.nodup
      _ hentry _ hentry' key hshown hshown'
    obtain ⟨hnil, -⟩ := KvArray.listingKey_inj (h.dataId_lt hk) (h.dataId_lt hk') hsame
    exact hapart.ne_nil hnil.symm
  · intro hnone
    refine h.listsExactly_of hapart.length_ne hfile (fun b => ?_) fun a ha e hk hf hpasses hrange => ?_
    · exact List.isPrefixOf_iff_prefix.mpr (List.prefix_append _ _)
    · have hbegins := List.isPrefixOf_iff_prefix.mp hpasses
      rcases hapart.eq_or_nil a ha _ hbegins with htable | hplain
      · exact htable
      · exact absurd (h.intrudes ha hplain hk hbegins hf hrange) (hnone a.key)

end

/-! ### Whole files -/

def fileListing (md5 : Bytes → InnerKey) (db : Db) (f start stop : Nat) (noval : Bool) :
    List (Option (Bytes × Char) × Exported) :=
  ((db.fileKeys f).filter fun key => listingType key ≠ some 3).filterMap fun key =>
    (db.exported md5 ⟨none, start, stop, 0, 0, noval, false, [], []⟩ key).map (listingLabel key, ·)

theorem flatMap_exportDbMem_file (hf : f < db.data.fileCount) {size n : Nat}
    (hn : (db.fileKeys f).length ≤ n * size) :
    ((List.range n).flatMap fun i => (db.exportDbMem md5 f
        ⟨none, start, stop, i * size, size, noval, false, [], []⟩).2) =
      (db.fileListing md5 f start stop noval).map Prod.snd := by
  have hpage (i : Nat) : (db.exportDbMem md5 f ⟨none, start, stop, i * size, size, noval, false, [], []⟩).2 =
        ((Walk.page (db.fileKeys f) size i).filter fun key => listingType key ≠ some 3).filterMap
          (db.exported md5 ⟨none, start, stop, 0, 0, noval, false, [], []⟩) := by
    have hseek : (db.fileKeys f).dropWhile (fun key => key < []) = db.fileKeys f :=
      List.dropWhile_eq_self_iff.mpr fun _ => by simp
    unfold exportDbMem
    rw [if_neg (Nat.not_le.mpr hf)]
    dsimp only
    rw [exportLoop_file rfl]
    show List.filterMap _ (((((db.fileKeys f).dropWhile fun key => key < []).take _).drop _).filter _) = _
    rw [hseek]
    rfl
  have hall : (List.range n).flatMap (Walk.page (db.fileKeys f) size) = db.fileKeys f := by
    rw [Walk.flatMap_page, List.take_of_length_le hn]
  simp only [hpage]
  rw [← List.filterMap_flatMap, ← List.filter_flatMap, hall, fileListing, List.map_filterMap]
  congr 1
  funext key
  rw [Option.map_map]
  exact Option.map_id'.symm

theorem map_key_fileListing (md5 : Bytes → InnerKey) (db : Db) (f start stop : Nat) (noval : Bool)
    (label : Bytes × Char) :
    ((db.fileListing md5 f start stop noval).filter (·.1 = some label)).map (·.2.key) =
      ((db.fileKeys f).filter fun key =>
        listingType key ≠ some 3 ∧ listingLabel key = some label).filterMap
          (db.shownKey md5 ⟨none, start, stop, 0, 0, noval, false, [], []⟩) := by
  rw [fileListing, List.filter_filterMap, List.map_filterMap, List.filterMap_filter, List.filterMap_filter]
  congr 1
  funext key
  unfold shownKey
  by_cases htype : listingType key = some 3
  · simp [htype]
  · by_cases hlabel : listingLabel key = some label
    · cases db.exported md5 ⟨none, start, stop, 0, 0, noval, false, [], []⟩ key <;> simp [htype, hlabel]
    · cases db.exported md5 ⟨none, start, stop, 0, 0, noval, false, [], []⟩ key <;> simp [htype, hlabel]

theorem Holds.listsExactly_file (h : db.Holds True md5 used dir m)
    (hlength : ∀ a ∈ used, a.table.length ≠ 1) (hfile : ∀ a, a.table = table → f = db.fileOf md5 a)
    {label : Bytes × Char}
    (hown : ∀ b, listingType (KvArray.listingKey table b) ≠ some 3 ∧
      listingLabel (KvArray.listingKey table b) = some label)
    (hothers : ∀ a ∈ used, ∀ b, listingLabel (KvArray.listingKey a.table b) = some label → a.table = table) :
    ListsExactly (((db.fileListing md5 f start stop noval).filter (·.1 = some label)).map (·.2.key))
      {key | key ∈ db.members md5 used table ∧ InRange start stop key} := by
  rw [map_key_fileListing]
  refine h.listsExactly_of hlength hfile (fun b => decide_eq_true (hown b)) ?_
  intro a ha e _ _ hpasses _
  exact hothers a ha _ (of_decide_eq_true hpasses).2

end Db

end HustStore.Md5db
