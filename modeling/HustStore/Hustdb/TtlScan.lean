import HustStore.Hustdb.Listing
import HustStore.Hustdb.Statistics
import HustStore.Lib.Sweep

/-!
# The progress of the ttl scan

A call of the ttl scan goes through one page of the ttl index. The index itself is under a sweep: what is past
its time is taken out of the page, and the next page begins at the last key of this one.
-/

namespace HustStore

open Md5db

/-! ### The index under the scan -/

theorem KvArray.delFromMd5db_ttlFile {kv : KvArray} {blockId : BlockId} {fileId : Nat} {table : Bytes} :
    (kv.delFromMd5db blockId fileId table).2.ttlFile = kv.ttlFile := by
  unfold delFromMd5db
  dsimp only
  split_ifs <;> rfl

namespace Md5db.Db

variable (md5 : Bytes → InnerKey) (db : Db) (q : Query) (k : InnerKey) (version : Nat) (isDup : Bool)
  (ctxt : ItemCtxt)

theorem delConflictBlockId_data : (db.delConflictBlockId k version isDup ctxt).2.2.2.2.2.data = db.data := by
  unfold delConflictBlockId
  dsimp only
  split
  · rfl
  · split_ifs <;> rfl

theorem deleteConflictData_ttlFile :
    (db.deleteConflictData q k version isDup ctxt).2.2.2.data.ttlFile = db.data.ttlFile := by
  have hdata := db.delConflictBlockId_data k version isDup ctxt
  unfold deleteConflictData
  generalize db.delConflictBlockId k version isDup ctxt = out at hdata ⊢
  obtain ⟨_ | e, blockId, contentId, version, ctxt, db'⟩ := out
  · dsimp only at hdata ⊢
    split
    · exact congrArg KvArray.ttlFile hdata
    · exact KvArray.delFromMd5db_ttlFile.trans (congrArg KvArray.ttlFile hdata)
  · exact congrArg KvArray.ttlFile hdata

theorem deleteDirectData_ttlFile (bucket : UInt8) (blockId : BlockId) :
    (db.deleteDirectData q bucket blockId ctxt).2.2.data.ttlFile = db.data.ttlFile := by
  unfold deleteDirectData
  dsimp only
  split
  · rfl
  split
  · rfl
  split
  · rfl
  split
  · rfl
  · exact KvArray.delFromMd5db_ttlFile

theorem del_ttlFile (userKey : Bytes) : (db.del md5 q userKey version isDup).2.data.ttlFile = db.data.ttlFile := by
  unfold del
  split
  · rfl
  split
  · rfl
  dsimp only
  generalize db.hashCtxt q (innerKeyOf md5 q userKey) = ctxt
  generalize innerKeyOf md5 q userKey = k
  unfold delSlot
  dsimp only
  split
  · split
    · rfl
    split
    · rfl
    split
    · rfl
    have hdirect := db.deleteDirectData_ttlFile q ctxt k.bucket (db.buckets (slotOf k)).blockId
    generalize db.deleteDirectData q k.bucket (db.buckets (slotOf k)).blockId ctxt = out at hdirect ⊢
    obtain ⟨_ | e, ctxt, db'⟩ := out <;> exact hdirect
  · exact db.deleteConflictData_ttlFile q k version isDup ctxt
  · rfl

end Md5db.Db

def TtlEntry.expired (now : Nat) (entry : TtlEntry) : Bool := entry.ttl ≤ now

namespace Hustdb

variable (md5 : Bytes → InnerKey) (cfg : Settings) (s : Hustdb)

def sweep (s : Hustdb) : Sweep Bytes TtlEntry := ⟨s.storage.data.ttlFile, s.ttlSeek⟩

theorem run_removes {a : Action} (h : a.Removes) :
    (a.run md5 cfg s).storage.data.ttlFile = s.storage.data.ttlFile ∧ (a.run md5 cfg s).now = s.now := by
  cases a with
  | del t offset ver isDup sized =>
    rw [Action.run, storage_delTarget, delTarget_now]
    exact ⟨Db.del_ttlFile .., rfl⟩
  | store c =>
    obtain ⟨q, key, rfl⟩ := h
    exact ⟨Db.del_ttlFile .., rfl⟩
  | _ => exact h.elim

theorem scanDel_ttlFile (listing key : Bytes) :
    (s.scanDel md5 cfg listing key).storage.data.ttlFile = s.storage.data.ttlFile ∧
      (s.scanDel md5 cfg listing key).now = s.now := by
  rw [← exec_scanDelActions]
  refine (Run.guarded_of_forall (removes_scanDelActions listing)).invariant
    (P := fun s' : Hustdb => s'.storage.data.ttlFile = s.storage.data.ttlFile ∧ s'.now = s.now) ?_ ⟨rfl, rfl⟩
  rintro s' a ⟨hfile, hnow⟩ ha
  obtain ⟨hfile', hnow'⟩ := run_removes md5 cfg s' ha
  exact ⟨hfile'.trans hfile, hnow'.trans hnow⟩

theorem scanEntry_ttlFile (listing : Bytes) (entry : TtlEntry) :
    (s.scanEntry md5 cfg listing entry).storage.data.ttlFile =
        (if entry.expired s.now then s.storage.data.ttlFile.erase listing else s.storage.data.ttlFile) ∧
      (s.scanEntry md5 cfg listing entry).now = s.now := by
  unfold scanEntry
  by_cases htime : entry.ttl > s.now
  · have hfresh : ¬entry.expired s.now = true := by simpa [TtlEntry.expired] using htime
    rw [if_pos htime, if_neg hfresh]
    exact ⟨rfl, rfl⟩
  · have hexpired : entry.expired s.now = true := by simpa [TtlEntry.expired] using htime
    rw [if_neg htime, hexpired, if_pos rfl]
    split
    · exact ⟨rfl, rfl⟩
    split
    · exact ⟨rfl, rfl⟩
    · obtain ⟨hfile, hnow⟩ := s.scanDel_ttlFile md5 cfg listing (s.scanKey md5 listing)
      exact ⟨congrArg (SortedMap.erase · listing) hfile, hnow⟩

theorem scanLoop_ttlFile (page : List (Bytes × TtlEntry)) : (s.scanLoop md5 cfg page).storage.data.ttlFile =
      ((page.filter fun e => e.2.expired s.now).map Prod.fst).foldl SortedMap.erase
        s.storage.data.ttlFile := by
  induction page generalizing s with
  | nil => rfl
  | cons e page ih =>
    obtain ⟨hfile, hnow⟩ := s.scanEntry_ttlFile md5 cfg e.1 e.2
    rw [scanLoop, ih, hfile, hnow]
    rw [List.filter_cons]
    split_ifs <;> rfl

theorem page_sweep (size : Nat) : s.sweep.page size = s.ttlPage size := by
  unfold Sweep.page Sweep.high ttlPage
  rw [SortedMap.dropWhile_lt (k := s.ttlSeek) _ fun e => decide_eq_true_iff]
  congr 1
  refine List.filter_congr fun e _ => ?_
  rw [Bool.eq_iff_iff, decide_eq_true_iff, Bool.not_eq_true', decide_eq_false_iff_not, not_lt]
  exact Iff.rfl

theorem sweep_ttlScan (size : Nat) :
    (s.ttlScan md5 cfg size).sweep = s.sweep.step [] size (TtlEntry.expired s.now) := by
  unfold Sweep.step
  rw [page_sweep]
  exact congrArg (Sweep.mk · _) (s.scanLoop_ttlFile md5 cfg (s.ttlPage size))

end Hustdb

def scanOps (size : Nat) (times : List Nat) : List Op := times.flatMap fun now => [.tick now, .ttlScan size]

theorem scanOps_cons (size now : Nat) (times : List Nat) :
    scanOps size (now :: times) = .tick now :: .ttlScan size :: scanOps size times := rfl

theorem Hustdb.sweep_scanOps (md5 : Bytes → InnerKey) (cfg : Settings) (s : Hustdb) (size : Nat) (times : List Nat) :
    (Run.exec (Op.step md5 cfg) s (scanOps size times)).sweep =
      Run.exec (Sweep.step [] size) s.sweep (times.map TtlEntry.expired) := by
  induction times generalizing s with
  | nil => rfl
  | cons now times ih =>
    rw [scanOps_cons, Run.exec_cons, Run.exec_cons, ih, List.map_cons, Run.exec_cons]
    congr 1
    exact sweep_ttlScan md5 cfg { s with now } size

/-! ### The record of an entry -/

namespace Md5db.Db

/-- The entry of the ttl index is that of the record at an address: the listing file that it names has its
key, and the key is that of the record. -/
structure Times (md5 : Bytes → InnerKey) (db : Db) (listing : Bytes) (entry : TtlEntry) (a : Address) : Prop where
  listed : ((db.data.files entry.fileId).get? listing).isSome
  found : ∃ blockId version, db.locate (a.digest md5) = .ok (blockId, version) ∧
    listing = KvArray.listingKey a.table blockId

def Gone (md5 : Bytes → InnerKey) (db : Db) (a : Address) : Prop := db.locate (a.digest md5) = .error .ENOENT

def OnlyLoses (md5 : Bytes → InnerKey) (used : Set Address) (db db' : Db) : Prop :=
  ∀ b ∈ used, (db.Gone md5 b → db'.Gone md5 b) ∧
    ∀ listing entry, db.Times md5 listing entry b → db'.Times md5 listing entry b ∨ db'.Gone md5 b

variable {md5 : Bytes → InnerKey} {used : Set Address} {db db' db'' : Db} {dir : Directory} {m : RecMap}
  {a : Address} {listing : Bytes} {entry : TtlEntry}

theorem OnlyLoses.refl : OnlyLoses md5 used db db := fun _ _ => ⟨id, fun _ _ => .inl⟩

theorem OnlyLoses.trans (h : OnlyLoses md5 used db db') (h' : OnlyLoses md5 used db' db'') :
    OnlyLoses md5 used db db'' := by
  intro b hb
  refine ⟨fun hgone => (h' b hb).1 ((h b hb).1 hgone), fun listing entry htimes => ?_⟩
  rcases (h b hb).2 listing entry htimes with htimes | hgone
  · exact (h' b hb).2 listing entry htimes
  · exact .inr ((h' b hb).1 hgone)

section

variable (h : db.Holds True md5 used dir m)
include h

theorem Holds.dir_of_locate {blockId : BlockId} {version : Nat}
    (hlocate : db.locate (a.digest md5) = .ok (blockId, version)) :
    ∃ e, dir (a.digest md5) = some e ∧ blockId = (e.addr (a.digest md5)).blockId := by
  have hinv := h.versions.run.inv.locate (a.digest md5)
  cases hk : dir (a.digest md5) with
  | none =>
    rw [hlocate, hk] at hinv
    cases hinv
  | some e =>
    rw [hlocate, hk] at hinv
    exact ⟨e, rfl, (Prod.mk.inj (Except.ok.inj hinv)).1⟩

theorem Holds.times_iff (hinj : Set.InjOn (Address.digest md5) used) (ha : a ∈ used) : db.Times md5 listing entry a ↔
      entry.fileId = db.fileOf md5 a ∧ ∃ blockId version, db.locate (a.digest md5) = .ok (blockId, version) ∧
        listing = KvArray.listingKey a.table blockId := by
  constructor
  · rintro ⟨hlisted, blockId, version, hlocate, rfl⟩
    obtain ⟨e, hk, rfl⟩ := h.dir_of_locate hlocate
    obtain ⟨v, hv⟩ := Option.isSome_iff_exists.mp hlisted
    obtain ⟨a', ha', e', hk', hkey, hfile⟩ := h.listed _ _ _ hv
    obtain ⟨-, hblock⟩ := KvArray.listingKey_inj (h.dataId_lt hk) (h.dataId_lt hk') hkey
    have hdigest : a.digest md5 = a'.digest md5 := h.versions.run.inv.inj _ _ e e' hk hk'
      (Prod.ext (congrArg BlockId.bucketId hblock) (congrArg BlockId.dataId hblock))
    obtain rfl := hinj ha ha' hdigest
    exact ⟨hfile, _, version, hlocate, rfl⟩
  · rintro ⟨hfile, blockId, version, hlocate, rfl⟩
    obtain ⟨e, hk, rfl⟩ := h.dir_of_locate hlocate
    refine ⟨?_, _, version, hlocate, rfl⟩
    have hlisted := h.listed_all trivial a ha e hk
    rw [hfile]
    exact Option.isSome_iff_exists.mpr ⟨_, hlisted⟩

theorem Holds.gone_of_none (ha : a ∈ used) (hm : m a = none) :
    db.Gone md5 a := by
  rw [Gone, h.versions.run.inv.locate, h.dir_none ha hm]

section

variable (hinj : Set.InjOn (Address.digest md5) used) {q : Query} {key : Bytes} (ha : ⟨q.table, key⟩ ∈ used)
  (hsound : (Call.del q key 0 false).Sound md5 db)
include hinj ha hsound

theorem Holds.erase : ∃ dir' m', (db.del md5 q key 0 false).2.Holds True md5 used dir' m' ∧ m' ⟨q.table, key⟩ = none ∧
      ∀ b, b ≠ ⟨q.table, key⟩ → m' b = m b := by
  obtain ⟨dir', m', h', hresult⟩ := h.del hinj ha rfl hsound.1 fun _ hdup => by cases hdup
  refine ⟨dir', m', h', ?_, fun b => hresult.eq_of_ne⟩
  generalize (db.del md5 q key 0 false).1 = reply at hresult
  cases hresult with
  | invalid hnot =>
    cases hm : m ⟨q.table, key⟩ with
    | none => rfl
    | some r => exact absurd ⟨(h.fits _ ha r hm).user, Nat.zero_le _⟩ hnot
  | absent habsent _ => exact habsent
  | refused _ hrefuse _ => exact absurd (.inl rfl) hrefuse
  | removed _ _ _ => exact Function.update_self ..

theorem Holds.onlyLoses_del :
    OnlyLoses md5 used db (db.del md5 q key 0 false).2 ∧ (db.del md5 q key 0 false).2.Gone md5 ⟨q.table, key⟩ := by
  obtain ⟨dir', m', h', hnone, -⟩ := h.erase hinj ha hsound
  have hgone := h'.gone_of_none ha hnone
  refine ⟨fun b hb => ?_, hgone⟩
  by_cases hab : b = ⟨q.table, key⟩
  · subst hab
    exact ⟨fun _ => hgone, fun _ _ _ => .inr hgone⟩
  · have hlocate : (db.del md5 q key 0 false).2.locate (b.digest md5) = db.locate (b.digest md5) :=
      h.versions.locate_del hsound (.inl fun heq => hab (hinj hb ha heq))
    refine ⟨fun hb => hlocate.trans hb, fun listing entry htimes => .inl ?_⟩
    rw [h.times_iff hinj hb] at htimes
    have hcount : (db.del md5 q key 0 false).2.data.fileCount = db.data.fileCount :=
      h.versions.run.fileCount_step hsound.1
    rw [h'.times_iff hinj hb, hlocate, fileOf_congr hcount]
    exact htimes

end

end

end Md5db.Db

/-! ### Actions that delete -/

def Scored (used : Set Address) (m : RecMap) : Prop :=
  ∀ name key r, ⟨name ++ [TableType.zsetIn.code], key⟩ ∈ used →
    m ⟨name ++ [TableType.zsetIn.code], key⟩ = some r → (dbStrtoll r.val).isSome

structure Hustdb.Tended (md5 : Bytes → InnerKey) (used : Set Address) (s : Hustdb) : Prop where
  stores : ∃ dir m, s.storage.Holds True md5 used dir m ∧ Scored used m
  books : ∀ table, tbNameCheck table → ∃ dir m, Books False True md5 used table s dir m

variable {md5 : Bytes → InnerKey} {cfg : Settings} {used : Set Address} {s : Hustdb} {listing : Bytes}
  {entry : TtlEntry}

section Deleting

variable {a : Action}

theorem Action.Deletes.call (h : a.Deletes) {c : Call} (hc : c ∈ a.call md5 cfg s) :
    ∃ q key, c = .del q key 0 false := by
  cases a with
  | del t offset ver isDup sized =>
    obtain ⟨rfl, rfl⟩ := h
    cases hc
    exact ⟨_, _, rfl⟩
  | store c =>
    cases hc
    exact h
  | eraseTtl listing => cases hc
  | seek listing => cases hc
  | tick now => cases hc
  | openTable _ _ | fetch _ _ | peek _ | put _ _ _ | evict _ | binlog _ => exact h.elim

theorem Hustdb.Tended.run (h : s.Tended md5 used) (hinj : Set.InjOn (Address.digest md5) used)
    (hdeletes : a.Deletes) (hwithin : a.Within md5 cfg used s) (haimed : a.Aimed s) :
    (a.run md5 cfg s).Tended md5 used ∧ Db.OnlyLoses md5 used s.storage (a.run md5 cfg s).storage := by
  obtain ⟨⟨dir, m, hholds, hscored⟩, hbooks⟩ := h
  have hbooks' : ∀ table, tbNameCheck table → ∃ dir m, Books False True md5 used table (a.run md5 cfg s) dir m := by
    intro table hcheck
    obtain ⟨dir, m, hbook⟩ := hbooks table hcheck
    exact hbook.run hinj hcheck hwithin haimed False.elim
  rcases storage_run md5 cfg s a with ⟨c, hc, heq⟩ | heq | ⟨ttlFile, heq⟩
  · obtain ⟨q, key, rfl⟩ := hdeletes.call hc
    have hmem : (⟨q.table, key⟩ : Address) ∈ used := (hwithin _ hc).1
    have hsound := (hwithin _ hc).2
    obtain ⟨dir', m', hholds', hnone, hothers⟩ := hholds.erase hinj hmem hsound
    refine ⟨⟨⟨dir', m', heq ▸ hholds', fun name key' r hused hr => ?_⟩, hbooks'⟩, ?_⟩
    · by_cases hself : (⟨name ++ [TableType.zsetIn.code], key'⟩ : Address) = ⟨q.table, key⟩
      · rw [hself, hnone] at hr
        cases hr
      · exact hscored name key' r hused (hothers _ hself ▸ hr)
    · rw [heq]
      exact (hholds.onlyLoses_del hinj hmem hsound).1
  · exact ⟨⟨⟨dir, m, heq ▸ hholds, hscored⟩, hbooks'⟩, heq ▸ .refl⟩
  · refine ⟨⟨⟨dir, m, heq ▸ hholds.withTtlFile ttlFile, hscored⟩, hbooks'⟩, ?_⟩
    rw [heq]
    exact fun b _ => ⟨id, fun listing entry htimes => .inl ⟨htimes.listed, htimes.found⟩⟩

theorem Hustdb.Tended.exec {actions : List Action} (h : s.Tended md5 used)
    (hinj : Set.InjOn (Address.digest md5) used) (hdeletes : ∀ a ∈ actions, a.Deletes)
    (hwithin : Run.Guarded (Action.run md5 cfg) (Action.Within md5 cfg used) s actions)
    (haimed : Run.Guarded (Action.run md5 cfg) Action.Aimed s actions) :
    (Run.exec (Action.run md5 cfg) s actions).Tended md5 used ∧
      Db.OnlyLoses md5 used s.storage (Run.exec (Action.run md5 cfg) s actions).storage := by
  refine ((hwithin.and haimed).and_forall hdeletes).invariant
    (P := fun s' => s'.Tended md5 used ∧ Db.OnlyLoses md5 used s.storage s'.storage) ?_ ⟨h, .refl⟩
  rintro s' a ⟨htended, hloses⟩ ⟨hdeletes, hwithin, haimed⟩
  obtain ⟨htended', hloses'⟩ := htended.run hinj hdeletes hwithin haimed
  exact ⟨htended', hloses.trans hloses'⟩

end Deleting

/-! ### The scan and the records -/

inductive TimedTable : Bytes → Prop
  | plain : TimedTable []
  | member {name : Bytes} {type : TableType} (check : tbNameCheck name) (collection : type.IsCollection) :
      TimedTable (name ++ [type.inner.code])

def TimedKey (listing : Bytes) : Prop := ∃ table blockId, listing = KvArray.listingKey table blockId ∧
  TimedTable table

theorem TimedTable.length_ne {table : Bytes} (h : TimedTable table) : table.length ≠ 1 := by
  cases h with
  | plain => decide
  | member check _ =>
    have := List.length_pos_iff.mpr (ne_nil_of_check check)
    rw [List.length_append, List.length_singleton]
    omega

namespace Hustdb

theorem length_member (name : Bytes) (code : UInt8) (blockId : BlockId) :
    (KvArray.listingKey (name ++ [code]) blockId).length = name.length + 1 + blockIdBytes := by
  rw [Db.length_listingKey, List.length_append, List.length_singleton]

theorem scanType_member (name : Bytes) (code : UInt8) (blockId : BlockId) :
    scanType (KvArray.listingKey (name ++ [code]) blockId) = some code := by
  unfold scanType
  rw [length_member, if_pos (by omega), Nat.add_sub_cancel, Nat.add_sub_cancel, KvArray.listingKey,
    List.append_assoc, List.getElem?_append_right le_rfl, Nat.sub_self]
  rfl

theorem scanTable_member (name : Bytes) (code : UInt8) (blockId : BlockId) :
    scanTable (KvArray.listingKey (name ++ [code]) blockId) = name := by
  unfold scanTable
  rw [length_member, Nat.add_sub_cancel, Nat.add_sub_cancel, KvArray.listingKey, List.append_assoc, List.take_left]

variable {a : Address}

theorem inTable_of_hasTable {table : Bytes} {type : TableType} (h : s.HasTable table type)
    (actions : Nat → List Action) : ∃ i, s.inTable table type actions = actions i := by
  obtain ⟨i, hfind⟩ := h.findTableOffset
  refine ⟨i, ?_⟩
  unfold inTable
  rw [hfind]

section Record

variable {dir : Directory} {m : RecMap} {r : Rec} {name key : Bytes}

theorem Tended.hasTable (h : s.Tended md5 used) (hholds : s.storage.Holds True md5 used dir m)
    {type : TableType} (hcheck : tbNameCheck name) (htype : type.IsCollection)
    (ha : ⟨name ++ [type.inner.code], key⟩ ∈ used) (hm : m ⟨name ++ [type.inner.code], key⟩ = some r) :
    s.HasTable name type := by
  obtain ⟨dir', m', hbook⟩ := h.books name hcheck
  have hmember : key ∈ s.storage.members md5 used (name ++ [type.inner.code]) :=
    hholds.mem_members.mpr ⟨ha, r, hm⟩
  exact hbook.hasTable htype (hbook.mem_members.mp hmember)

theorem isSome_zremScore (hholds : s.storage.Holds True md5 used dir m) (hscored : Scored used m)
    (hcheck : tbNameCheck name) (ha : ⟨name ++ [TableType.zsetIn.code], key⟩ ∈ used)
    (hm : m ⟨name ++ [TableType.zsetIn.code], key⟩ = some r) (huser : Db.checkUserKey key = true) :
    (s.zremScore md5 name key).isSome := by
  have htable := innerTable_of_check hcheck .zsetIn []
  have hget := hholds.get_eq (q := s.query (innerTable name .zsetIn []) 0 0) ha htable huser
  rw [hm] at hget
  unfold zremScore
  simp only [tableTarget, hget, if_pos]
  exact hscored name key r ha hm

variable (cfg) in
theorem Tended.scanDelActions_member (h : s.Tended md5 used)
    (hholds : s.storage.Holds True md5 used dir m) (hscored : Scored used m) {type : TableType}
    (hcheck : tbNameCheck name) (htype : type.IsCollection)
    (ha : ⟨name ++ [type.inner.code], key⟩ ∈ used) (hm : m ⟨name ++ [type.inner.code], key⟩ = some r)
    (huser : Db.checkUserKey key = true) (hne : key ≠ []) (blockId : BlockId) :
    ∃ t offset sized rest, s.scanDelActions md5 cfg (KvArray.listingKey (name ++ [type.inner.code]) blockId) key =
        .del t offset 0 false sized :: rest ∧ t.address = ⟨name ++ [type.inner.code], key⟩ := by
  have hindex := h.hasTable hholds hcheck htype ha hm
  have hargs : ¬((!tbNameCheck name) = true ∨ (!checkVersion 0) = true ∨ key = []) := by
    simp [hcheck, show checkVersion 0 = true by decide, hne]
  unfold scanDelActions
  dsimp only
  rw [scanType_member, scanTable_member]
  rcases htype with rfl | rfl | rfl
  · obtain ⟨i, hin⟩ := inTable_of_hasTable hindex
      fun offset => [.del (tableTarget name .hashTb key) offset 0 false true]
    unfold hdelActions
    rw [if_neg (by decide), if_pos (by decide), if_neg hargs, hin]
    exact ⟨_, _, _, _, rfl, Address.ext (innerTable_of_check hcheck _ _) rfl⟩
  · obtain ⟨i, hin⟩ := inTable_of_hasTable hindex fun offset => [.del (setTarget name key) offset 0 false false]
    unfold sremActions
    rw [if_neg (by decide), if_neg (by decide), if_pos (by decide), if_neg hargs, hin]
    exact ⟨_, _, _, _, rfl, Address.ext (innerTable_of_check hcheck _ _) rfl⟩
  · obtain ⟨score, hscore⟩ :=
      Option.isSome_iff_exists.mp (isSome_zremScore hholds hscored hcheck ha hm huser)
    unfold zremActions
    rw [if_neg (by decide), if_neg (by decide), if_neg (by decide), if_pos (by decide), if_neg hargs]
    dsimp only
    rw [hscore]
    dsimp only
    obtain ⟨i, hin⟩ := inTable_of_hasTable hindex fun offset =>
      .del (tableTarget name .zsetIn key) offset 0 false false ::
        if (s.delTarget md5 cfg (tableTarget name .zsetIn key) offset 0 false false).1.r = .ok then
          [.store (s.unindex name key score)]
        else []
    rw [hin]
    exact ⟨_, _, _, _, rfl, Address.ext (innerTable_of_check hcheck _ _) rfl⟩

end Record

variable (cfg) in
theorem Tended.scanDelActions_eq (h : s.Tended md5 used) (ha : a ∈ used)
    (hkind : TimedTable a.table) (htimes : s.storage.Times md5 listing entry a) :
    ∃ t offset sized rest, s.scanDelActions md5 cfg listing (s.scanKey md5 listing) =
      .del t offset 0 false sized :: rest ∧ t.address = a := by
  obtain ⟨dir, m, hholds, hscored⟩ := h.stores
  obtain ⟨-, blockId, version, hlocate, rfl⟩ := htimes
  obtain ⟨e, hk, rfl⟩ := hholds.dir_of_locate hlocate
  obtain ⟨r, hm, -⟩ := hholds.map_some ha hk
  have hkey : s.scanKey md5 (KvArray.listingKey a.table (e.addr (a.digest md5)).blockId) = a.key := by
    unfold scanKey
    rw [hholds.exportRecord_eq ha hm hk a.table (Db.listingTable_listingKey hkind.length_ne _),
      if_pos (Db.inRange_all a.key)]
    rfl
  have huser := (hholds.fits a ha r hm).user
  have hne : a.key ≠ [] := by
    rintro hnil
    rw [hnil] at huser
    cases huser
  rw [hkey]
  obtain ⟨table, key⟩ := a
  simp only at hne hkind hm ha huser ⊢
  generalize (e.addr (Address.digest md5 ⟨table, key⟩)).blockId = blockId
  cases hkind with
  | plain =>
    have htype : scanType (KvArray.listingKey [] blockId) = some TableType.kvAll.code := by
      unfold scanType
      rw [Db.length_listingKey]
      rfl
    unfold scanDelActions delActions
    dsimp only
    rw [if_pos htype, if_neg (by simp [hne, show checkVersion 0 = true by decide])]
    exact ⟨_, _, _, _, rfl, rfl⟩
  | member hcheck htype => exact h.scanDelActions_member cfg hholds hscored hcheck htype ha hm huser hne blockId

section

variable (h : s.Tended md5 used) (hinj : Set.InjOn (Address.digest md5) used)
  (hwithin : Run.Guarded (Action.run md5 cfg) (Action.Within md5 cfg used) s (s.entryActions md5 cfg listing entry))
include h hinj hwithin

theorem Tended.scanEntry : (s.scanEntry md5 cfg listing entry).Tended md5 used ∧
      Db.OnlyLoses md5 used s.storage (s.scanEntry md5 cfg listing entry).storage := by
  rw [← exec_entryActions]
  exact h.exec hinj (deletes_entryActions listing entry) hwithin (aimed_entryActions listing entry)

theorem Tended.gone_scanEntry (hkey : TimedKey listing) (hexpired : entry.expired s.now = true) (ha : a ∈ used)
    (htimes : s.storage.Times md5 listing entry a) :
    (s.scanEntry md5 cfg listing entry).storage.Gone md5 a := by
  obtain ⟨dir, m, hholds, -⟩ := h.stores
  obtain ⟨hfile, blockId, version, -, hlisting⟩ := (hholds.times_iff hinj ha).mp htimes
  have hkind : TimedTable a.table := by
    obtain ⟨table, blockId', heq, hkind⟩ := hkey
    rw [hlisting] at heq
    rwa [(List.append_inj' heq (by simp)).1]
  have hlt : entry.fileId < s.storage.data.fileCount := by
    rw [hfile]
    exact Nat.mod_lt _ hholds.versions.run.files_pos
  obtain ⟨v, hv⟩ := Option.isSome_iff_exists.mp htimes.listed
  obtain ⟨t, offset, sized, rest, hactions, rfl⟩ := h.scanDelActions_eq cfg ha hkind htimes
  have hentry : s.entryActions md5 cfg listing entry =
      .del t offset 0 false sized :: (rest ++ [.eraseTtl listing]) := by
    unfold entryActions
    rw [if_neg (by simpa [TtlEntry.expired] using hexpired), if_neg (by omega), hv]
    dsimp only
    rw [hactions, List.cons_append]
  have hdeletes : ∀ a ∈ s.entryActions md5 cfg listing entry, a.Deletes := deletes_entryActions listing entry
  have haimed : Run.Guarded (Action.run md5 cfg) Action.Aimed s (s.entryActions md5 cfg listing entry) :=
    aimed_entryActions listing entry
  rw [← exec_entryActions, hentry, Run.exec_cons]
  rw [hentry] at hdeletes hwithin haimed
  have hcall := hwithin.1 _ rfl
  have hgone : (Action.run md5 cfg s (.del t offset 0 false sized)).storage.Gone md5 t.address := by
    rw [Action.run, storage_delTarget]
    exact (hholds.onlyLoses_del hinj hcall.1 hcall.2).2
  have htended := (h.run hinj (hdeletes _ (List.mem_cons_self ..)) hwithin.1 haimed.1).1
  have hrest := htended.exec hinj (fun a ha => hdeletes a (List.mem_cons_of_mem _ ha)) hwithin.2 haimed.2
  exact (hrest.2 t.address ha).1 hgone

end

theorem Tended.scanLoop {page : List (Bytes × TtlEntry)} (h : s.Tended md5 used)
    (hinj : Set.InjOn (Address.digest md5) used) (hkeys : ∀ e ∈ page, TimedKey e.1)
    (hwithin : Run.Guarded (Action.run md5 cfg) (Action.Within md5 cfg used) s (s.scanActions md5 cfg page)) :
    (s.scanLoop md5 cfg page).Tended md5 used ∧ Db.OnlyLoses md5 used s.storage (s.scanLoop md5 cfg page).storage ∧
      ∀ e ∈ page, e.2.expired s.now = true → ∀ a ∈ used, s.storage.Times md5 e.1 e.2 a →
        (s.scanLoop md5 cfg page).storage.Gone md5 a := by
  induction page generalizing s with
  | nil => exact ⟨h, .refl, fun _ he => absurd he List.not_mem_nil⟩
  | cons e page ih =>
    rw [scanActions, Run.guarded_append, exec_entryActions] at hwithin
    obtain ⟨hhead, htail⟩ := hwithin
    obtain ⟨htended, hloses⟩ := h.scanEntry hinj hhead
    have hnow := (s.scanEntry_ttlFile md5 cfg e.1 e.2).2
    obtain ⟨htended', hloses', hgone⟩ := ih htended (fun e' he' => hkeys e' (List.mem_cons_of_mem _ he')) htail
    refine ⟨htended', hloses.trans hloses', fun e' he' hexpired a ha htimes => ?_⟩
    obtain rfl | he' := List.mem_cons.mp he'
    · exact (hloses' a ha).1 (h.gone_scanEntry hinj hhead (hkeys _ (List.mem_cons_self ..)) hexpired ha htimes)
    · rcases (hloses a ha).2 e'.1 e'.2 htimes with htimes | hgone'
      · exact hgone e' he' (by rwa [hnow]) a ha htimes
      · exact (hloses' a ha).1 hgone'

def Pending (md5 : Bytes → InnerKey) (s : Hustdb) (e : Bytes × TtlEntry) (a : Address) : Prop :=
  (e ∈ s.storage.data.ttlFile.entries ∧ s.storage.Times md5 e.1 e.2 a) ∨ s.storage.Gone md5 a

theorem Tended.ttlScan {size : Nat} (h : s.Tended md5 used) (hinj : Set.InjOn (Address.digest md5) used)
    (hkeys : ∀ e ∈ s.storage.data.ttlFile.entries, TimedKey e.1)
    (hwithin : (Op.ttlScan size).Within md5 cfg used s) {e : Bytes × TtlEntry} (ha : a ∈ used)
    (hpending : s.Pending md5 e a) :
    (s.ttlScan md5 cfg size).Tended md5 used ∧ (s.ttlScan md5 cfg size).Pending md5 e a := by
  have hpage : ∀ e ∈ s.ttlPage size, e ∈ s.storage.data.ttlFile.entries := by
    rw [← page_sweep]
    exact fun e he => (List.mem_filter.mp (List.mem_of_mem_take he)).1
  obtain ⟨hscan, hseek⟩ := (Run.guarded_append _).mp hwithin
  obtain ⟨htended, hloses, hgone⟩ := h.scanLoop hinj (fun e he => hkeys e (hpage e he)) hscan
  rw [exec_scanActions] at hseek
  refine ⟨(htended.run (a := .seek (s.nextSeek size)) hinj trivial hseek.1 trivial).1, ?_⟩
  rcases hpending with ⟨he, htimes⟩ | hnone
  · by_cases hvisited : e ∈ s.ttlPage size ∧ e.2.expired s.now = true
    · exact .inr (hgone e hvisited.1 hvisited.2 a ha htimes)
    · refine ((hloses a ha).2 e.1 e.2 htimes).imp_left fun htimes => ⟨?_, htimes⟩
      have hstep : e ∈ (s.sweep.step [] size (TtlEntry.expired s.now)).index.entries := by
        rw [Sweep.mem_step_iff, page_sweep]
        exact ⟨he, hvisited⟩
      rwa [← s.sweep_ttlScan md5 cfg size] at hstep
  · exact .inr ((hloses a ha).1 hnone)

end Hustdb

open Hustdb

section Progress

variable {size t : Nat}

theorem Hustdb.mem_of_mem_scanOps {e : Bytes × TtlEntry} (times : List Nat)
    (h : e ∈ (Run.exec (Op.step md5 cfg) s (scanOps size times)).storage.data.ttlFile.entries) :
    e ∈ s.storage.data.ttlFile.entries := by
  have hsweep : (Run.exec (Op.step md5 cfg) s (scanOps size times)).storage.data.ttlFile =
      (Run.exec (Sweep.step [] size) s.sweep (times.map TtlEntry.expired)).index :=
    congrArg Sweep.index (s.sweep_scanOps md5 cfg size times)
  rw [hsweep] at h
  exact Sweep.mem_of_mem_exec h

theorem Hustdb.Tended.scanOps {times : List Nat} (h : s.Tended md5 used) (hinj : Set.InjOn (Address.digest md5) used)
    (hkeys : ∀ e ∈ s.storage.data.ttlFile.entries, TimedKey e.1)
    (hwithin : Run.Guarded (Op.step md5 cfg) (Op.Within md5 cfg used) s (scanOps size times))
    {e : Bytes × TtlEntry} {a : Address} (ha : a ∈ used) (hpending : s.Pending md5 e a) :
    (Run.exec (Op.step md5 cfg) s (scanOps size times)).Pending md5 e a := by
  induction times generalizing s with
  | nil => exact hpending
  | cons now times ih =>
    obtain ⟨htick, hscan, hrest⟩ := hwithin
    have htended := (h.run (a := .tick now) hinj trivial htick.1 trivial).1
    obtain ⟨htended', hpending'⟩ := htended.ttlScan hinj hkeys hscan ha hpending
    exact ih htended' (fun e he => hkeys e (mem_of_mem_scanOps [now] he)) hrest hpending'

def Hustdb.ScansOut (md5 : Bytes → InnerKey) (cfg : Settings) (used : Set Address) (size t : Nat)
    (s : Hustdb) : Prop :=
  ∃ n, ∀ times : List Nat, n ≤ times.length → (∀ now ∈ times, t ≤ now) →
    ∀ e ∈ s.storage.data.ttlFile.entries, e.2.ttl ≤ t →
      (Run.exec (Op.step md5 cfg) s (scanOps size times)).storage.data.ttlFile.get? e.1 = none ∧
        ∀ a ∈ used, s.storage.Times md5 e.1 e.2 a →
          ((Run.exec (Op.step md5 cfg) s (scanOps size times)).storage.exists_ md5 ⟨a.table, 0, 0, 0⟩ a.key).1 =
            .err .ENOENT

theorem expired_iff {now : Nat} {entry : TtlEntry} : entry.expired now = true ↔ entry.ttl ≤ now :=
  decide_eq_true_iff

theorem forall_expired_iff {times : List Nat} :
    (∀ now ∈ times, ∀ entry : TtlEntry, entry.expired t = true → entry.expired now = true) ↔
      ∀ now ∈ times, t ≤ now := by
  refine forall₂_congr fun now _ => ⟨fun h => ?_, fun hle entry h => ?_⟩
  · exact expired_iff.mp (h ⟨t, 0⟩ (expired_iff.mpr le_rfl))
  · exact expired_iff.mpr ((expired_iff.mp h).trans hle)

theorem nil_le (k : Bytes) : [] ≤ k := by
  cases k with
  | nil => exact le_rfl
  | cons b k => exact le_of_lt (List.nil_lt_cons b k)

theorem Hustdb.index_scans_iff (md5 : Bytes → InnerKey) (cfg : Settings) (s : Hustdb) (hsize : 1 ≤ size) :
    (∃ n, ∀ times : List Nat, n ≤ times.length → (∀ now ∈ times, t ≤ now) →
        ∀ e ∈ s.storage.data.ttlFile.entries, e.2.ttl ≤ t →
          (Run.exec (Op.step md5 cfg) s (scanOps size times)).storage.data.ttlFile.get? e.1 = none) ↔
      2 ≤ size ∨ s.sweep.Clear (TtlEntry.expired t) := by
  rw [← Sweep.takes_out_iff nil_le hsize]
  refine exists_congr fun n => forall₂_congr fun times _ => ?_
  rw [forall_expired_iff, ← s.sweep_scanOps md5 cfg size times]
  refine forall₂_congr fun _ e => forall_congr' fun he => ?_
  rw [expired_iff]
  refine forall_congr' fun _ => ⟨fun hnone hmem => ?_, fun hnot => ?_⟩
  · cases hnone.symm.trans (SortedMap.mem_entries.mp hmem)
  · refine Option.eq_none_iff_forall_not_mem.mpr fun v hv => ?_
    have hmem := SortedMap.mem_entries.mpr hv
    have heq : (e.1, v) = e := s.sweep.eq_of_key (mem_of_mem_scanOps times hmem) he rfl
    rw [heq] at hmem
    exact hnot hmem

end Progress

/-! ### A run with two keys -/

theorem Hustdb.tended_of_regular {config : Config} {maximum started : Nat} {ops : List Op} (hconfig : config.Valid)
    (hinj : Set.InjOn (Address.digest md5) used) (hplain : ∀ a ∈ used, a.table = [])
    (hguard : Run.Guarded (Op.step md5 cfg) (Op.Regular md5 cfg used) (create config maximum started) ops) :
    (Run.exec (Op.step md5 cfg) (create config maximum started) ops).Tended md5 used := by
  have hserved : served used = used := by
    ext a
    exact and_iff_left_of_imp fun ha => hplain a ha ▸ .plain
  obtain ⟨dir, m, hholds⟩ := stores_of_regular hconfig hinj hguard
  rw [hserved] at hholds
  refine ⟨⟨dir, m, hholds, fun name key r hused _ => ?_⟩, fun table hcheck => ?_⟩
  · exact absurd (hplain _ hused) (by simp)
  · exact books_of_guarded hconfig hinj hcheck (hguard.mono fun s op h => h.mono fun _ _ => And.left)
      False.elim fun hnot => absurd trivial hnot

namespace Hustdb

section Ready

variable (md5 cfg used)

/-- The record of an entry is in the file that the entry names, and its key has no table. -/
def Plain (s : Hustdb) (listing : Bytes) (entry : TtlEntry) : Prop :=
  entry.fileId < s.storage.data.fileCount ∧ ((s.storage.data.files entry.fileId).get? listing).isSome ∧
    scanType listing = some TableType.kvAll.code ∧ s.scanKey md5 listing ≠ [] ∧ ⟨[], s.scanKey md5 listing⟩ ∈ used

def removal (s : Hustdb) (listing : Bytes) : List Action :=
  [.del (plainTarget (s.scanKey md5 listing)) 0 0 false true, .eraseTtl listing]

/-- The records of the ttl index can be deleted in every order. -/
def Ready : Nat → Hustdb → Prop
  | 0, s => s.storage.data.ttlFile.entries = []
  | n + 1, s => s.storage.contents.Room ∧ ∀ e ∈ s.storage.data.ttlFile.entries,
      s.Plain md5 used e.1 e.2 ∧ Ready n (Run.exec (Action.run md5 cfg) s (s.removal md5 e.1))

variable {md5 cfg used} {s' : Hustdb} {n size : Nat}

instance [DecidablePred (· ∈ used)] : Decidable (s.Plain md5 used listing entry) :=
  inferInstanceAs (Decidable (_ ∧ _ ∧ _ ∧ _ ∧ _))

instance decidableReady [DecidablePred (· ∈ used)] : ∀ n s, Decidable (Ready md5 cfg used n s)
  | 0, s => inferInstanceAs (Decidable (s.storage.data.ttlFile.entries = []))
  | n + 1, s =>
    have := decidableReady n
    inferInstanceAs (Decidable (s.storage.contents.Room ∧ ∀ e ∈ s.storage.data.ttlFile.entries,
      s.Plain md5 used e.1 e.2 ∧ Ready md5 cfg used n (Run.exec (Action.run md5 cfg) s (s.removal md5 e.1))))

theorem storage_removal (heq : s.storage = s'.storage) :
    (Run.exec (Action.run md5 cfg) s (s.removal md5 listing)).storage =
      (Run.exec (Action.run md5 cfg) s' (s'.removal md5 listing)).storage := by
  simp only [removal, Run.exec_cons, Run.exec_nil, Action.run, eraseTtl, storage_delTarget, scanKey, heq]
  rfl

theorem ttlFile_removal (md5 : Bytes → InnerKey) (cfg : Settings) (s : Hustdb) (listing : Bytes) :
    (Run.exec (Action.run md5 cfg) s (s.removal md5 listing)).storage.data.ttlFile =
      s.storage.data.ttlFile.erase listing := by
  simp only [removal, Run.exec_cons, Run.exec_nil, Action.run, eraseTtl, storage_delTarget]
  exact congrArg (SortedMap.erase · listing) (Db.del_ttlFile ..)

theorem Ready.congr (h : Ready md5 cfg used n s) (heq : s.storage = s'.storage) : Ready md5 cfg used n s' := by
  induction n generalizing s s' with
  | zero => simpa only [Ready, heq] using h
  | succ n ih =>
    refine ⟨heq ▸ h.1, fun e he => ?_⟩
    obtain ⟨hplain, hnext⟩ := h.2 e (heq ▸ he)
    refine ⟨?_, ih hnext (storage_removal heq)⟩
    simpa only [Plain, scanKey, heq] using hplain

theorem Plain.actions (h : s.Plain md5 used listing entry) (hnow : ¬entry.ttl > s.now) :
    s.entryActions md5 cfg listing entry = s.removal md5 listing := by
  obtain ⟨hfile, hlisted, htype, hne, -⟩ := h
  obtain ⟨v, hv⟩ := Option.isSome_iff_exists.mp hlisted
  unfold entryActions
  rw [if_neg hnow, if_neg (Nat.not_le.mpr hfile), hv]
  simp only [scanDelActions, htype, if_true, delActions, hne, false_or]
  rfl

theorem Plain.within (h : s.Plain md5 used listing entry) (hroom : s.storage.contents.Room) :
    Run.Guarded (Action.run md5 cfg) (Action.Within md5 cfg used) s (s.removal md5 listing) := by
  have htable : ([] : Bytes).length + 5 ≤ leveldbKeyMax := by decide
  refine ⟨fun c hc => ?_, fun c hc => (by cases hc), trivial⟩
  cases hc
  exact ⟨h.2.2.2.2, ⟨hroom, htable⟩, trivial⟩

theorem Ready.scan (h : Ready md5 cfg used n s) {page : List (Bytes × TtlEntry)}
    (hpage : page.Sublist s.storage.data.ttlFile.entries) :
    Run.Guarded (Action.run md5 cfg) (Action.Within md5 cfg used) s (s.scanActions md5 cfg page) ∧
      ∃ m, Ready md5 cfg used m (s.scanLoop md5 cfg page) := by
  induction page generalizing n s with
  | nil => exact ⟨trivial, n, h⟩
  | cons e page ih =>
    have hmem := hpage.subset (List.mem_cons_self ..)
    rw [scanActions, scanLoop, Run.guarded_append, exec_entryActions]
    by_cases hnow : e.2.ttl > s.now
    · rw [entryActions, scanEntry, if_pos hnow, if_pos hnow]
      obtain ⟨hguard, hready⟩ := ih h ((List.sublist_cons_self e page).trans hpage)
      exact ⟨⟨trivial, hguard⟩, hready⟩
    cases n with
    | zero =>
      rw [show s.storage.data.ttlFile.entries = [] from h] at hmem
      cases hmem
    | succ n =>
      obtain ⟨hplain, hnext⟩ := h.2 e hmem
      have hfile := ttlFile_removal md5 cfg s e.1
      rw [← hplain.actions hnow, exec_entryActions] at hnext hfile
      have hrest : page.Sublist (s.scanEntry md5 cfg e.1 e.2).storage.data.ttlFile.entries := by
        have hlt := (List.pairwise_cons.mp (s.storage.data.ttlFile.sorted.sublist hpage)).1
        rw [hfile]
        change page.Sublist (s.storage.data.ttlFile.entries.filter _)
        refine List.Sublist.trans ?_ (((List.sublist_cons_self e page).trans hpage).filter _)
        rw [List.filter_eq_self.mpr]
        exact fun b hb => by simpa using (hlt b hb).ne'
      obtain ⟨hguard, hready⟩ := ih hnext hrest
      exact ⟨⟨hplain.actions hnow ▸ hplain.within h.1, hguard⟩, hready⟩

theorem Ready.within (h : Ready md5 cfg used n s) (times : List Nat) :
    Run.Guarded (Op.step md5 cfg) (Op.Within md5 cfg used) s (scanOps size times) := by
  induction times generalizing n s with
  | nil => trivial
  | cons now times ih =>
    have hnow : Ready md5 cfg used n { s with now } := h.congr rfl
    obtain ⟨hscan, m, hnext⟩ := hnow.scan ((List.take_sublist size _).trans (List.dropWhile_sublist _))
    refine ⟨⟨fun c hc => (by cases hc), trivial⟩, ?_, ih (hnext.congr rfl)⟩
    exact (Run.guarded_append _).mpr ⟨hscan, fun c hc => (by cases hc), trivial⟩

end Ready

end Hustdb

def lastingAndBrief : List Op := [.put (ascii "k") [1] 0 100 false 0, .put (ascii "b") [2] 0 10 false 0]

def lastingAndBriefUsed : List Address := [⟨[], ascii "k"⟩, ⟨[], ascii "b"⟩]

instance : DecidablePred (· ∈ {a | a ∈ lastingAndBriefUsed}) := fun a =>
  inferInstanceAs (Decidable (a ∈ lastingAndBriefUsed))

def briefKeyUsed : List Address := [⟨[], ascii "b"⟩]

end HustStore
