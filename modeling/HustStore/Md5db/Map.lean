import HustStore.Md5db.Versions

/-!
# The store as a map of records

The layer that the server's proofs rest on. A record is filed under an address, which is the table of the query
and the user key.
-/

namespace HustStore.Md5db

@[ext]
structure Address where
  table : Bytes
  key : Bytes
  deriving DecidableEq, Repr

def Address.digest (md5 : Bytes → InnerKey) (a : Address) : InnerKey := md5 (a.table ++ a.key)

theorem Address.injOn_digest {md5 : Bytes → InnerKey} {used : List Address}
    (h : ∀ a ∈ used, ∀ b ∈ used, a.digest md5 = b.digest md5 → a = b) : Set.InjOn (digest md5) {a | a ∈ used} :=
  fun a ha b hb => h a ha b hb

/-- A record as a read of its address reports it. -/
structure Rec where
  val : Bytes
  version : Nat
  kv : KvDataItem
  deriving DecidableEq, Repr

abbrev RecMap := Address → Option Rec

def Rec.bytes (r : Rec) (a : Address) : Bytes := Db.recordBytes r.val a.key r.kv

/-- What a record that was put has: a key that passes the check, fields as wide as stored, and a version. -/
structure Rec.Fits (r : Rec) (a : Address) : Prop where
  user : Db.checkUserKey a.key
  stored : Db.KvDataItem.stored r.kv = r.kv
  userKeyLen : r.kv.userKeyLen = a.key.length
  version_pos : r.version ≠ 0

def Query.record (q : Query) (key val : Bytes) (version : Nat) : Rec :=
  ⟨val, version, Db.KvDataItem.stored (Db.kvDataOf q key)⟩

namespace Db

theorem le32_mod (n : Nat) : le32 (n % 2 ^ 32) = le32 n := by
  have hread : readLe32 (le32 (n % 2 ^ 32) ++ []) = readLe32 (le32 n ++ []) := by
    rw [readLe32_le32_append, readLe32_le32_append, Nat.mod_mod]
  simp only [le32, List.cons_append, List.nil_append, readLe32] at hread
  obtain ⟨h0, h1, h2, h3⟩ := word32_inj hread
  rw [le32, le32, h0, h1, h2, h3]

theorem bytes_stored (d : KvDataItem) : (KvDataItem.stored d).bytes = d.bytes := by
  simp only [KvDataItem.bytes, KvDataItem.stored, le32_mod, Nat.mod_mod]

theorem stored_stored (d : KvDataItem) : KvDataItem.stored (KvDataItem.stored d) =
    KvDataItem.stored d := by
  simp only [KvDataItem.stored, Nat.mod_mod]

theorem record_bytes (q : Query) (val : Bytes) (version : Nat) (a : Address) :
    (q.record a.key val version).bytes a = recordBytes val a.key (kvDataOf q a.key) := by
  simp only [Query.record, Rec.bytes, recordBytes, bytes_stored]

theorem record_fits (q : Query) (val : Bytes) {version : Nat} {a : Address}
    (huser : checkUserKey a.key) (hpos : version ≠ 0) : (q.record a.key val version).Fits a := by
  refine ⟨huser, stored_stored _, ?_, hpos⟩
  have hle : a.key.length ≤ maxKeyLen := by
    have := huser
    simp only [checkUserKey, Bool.and_eq_true, decide_eq_true_eq] at this
    exact this.2
  have hmax : maxKeyLen = 16777215 := rfl
  simp only [Query.record, KvDataItem.stored, kvDataOf]
  omega

def fileOf (db : Db) (md5 : Bytes → InnerKey) (a : Address) : Nat :=
  (db.hashCtxt ⟨a.table, 0, 0, 0⟩ (a.digest md5)).innerFileId

theorem fileOf_congr {db db' : Db} (h : db'.data.fileCount = db.data.fileCount)
    (md5 : Bytes → InnerKey) (a : Address) : db'.fileOf md5 a = db.fileOf md5 a := by
  simp only [fileOf, hashCtxt, KvArray.hashWithMd5db, h]

def entryKey (md5 : Bytes → InnerKey) (a : Address) (e : Entry) : Bytes :=
  KvArray.listingKey a.table (e.addr (a.digest md5)).blockId

/-- The store holds the map `m`: its directory and versions are sound, a used address has the bytes and the
version of its record, and the listing has no other entries. If it is `complete`, every record is listed. -/
structure Holds (complete : Prop) (md5 : Bytes → InnerKey) (used : Set Address) (db : Db)
    (dir : Directory) (m : RecMap) : Prop where
  versions : db.VersionInv dir
  view_eq : ∀ a ∈ used, db.view dir (a.digest md5) = (m a).map fun r => (r.bytes a, r.version)
  fits : ∀ a ∈ used, ∀ r, m a = some r → r.Fits a
  owned : ∀ k e, dir k = some e → ∃ a ∈ used, a.digest md5 = k
  listed : ∀ f key v, (db.data.files f).get? key = some v → ∃ a ∈ used, ∃ e,
    dir (a.digest md5) = some e ∧ key = entryKey md5 a e ∧ f = db.fileOf md5 a
  listed_all : complete → ∀ a ∈ used, ∀ e, dir (a.digest md5) = some e →
    (db.data.files (db.fileOf md5 a)).get? (entryKey md5 a e) = some []

variable {complete : Prop} {md5 : Bytes → InnerKey} {used : Set Address} {db db' : Db}
  {dir dir' : Directory} {m m' : RecMap} {a : Address} {q : Query} {val : Bytes} {version : Nat}
  {isDup : Bool} {r : Rec} {e : Entry}

theorem digest_eq (hq : q.table = a.table) : innerKeyOf md5 q a.key = a.digest md5 := by
  rw [innerKeyOf, Address.digest, hq]

section

variable (h : db.Holds complete md5 used dir m) (ha : a ∈ used)
include h ha

theorem Holds.dir_none (hm : m a = none) : dir (a.digest md5) = none := by
  have hview := h.view_eq a ha
  rw [hm] at hview
  cases hk : dir (a.digest md5) with
  | none => rfl
  | some e =>
    obtain ⟨bytes, -, -, hsome⟩ := h.versions.run.inv.view_isSome hk
    rw [hsome] at hview
    cases hview

theorem Holds.dir_some (hm : m a = some r) : ∃ id, dir (a.digest md5) = some ⟨id, r.version⟩ := by
  have hview := h.view_eq a ha
  rw [hm] at hview
  cases hk : dir (a.digest md5) with
  | none =>
    rw [view_none hk] at hview
    cases hview
  | some e =>
    obtain ⟨bytes, -, -, hsome⟩ := h.versions.run.inv.view_isSome hk
    rw [hsome] at hview
    obtain ⟨id, version⟩ := e
    cases hview
    exact ⟨id, rfl⟩

theorem Holds.map_none (hk : dir (a.digest md5) = none) : m a = none := by
  cases hm : m a with
  | none => rfl
  | some r =>
    obtain ⟨id, hid⟩ := h.dir_some ha hm
    rw [hk] at hid
    cases hid

theorem Holds.map_some (hk : dir (a.digest md5) = some e) : ∃ r, m a = some r ∧ r.version = e.version := by
  cases hm : m a with
  | none => cases (h.dir_none ha hm).symm.trans hk
  | some r =>
    obtain ⟨id, hid⟩ := h.dir_some ha hm
    cases hid.symm.trans hk
    exact ⟨r, rfl, rfl⟩

end

/-! ### Reads -/

section

variable (h : db.Holds complete md5 used dir m) (ha : a ∈ used) (hq : q.table = a.table) (huser : checkUserKey a.key)
include h ha hq huser

theorem Holds.exists_eq : db.exists_ md5 q a.key = match m a with
      | none => (.err .ENOENT, 0)
      | some r => (.ok, r.version) := by
  rw [h.versions.run.inv.exists_eq md5 q huser, digest_eq hq, h.view_eq a ha]
  cases m a <;> rfl

theorem Holds.get_eq : db.get md5 q a.key = match m a with
      | none => ⟨.err .ENOENT, 0, [], .reset⟩
      | some r => ⟨.ok, r.version, r.val, r.kv⟩ := by
  rw [h.versions.run.inv.get_eq md5 q huser, digest_eq hq, h.view_eq a ha]
  cases hm : m a with
  | none => rfl
  | some r =>
    have hfits := h.fits a ha r hm
    simp only [Option.map_some, getOf, Rec.bytes,
      parseRecord_recordBytes hfits.user r.val r.kv hfits.userKeyLen, hfits.stored]

end

/-! ### Steps of the map -/

theorem Holds.dataId_lt (h : db.Holds complete md5 used dir m) {k : InnerKey}
    (hk : dir k = some e) : e.dataId < 2 ^ 32 := by
  have hfk := h.versions.run.inv.records.fullkey k.bucket
  have hle := (hfk.live_le e.dataId (.inl (mem_live hk))).2
  have hcount := hfk.count_le
  have hcapacity := hfk.capacity_lt
  have hper : fullkeyItemMaxPerFile < 2 ^ 32 := by decide
  omega

theorem Holds.update (h : db.Holds complete md5 used dir m)
    (hinj : Set.InjOn (Address.digest md5) used) (ha : a ∈ used) {o : Option Entry}
    {rec : Option Rec} (hversions : db'.VersionInv (Function.update dir (a.digest md5) o))
    (hview : db'.view (Function.update dir (a.digest md5) o) =
      Function.update (db.view dir) (a.digest md5) (rec.map fun r => (r.bytes a, r.version)))
    (hfits : ∀ r, rec = some r → r.Fits a)
    (hlisted : ∀ f key v, (db'.data.files f).get? key = some v → ∃ a' ∈ used, ∃ e,
      Function.update dir (a.digest md5) o (a'.digest md5) = some e ∧ key = entryKey md5 a' e ∧ f = db'.fileOf md5 a')
    (hall : complete → ∀ a' ∈ used, ∀ e, Function.update dir (a.digest md5) o (a'.digest md5) = some e →
        (db'.data.files (db'.fileOf md5 a')).get? (entryKey md5 a' e) = some []) :
    db'.Holds complete md5 used (Function.update dir (a.digest md5) o) (Function.update m a rec) where
  versions := hversions
  view_eq a' ha' := by
    rw [hview]
    by_cases heq : a' = a
    · subst heq
      rw [Function.update_self, Function.update_self]
    · have hne : a'.digest md5 ≠ a.digest md5 := fun hd => heq (hinj ha' ha hd)
      rw [Function.update_of_ne heq, Function.update_of_ne hne]
      exact h.view_eq a' ha'
  fits a' ha' r hr := by
    by_cases heq : a' = a
    · subst heq
      rw [Function.update_self] at hr
      exact hfits r hr
    · rw [Function.update_of_ne heq] at hr
      exact h.fits a' ha' r hr
  owned k e hk := by
    by_cases heq : k = a.digest md5
    · exact ⟨a, ha, heq.symm⟩
    · rw [Function.update_of_ne heq] at hk
      exact h.owned k e hk
  listed := hlisted
  listed_all := hall

theorem Holds.keep (h : db.Holds complete md5 used dir m) (hversions : db'.VersionInv dir)
    (hview : db'.view dir = db.view dir) (hfiles : db'.data.fileCount = db.data.fileCount)
    (hsub : ∀ f key v, (db'.data.files f).get? key = some v → (db.data.files f).get? key = some v)
    (hall : complete → db'.data.files = db.data.files) :
    db'.Holds complete md5 used dir m where
  versions := hversions
  view_eq a ha := hview ▸ h.view_eq a ha
  fits := h.fits
  owned := h.owned
  listed f key v hget := by
    obtain ⟨a, ha, e, hk, hkey, hf⟩ := h.listed f key v (hsub f key v hget)
    exact ⟨a, ha, e, hk, hkey, hf.trans (fileOf_congr hfiles md5 a).symm⟩
  listed_all hcomplete a ha e hk := by
    rw [hall hcomplete, fileOf_congr hfiles]
    exact h.listed_all hcomplete a ha e hk

theorem innerFileId_eq (db : Db) (hq : q.table = a.table) :
    (db.hashCtxt q (a.digest md5)).innerFileId = db.fileOf md5 a := by
  simp only [fileOf, hashCtxt, hq]

theorem listed_eq (hq : q.table = a.table) {id : Nat} (version : Nat)
    (hok : (db.listed q (a.digest md5) id (db.hashCtxt q (a.digest md5))).1 = .ok)
    (hdata : db'.data = (db.listed q (a.digest md5) id (db.hashCtxt q (a.digest md5))).2) :
    db'.data.fileCount = db.data.fileCount ∧
    db'.data.files = assign db.data.files (db.fileOf md5 a)
      ((db.data.files (db.fileOf md5 a)).insert (entryKey md5 a ⟨id, version⟩) []) := by
  rw [hdata, KvArray.putFromMd5db_ok hok, innerFileId_eq db hq, hq]
  exact ⟨rfl, rfl⟩

section

variable (h : db.Holds complete md5 used dir m) (hinj : Set.InjOn (Address.digest md5) used) (ha : a ∈ used)
include h hinj ha

theorem Holds.inserted {id : Nat} (hk : dir (a.digest md5) = none)
    (hversions : db'.VersionInv (Function.update dir (a.digest md5) (some ⟨id, version⟩)))
    (hview : db'.view (Function.update dir (a.digest md5) (some ⟨id, version⟩)) =
      Function.update (db.view dir) (a.digest md5) (some (r.bytes a, version)))
    (hfits : r.Fits a) (hr : r.version = version)
    (hcount : db'.data.fileCount = db.data.fileCount)
    (hfiles : db'.data.files = assign db.data.files (db.fileOf md5 a)
      ((db.data.files (db.fileOf md5 a)).insert (entryKey md5 a ⟨id, version⟩) [])) :
    db'.Holds complete md5 used (Function.update dir (a.digest md5) (some ⟨id, version⟩))
      (Function.update m a (some r)) := by
  have hother {a' : Address} {e' : Entry} (he' : dir (a'.digest md5) = some e') :
      a'.digest md5 ≠ a.digest md5 := by
    intro heq
    rw [heq, hk] at he'
    cases he'
  have hself : (Function.update dir (a.digest md5) (some (⟨id, version⟩ : Entry)))
      (a.digest md5) = some ⟨id, version⟩ := Function.update_self ..
  refine h.update hinj ha hversions (by rw [hview, Option.map_some, hr])
    (fun r' hr' => by cases hr'; exact hfits) (fun f key v hget => ?_) fun hcomplete a' ha' e' he' => ?_
  · -- An entry of the listing is the new one or an old one.
    have hold (hget : (db.data.files f).get? key = some v) : ∃ a' ∈ used, ∃ e',
        Function.update dir (a.digest md5) (some (⟨id, version⟩ : Entry)) (a'.digest md5) = some e' ∧
          key = entryKey md5 a' e' ∧ f = db'.fileOf md5 a' := by
      obtain ⟨a', ha', e', he', hkey, hf⟩ := h.listed f key v hget
      exact ⟨a', ha', e', by rw [Function.update_of_ne (hother he'), he'], hkey,
        hf.trans (fileOf_congr hcount md5 a').symm⟩
    rw [hfiles] at hget
    by_cases hf : f = db.fileOf md5 a
    · rw [hf, assign_self, SortedMap.get?_insert] at hget
      split_ifs at hget with hkey
      · exact ⟨a, ha, _, hself, hkey, hf.trans (fileOf_congr hcount md5 a).symm⟩
      · exact hold (hf ▸ hget)
    · rw [assign_of_ne hf] at hget
      exact hold hget
  · rw [hfiles, fileOf_congr hcount]
    by_cases heq : a' = a
    · subst heq
      cases hself.symm.trans he'
      rw [assign_self, SortedMap.get?_insert_self]
    · rw [Function.update_of_ne fun hd => heq (hinj ha' ha hd)] at he'
      have hlisted := h.listed_all hcomplete a' ha' e' he'
      by_cases hf : db.fileOf md5 a' = db.fileOf md5 a
      · rw [hf] at hlisted ⊢
        rw [assign_self, SortedMap.get?_insert, hlisted, ite_self]
      · rw [assign_of_ne hf, hlisted]

theorem Holds.updated (hk : dir (a.digest md5) = some e)
    (hversions : db'.VersionInv (Function.update dir (a.digest md5) (some ⟨e.dataId, version⟩)))
    (hview : db'.view (Function.update dir (a.digest md5) (some ⟨e.dataId, version⟩)) =
      Function.update (db.view dir) (a.digest md5) (some (r.bytes a, version)))
    (hfits : r.Fits a) (hr : r.version = version) (hdata : db'.data = db.data) :
    db'.Holds complete md5 used (Function.update dir (a.digest md5) (some ⟨e.dataId, version⟩))
      (Function.update m a (some r)) := by
  have hcount : db'.data.fileCount = db.data.fileCount := by rw [hdata]
  refine h.update hinj ha hversions (by rw [hview, Option.map_some, hr])
    (fun r' hr' => by cases hr'; exact hfits) (fun f key v hget => ?_) fun hcomplete a' ha' e' he' => ?_
  · rw [hdata] at hget
    obtain ⟨a', ha', e', he', hkey, hf⟩ := h.listed f key v hget
    refine ⟨a', ha', ?_⟩
    by_cases heq : a' = a
    · -- The entry is the same, because the record stays where it is.
      subst heq
      cases hk.symm.trans he'
      exact ⟨_, Function.update_self .., hkey, hf.trans (fileOf_congr hcount md5 a').symm⟩
    · exact ⟨e', by rw [Function.update_of_ne fun hd => heq (hinj ha' ha hd), he'], hkey,
        hf.trans (fileOf_congr hcount md5 a').symm⟩
  · rw [hdata, fileOf_congr hcount]
    by_cases heq : a' = a
    · subst heq
      rw [Function.update_self] at he'
      cases he'
      exact h.listed_all hcomplete a' ha' e hk
    · rw [Function.update_of_ne fun hd => heq (hinj ha' ha hd)] at he'
      exact h.listed_all hcomplete a' ha' e' he'

theorem Holds.removed (hk : dir (a.digest md5) = some e)
    (hversions : db'.VersionInv (Function.update dir (a.digest md5) none))
    (hview : db'.view (Function.update dir (a.digest md5) none) = Function.update (db.view dir) (a.digest md5) none)
    (hcount : db'.data.fileCount = db.data.fileCount)
    (hfiles : db'.data.files = assign db.data.files (db.fileOf md5 a)
      ((db.data.files (db.fileOf md5 a)).erase (entryKey md5 a e))) :
    db'.Holds complete md5 used (Function.update dir (a.digest md5) none) (Function.update m a none) := by
  refine h.update hinj ha hversions hview (fun r hr => by cases hr) (fun f key v hget => ?_)
    fun hcomplete a' ha' e' he' => ?_
  · -- What is still listed was listed before, and is not the entry of the address.
    rw [hfiles] at hget
    have hold : (db.data.files f).get? key = some v ∧ ¬ (f = db.fileOf md5 a ∧ key = entryKey md5 a e) := by
      by_cases hf : f = db.fileOf md5 a
      · rw [hf, assign_self, SortedMap.get?_erase] at hget
        split_ifs at hget with hkey
        exact ⟨hf ▸ hget, fun hboth => hkey hboth.2⟩
      · rw [assign_of_ne hf] at hget
        exact ⟨hget, fun hboth => hf hboth.1⟩
    obtain ⟨a', ha', e', he', hkey, hf⟩ := h.listed f key v hold.1
    have hne : a' ≠ a := by
      rintro rfl
      cases hk.symm.trans he'
      exact hold.2 ⟨hf, hkey⟩
    exact ⟨a', ha', e', by rw [Function.update_of_ne fun hd => hne (hinj ha' ha hd), he'], hkey,
      hf.trans (fileOf_congr hcount md5 a').symm⟩
  · by_cases heq : a'.digest md5 = a.digest md5
    · rw [heq, Function.update_self] at he'
      cases he'
    · rw [Function.update_of_ne heq] at he'
      have hlisted := h.listed_all hcomplete a' ha' e' he'
      rw [hfiles, fileOf_congr hcount]
      by_cases hf : db.fileOf md5 a' = db.fileOf md5 a
      · -- Two records have different block ids.
        have hkey : entryKey md5 a' e' ≠ entryKey md5 a e := by
          intro hsame
          obtain ⟨-, hblock⟩ := KvArray.listingKey_inj (h.dataId_lt he') (h.dataId_lt hk) hsame
          refine heq (h.versions.run.inv.inj _ _ e' e he' hk ?_)
          exact Prod.ext (congrArg BlockId.bucketId hblock) (congrArg BlockId.dataId hblock)
        rw [hf] at hlisted ⊢
        rw [assign_self, SortedMap.get?_erase_of_ne _ hkey, hlisted]
      · rw [assign_of_ne hf, hlisted]

end

/-- What a put replies, and the map after it. -/
inductive PutResult (m : RecMap) (a : Address) (q : Query) (val : Bytes) (version : Nat)
    (isDup : Bool) : Reply → RecMap → Prop
  | invalid (invalid : ¬ PutArgs a.key val version isDup) :
      PutResult m a q val version isDup ⟨.err .EINVAL, 0, none⟩ m
  | failed {e : Errno} {ctxt : ItemCtxt} (absent : m a = none) (flag : ctxt.isVersionError = false) :
      PutResult m a q val version isDup ⟨.err e, 0, some ctxt⟩ m
  | refused {r : Rec} {ctxt : ItemCtxt} (present : m a = some r)
      (refuse : ¬ Accepts version isDup r.version) (flag : ctxt.isVersionError = true) :
      PutResult m a q val version isDup ⟨if isDup then .ok else .err .EINVAL, r.version, some ctxt⟩ m
  | inserted {ctxt : ItemCtxt} (absent : m a = none) (report : Reported .newKv ctxt) :
      PutResult m a q val version isDup ⟨.ok, newVersion version isDup, some ctxt⟩
        (Function.update m a (some (q.record a.key val (newVersion version isDup))))
  | updated {r : Rec} {ctxt : ItemCtxt} (present : m a = some r)
      (accept : Accepts version isDup r.version) (report : Reported .errorKv ctxt) :
      PutResult m a q val version isDup ⟨.ok, nextVersion version isDup r.version, some ctxt⟩
        (Function.update m a (some (q.record a.key val (nextVersion version isDup r.version))))

theorem Holds.put (h : db.Holds complete md5 used dir m)
    (hinj : Set.InjOn (Address.digest md5) used) (ha : a ∈ used) (hq : q.table = a.table)
    (hsound : (Call.put q a.key val version isDup).Sound md5 db) :
    ∃ dir' m', (db.put md5 q a.key val version isDup).2.Holds complete md5 used dir' m' ∧
      PutResult m a q val version isDup (db.put md5 q a.key val version isDup).1 m' := by
  by_cases hargs : PutArgs a.key val version isDup
  swap
  · rw [put_of_invalid md5 db q hargs]
    exact ⟨dir, m, h, .invalid hargs⟩
  have hkey : innerKeyOf md5 q a.key = a.digest md5 := digest_eq hq
  obtain ⟨dir', hversions, hstep⟩ := h.versions.putStep hargs hsound.1 hsound.2
  rw [hkey] at hstep
  generalize db.put md5 q a.key val version isDup = out at hversions hstep
  obtain ⟨reply, db'⟩ := out
  cases hstep with
  | failed habsent hflag hview hdata =>
    have hfiles : db'.data.files = db.data.files := by rw [hdata]
    exact ⟨dir, m, h.keep hversions hview (by rw [hdata]) (fun f key v hget => hfiles ▸ hget)
      fun _ => hfiles, .failed (h.map_none ha habsent) hflag⟩
  | refused hpresent hrefuse hflag =>
    obtain ⟨r, hm, hr⟩ := h.map_some ha hpresent
    refine ⟨dir, m, h, ?_⟩
    rw [← hr] at hrefuse ⊢
    exact .refused hm hrefuse hflag
  | inserted habsent _ hreport hview hlisted hdata =>
    obtain ⟨hcount, hfiles⟩ := listed_eq hq (newVersion version isDup) hlisted hdata
    have hfits := record_fits q val hargs.user (newVersion_pos hargs.binlog)
    rw [← record_bytes q val (newVersion version isDup)] at hview
    exact ⟨_, _, h.inserted hinj ha habsent hversions hview hfits rfl hcount hfiles,
      .inserted (h.map_none ha habsent) hreport⟩
  | @updated e _ _ hpresent haccept hreport hview hdata =>
    obtain ⟨r, hm, hr⟩ := h.map_some ha hpresent
    have hfits := record_fits q val hargs.user (nextVersion_pos hargs.binlog e.version)
    rw [← record_bytes q val (nextVersion version isDup e.version)] at hview
    refine ⟨_, _, h.updated hinj ha hpresent hversions hview hfits rfl hdata, ?_⟩
    rw [← hr] at haccept ⊢
    exact .updated hm haccept hreport

/-- What a deletion replies, and the map after it. -/
inductive DelResult (m : RecMap) (a : Address) (version : Nat) (isDup : Bool) : Reply → RecMap → Prop
  | invalid (invalid : ¬ (checkUserKey a.key = true ∧ version ≤ bucketDataMaxVersion)) :
      DelResult m a version isDup ⟨.err .EINVAL, 0, none⟩ m
  | absent {ctxt : ItemCtxt} (absent : m a = none) (flag : ctxt.isVersionError = false) :
      DelResult m a version isDup ⟨.err .ENOENT, 0, some ctxt⟩ m
  | refused {r : Rec} {ctxt : ItemCtxt} (present : m a = some r)
      (refuse : ¬ Accepts version isDup r.version) (flag : ctxt.isVersionError = true) :
      DelResult m a version isDup ⟨if isDup then .ok else .err .EINVAL, r.version, some ctxt⟩ m
  | removed {r : Rec} {ctxt : ItemCtxt} (present : m a = some r)
      (accept : Accepts version isDup r.version)
      (report : ctxt.isVersionError = false ∧ ctxt.kvData.ttl = (r.bytes a).length) :
      DelResult m a version isDup ⟨.ok, r.version, some ctxt⟩ (Function.update m a none)

theorem unlisted_eq (h : db.Holds complete md5 used dir m) (hq : q.table = a.table)
    (htable : q.table.length + 5 ≤ leveldbKeyMax)
    (hdata : db'.data = (db.unlisted q (a.digest md5) e (db.hashCtxt q (a.digest md5))).2) :
    db'.data.fileCount = db.data.fileCount ∧
    db'.data.files = assign db.data.files (db.fileOf md5 a)
      ((db.data.files (db.fileOf md5 a)).erase (entryKey md5 a e)) := by
  have hok := (h.versions.run.listable htable (a.digest md5)).delFromMd5db (e.addr (a.digest md5)).blockId
  rw [hdata, KvArray.delFromMd5db_ok hok, innerFileId_eq db hq, hq]
  exact ⟨rfl, rfl⟩

/-- A replicated deletion is not one that the version test refuses. -/
def Spared (m : RecMap) (a : Address) (version : Nat) (isDup : Bool) : Prop :=
  isDup = true → ∀ r, m a = some r → Accepts version isDup r.version

theorem Holds.del (h : db.Holds complete md5 used dir m)
    (hinj : Set.InjOn (Address.digest md5) used) (ha : a ∈ used) (hq : q.table = a.table)
    (hplaced : (Call.del q a.key version isDup).Placed md5 db)
    (hspared : complete → Spared m a version isDup) :
    ∃ dir' m', (db.del md5 q a.key version isDup).2.Holds complete md5 used dir' m' ∧
      DelResult m a version isDup (db.del md5 q a.key version isDup).1 m' := by
  by_cases hargs : checkUserKey a.key = true ∧ version ≤ bucketDataMaxVersion
  swap
  · rw [del_of_invalid md5 db q hargs]
    exact ⟨dir, m, h, .invalid hargs⟩
  have hkey : innerKeyOf md5 q a.key = a.digest md5 := digest_eq hq
  obtain ⟨dir', hversions, hstep⟩ :=
    h.versions.delStep (q := q) hargs.1 hargs.2 isDup hplaced.1 hplaced.2
  rw [hkey] at hstep
  generalize db.del md5 q a.key version isDup = out at hversions hstep
  obtain ⟨reply, db'⟩ := out
  simp only at hversions hstep ⊢
  cases hstep with
  | absent habsent => exact ⟨dir, m, h, .absent (h.map_none ha habsent) rfl⟩
  | refused hpresent hrefuse hflag hview hunchanged hdata =>
    obtain ⟨r, hm, hr⟩ := h.map_some ha hpresent
    rw [← hr] at hrefuse ⊢
    have hcount : db'.data.fileCount = db.data.fileCount := by
      rcases hdata with hdata | hdata <;> rw [hdata]
      exact KvArray.delFromMd5db_fileCount
    refine ⟨dir, m, h.keep hversions hview hcount (fun f key v hget => ?_) fun hcomplete => ?_,
      .refused hm hrefuse hflag⟩
    · rcases hdata with hdata | hdata <;> rw [hdata] at hget
      · exact hget
      · exact KvArray.delFromMd5db_subset hget
    · cases isDup with
      | false => rw [hunchanged rfl]
      | true => exact absurd (hspared hcomplete rfl r hm) hrefuse
  | removed hpresent haccept hflag hlength hview hdata =>
    obtain ⟨r, hm, hr⟩ := h.map_some ha hpresent
    obtain ⟨bytes, hbytes, httl⟩ := hlength
    rw [h.view_eq a ha, hm] at hbytes
    obtain rfl : r.bytes a = bytes := congrArg Prod.fst (Option.some.inj hbytes)
    obtain ⟨hcount, hfiles⟩ := unlisted_eq h hq hplaced.2 hdata
    rw [← hr] at haccept ⊢
    exact ⟨_, _, h.removed hinj ha hpresent hversions hview hcount hfiles, .removed hm haccept ⟨hflag, httl⟩⟩

theorem holds_create {cfg : Config} (hcfg : cfg.Valid) (md5 : Bytes → InnerKey) (used : Set Address) :
    (Db.create cfg).Holds complete md5 used (fun _ => none) fun _ => none where
  versions := ⟨runInv_create hcfg, fun _ _ h => by cases h⟩
  view_eq _ _ := view_none rfl
  fits _ _ _ h := by cases h
  owned _ _ h := by cases h
  listed _ _ _ h := by cases h
  listed_all _ _ _ _ h := by cases h

end Db

end HustStore.Md5db
