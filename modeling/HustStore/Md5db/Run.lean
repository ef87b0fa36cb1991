import HustStore.Lib.Run
import HustStore.Md5db.View

/-!
# Runs of the store

A run is a list of calls of `put`, `del`, `get` and `exists`. It is guarded when there is room for each call: in
the content files, and in the six bits that count the keys of a conflict slot exactly.
-/

namespace HustStore.Md5db

inductive Call
  | put (q : Query) (userKey val : Bytes) (version : Nat) (isDup : Bool)
  | del (q : Query) (userKey : Bytes) (version : Nat) (isDup : Bool)
  | get (q : Query) (userKey : Bytes)
  | exists_ (q : Query) (userKey : Bytes)

namespace Call

variable (md5 : Bytes → InnerKey)

def query : Call → Query
  | .put q _ _ _ _ | .del q _ _ _ | .get q _ | .exists_ q _ => q

def userKey : Call → Bytes
  | .put _ key _ _ _ | .del _ key _ _ | .get _ key | .exists_ _ key => key

def step (db : Db) : Call → Db
  | .put q userKey val version isDup => (db.put md5 q userKey val version isDup).2
  | .del q userKey version isDup => (db.del md5 q userKey version isDup).2
  | .get _ _ => db
  | .exists_ _ _ => db

def Placed (db : Db) : Call → Prop
  | .put q userKey _ _ _ => db.HasPlace (Db.innerKeyOf md5 q userKey)
  | .del q _ _ _ => db.contents.Room ∧ q.table.length + 5 ≤ leveldbKeyMax
  | .get _ _ => True
  | .exists_ _ _ => True

end Call

instance (a : ContentArray) : Decidable a.Room :=
  decidable_of_iff (∀ f < a.size, (a.files f).dataFileSize ≤ dataFileMaxSize ∧
    ((a.files f).header ≠ freeBlockFileMaxSize ∨ (a.files f).freeBlockFileSize < freeBlockFileMaxSize))
    ⟨fun h f hf => ⟨(h f hf).1, (h f hf).2⟩, fun h f hf => ⟨(h f hf).data_le, (h f hf).slot⟩⟩

instance (db : Db) (k : InnerKey) : Decidable (db.HasPlace k) :=
  decidable_of_iff (db.contents.Room ∧ ((db.buckets (slotOf k)).type = .conflictData →
    db.locate k = .error .ENOENT → (db.buckets (slotOf k)).version < 63))
    ⟨fun h => ⟨h.1, h.2⟩, fun h => ⟨h.room, h.count⟩⟩

instance (md5 : Bytes → InnerKey) (db : Db) : (c : Call) → Decidable (c.Placed md5 db)
  | .put q userKey _ _ _ => inferInstanceAs (Decidable (db.HasPlace (Db.innerKeyOf md5 q userKey)))
  | .del q _ _ _ =>
    inferInstanceAs (Decidable (db.contents.Room ∧ q.table.length + 5 ≤ leveldbKeyMax))
  | .get _ _ => .isTrue trivial
  | .exists_ _ _ => .isTrue trivial

namespace Db

variable {db db' : Db} {dir dir' : Directory} {q : Query} {userKey val : Bytes} {version : Nat} {isDup : Bool}

structure RunInv (db : Db) (dir : Directory) : Prop where
  inv : db.Inv dir
  files_pos : 0 < db.data.fileCount

theorem runInv_create {cfg : Config} (h : cfg.Valid) : (Db.create cfg).RunInv fun _ => none :=
  ⟨inv_create h, h.dataFiles_pos⟩

theorem RunInv.listable (h : db.RunInv dir) (htable : q.table.length + 5 ≤ leveldbKeyMax)
    (k : InnerKey) : db.Listable q (db.hashCtxt q k) :=
  ⟨Nat.mod_lt _ h.files_pos, htable⟩

variable {out : Rc × Nat × ItemCtxt × Db} {ctxt : ItemCtxt}

variable {k : InnerKey}

theorem PutOutcome.fileCount (h : db.PutOutcome dir q k userKey val version isDup ctxt out dir') :
    out.2.2.2.data.fileCount = db.data.fileCount := by
  cases h with
  | failed _ _ _ hdata => exact congrArg KvArray.fileCount hdata
  | refused _ _ _ _ => rfl
  | inserted _ _ _ _ hdata => exact (congrArg KvArray.fileCount hdata).trans (KvArray.putFromMd5db_fileCount)
  | updated _ _ _ _ hdata => exact congrArg KvArray.fileCount hdata

theorem PutOutcome.inv (h : db.PutOutcome dir q k userKey val version isDup ctxt out dir') (hinv : db.Inv dir) :
    out.2.2.2.Inv dir' := by
  cases h with
  | failed _ _ hkept _ => exact hkept.inv
  | refused _ _ _ _ => exact hinv
  | inserted hins _ _ _ _ => exact hins.inv
  | updated _ hupdated _ _ _ => exact hupdated.inv

theorem DelOutcome.fileCount (h : db.DelOutcome dir q k version isDup ctxt out dir') :
    out.2.2.2.data.fileCount = db.data.fileCount := by
  cases h with
  | absent _ => rfl
  | refused _ _ _ _ _ hdata =>
    rcases hdata with hdata | hdata
    · exact congrArg KvArray.fileCount hdata
    · exact (congrArg KvArray.fileCount hdata).trans (KvArray.delFromMd5db_fileCount)
  | removed _ _ _ hdata => exact (congrArg KvArray.fileCount hdata).trans (KvArray.delFromMd5db_fileCount)

theorem DelOutcome.inv (h : db.DelOutcome dir q k version isDup ctxt out dir') (hinv : db.Inv dir) :
    out.2.2.2.Inv dir' := by
  cases h with
  | absent _ => exact hinv
  | refused _ _ _ hkept _ _ => exact hkept.inv
  | removed _ hremoved _ _ => exact hremoved.inv

theorem RunInv.congr (h : db.RunInv dir) (hinv : db'.Inv dir')
    (hfiles : db'.data.fileCount = db.data.fileCount) : db'.RunInv dir' :=
  ⟨hinv, hfiles.symm ▸ h.files_pos⟩

theorem RunInv.step (h : db.RunInv dir) {md5 : Bytes → InnerKey} {c : Call} (hplaced : c.Placed md5 db) :
    ∃ dir', (c.step md5 db).RunInv dir' ∧ (c.step md5 db).data.fileCount = db.data.fileCount ∧
      ∀ k, k ≠ innerKeyOf md5 c.query c.userKey →
      (c.step md5 db).view dir' k = db.view dir k ∨
      (c.step md5 db).view dir' k = (db.view dir k).map fun cell => (cell.1, packVersion cell.2) := by
  cases c with
  | put q userKey val version isDup =>
    by_cases hargs : PutArgs userKey val version isDup
    swap
    · simp only [Call.step, put_of_invalid md5 db q hargs]
      exact ⟨dir, h, trivial, fun _ _ => .inl rfl⟩
    obtain ⟨r, version', ctxt, db', dir', houtcome, hput⟩ := h.inv.put md5 hargs hplaced
    have hrun := h.congr (houtcome.inv h.inv) houtcome.fileCount
    simp only [Call.step, hput]
    refine ⟨dir', hrun, houtcome.fileCount, fun k hne => ?_⟩
    cases houtcome with
    | failed _ _ hkept _ => exact .inl (by rw [hkept.view_eq])
    | refused _ _ _ _ => exact .inl rfl
    | inserted hins _ _ _ _ => exact hins.view_other hne
    | updated _ hupdated _ _ _ => exact .inl (hupdated.view_other h.inv hne)
  | del q userKey version isDup =>
    by_cases hargs : checkUserKey userKey = true ∧ version ≤ bucketDataMaxVersion
    swap
    · simp only [Call.step, del_of_invalid md5 db q hargs]
      exact ⟨dir, h, trivial, fun _ _ => .inl rfl⟩
    obtain ⟨r, version', ctxt, db', dir', houtcome, hdel⟩ :=
      h.inv.del md5 hargs.1 hargs.2 isDup hplaced.1 (h.listable hplaced.2 _)
    have hrun := h.congr (houtcome.inv h.inv) houtcome.fileCount
    simp only [Call.step, hdel]
    refine ⟨dir', hrun, houtcome.fileCount, fun k hne => .inl ?_⟩
    cases houtcome with
    | absent _ => rfl
    | refused _ _ _ hkept _ _ => rw [hkept.view_eq]
    | removed _ hremoved _ _ => exact hremoved.view_other h.inv hne
  | get q userKey => exact ⟨dir, h, rfl, fun _ _ => .inl rfl⟩
  | exists_ q userKey => exact ⟨dir, h, rfl, fun _ _ => .inl rfl⟩

theorem RunInv.reads_other (h : db.RunInv dir) {md5 : Bytes → InnerKey} {c : Call}
    (hplaced : c.Placed md5 db) {q : Query} {userKey : Bytes} (huser : checkUserKey userKey)
    (hne : innerKeyOf md5 q userKey ≠ innerKeyOf md5 c.query c.userKey) :
    ((c.step md5 db).get md5 q userKey).r = (db.get md5 q userKey).r ∧
    ((c.step md5 db).get md5 q userKey).rsp = (db.get md5 q userKey).rsp ∧
    ((c.step md5 db).exists_ md5 q userKey).1 = (db.exists_ md5 q userKey).1 ∧
    (Representable (db.exists_ md5 q userKey).2 → (c.step md5 db).get md5 q userKey = db.get md5 q userKey ∧
      (c.step md5 db).exists_ md5 q userKey = db.exists_ md5 q userKey) := by
  obtain ⟨dir', hrun, -, hview⟩ := h.step hplaced
  rw [h.inv.get_eq md5 q huser, h.inv.exists_eq md5 q huser, hrun.inv.get_eq md5 q huser,
    hrun.inv.exists_eq md5 q huser]
  rcases hview _ hne with heq | heq
  · rw [heq]
    exact ⟨rfl, rfl, rfl, fun _ => ⟨rfl, rfl⟩⟩
  · -- The version of the other key was stored once more.
    rw [heq]
    cases db.view dir (innerKeyOf md5 q userKey) with
    | none => exact ⟨rfl, rfl, rfl, fun _ => ⟨rfl, rfl⟩⟩
    | some cell =>
      obtain ⟨bytes, version⟩ := cell
      rw [Option.map_some]
      refine ⟨?_, ?_, rfl, fun hrep => ?_⟩
      · simp only [getOf]
        cases parseRecord userKey bytes <;> rfl
      · simp only [getOf]
        cases parseRecord userKey bytes <;> rfl
      · have hpack : packVersion version = version := Representable.packVersion hrep
        rw [hpack]
        exact ⟨rfl, rfl⟩

end Db

end HustStore.Md5db
