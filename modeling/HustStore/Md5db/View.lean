import HustStore.Md5db.DelSpec

/-!
# What the keys hold

The view of a state gives for each digest the bytes of its record and the version of its item. All answers of
`get` and `exists` are functions of the view, and the outcomes of puts and deletions change it at their own key
only.
-/

namespace HustStore.Md5db

namespace Db

variable {db db' : Db} {dir dir' : Directory} {k k' : InnerKey} {e : Entry} {id version : Nat} {bytes : Bytes}

def view (db : Db) (dir : Directory) (k : InnerKey) : Option (Bytes × Nat) :=
  (dir k).bind fun e => (db.raw (e.addr k)).map fun bytes => (bytes, e.version)

theorem view_none (hk : dir k = none) : db.view dir k = none := by simp [view, hk]

theorem view_some (hk : dir k = some e) (hraw : db.raw (e.addr k) = some bytes) :
    db.view dir k = some (bytes, e.version) := by simp [view, hk, hraw]

theorem Inv.view_isSome (h : db.Inv dir) (hk : dir k = some e) :
    ∃ bytes, db.raw (e.addr k) = some bytes ∧ 0 < bytes.length ∧ db.view dir k = some (bytes, e.version) := by
  obtain ⟨bytes, hraw, hlen⟩ := h.records.raw_isSome (mem_live hk)
  exact ⟨bytes, hraw, hlen ▸ h.records.dataLen_pos _ (mem_live hk), view_some hk hraw⟩

theorem Inv.located (h : db.Inv dir) (k : InnerKey) :
    (db.view dir k = none ∧ db.locate k = .error .ENOENT) ∨ ∃ bytes version blockId,
      db.view dir k = some (bytes, version) ∧ db.locate k = .ok (blockId, version) ∧
      ∀ userKey, db.getDataFromContentDb k.bucket blockId userKey = parseRecord userKey bytes := by
  have hlocate := h.locate k
  cases hk : dir k with
  | none =>
    rw [hk] at hlocate
    exact .inl ⟨view_none hk, hlocate⟩
  | some e =>
    rw [hk] at hlocate
    obtain ⟨bytes, hraw, -, hview⟩ := h.view_isSome hk
    refine .inr ⟨bytes, e.version, _, hview, hlocate, fun userKey => ?_⟩
    have hcontent : (db.fullkeys k.bucket).getContentId (e.addr k).blockId = _ :=
      h.records.getContentId (mem_live hk)
    have hlen := h.records.dataLen_pos _ (mem_live hk)
    unfold raw at hraw
    simp only [getDataFromContentDb, hcontent, if_neg hlen.ne', hraw]

def existsOf : Option (Bytes × Nat) → Rc × Nat
  | none => (.err .ENOENT, 0)
  | some (_, version) => (.ok, version)

def getOf (userKey : Bytes) : Option (Bytes × Nat) → GetReply
  | none => ⟨.err .ENOENT, 0, [], .reset⟩
  | some (bytes, version) =>
    match parseRecord userKey bytes with
    | .error e => ⟨.err e, version, [], .reset⟩
    | .ok (val, kvData) => ⟨.ok, version, val, kvData⟩

section Reads

variable (md5 : Bytes → InnerKey) (q : Query) {userKey : Bytes}

theorem Inv.exists_eq (h : db.Inv dir) (huser : checkUserKey userKey) :
    db.exists_ md5 q userKey = existsOf (db.view dir (innerKeyOf md5 q userKey)) := by
  simp only [exists_, huser, Bool.not_true, Bool.false_eq_true, if_false]
  rcases h.located (innerKeyOf md5 q userKey) with ⟨hview, hlocate⟩ | ⟨bytes, version, blockId, hview, hlocate, -⟩
  · rw [hview, hlocate]
    rfl
  · rw [hview, hlocate]
    rfl

theorem Inv.get_eq (h : db.Inv dir) (huser : checkUserKey userKey) :
    db.get md5 q userKey = getOf userKey (db.view dir (innerKeyOf md5 q userKey)) := by
  simp only [get, huser, Bool.not_true, Bool.false_eq_true, if_false]
  rcases h.located (innerKeyOf md5 q userKey) with ⟨hview, hlocate⟩ | ⟨bytes, version, blockId, hview, hlocate, hdata⟩
  · rw [hview, hlocate]
    rfl
  · cases hparse : parseRecord userKey bytes <;> simp only [hview, hlocate, hdata, getOf, hparse]

end Reads

/-! ### The record format -/

def KvDataItem.stored (d : KvDataItem) : KvDataItem :=
  ⟨d.userKeyLen % 2 ^ 24, d.compressType % 2 ^ 2, d.ttl % 2 ^ 32, d.timestamp % 2 ^ 32⟩

theorem parse_bytes (d : KvDataItem) : KvDataItem.parse d.bytes = KvDataItem.stored d := by
  have hword : readLe32 d.bytes = (d.userKeyLen % 2 ^ 24 + d.compressType % 2 ^ 2 * 2 ^ 24) % 2 ^ 32 := by
    rw [KvDataItem.bytes, List.append_assoc, readLe32_le32_append]
  have httl : readLe32 (d.bytes.drop 4) = d.ttl % 2 ^ 32 := by
    rw [KvDataItem.bytes, List.append_assoc, List.drop_left' (length_le32 _), readLe32_le32_append]
  have htime : readLe32 (d.bytes.drop 8) = d.timestamp % 2 ^ 32 := by
    have := readLe32_le32_append d.timestamp []
    rw [List.append_nil] at this
    rw [KvDataItem.bytes, List.drop_left' (by simp), this]
  simp only [KvDataItem.parse, KvDataItem.stored, hword, httl, htime, KvDataItem.mk.injEq, and_true]
  constructor <;> omega

theorem parseRecord_recordBytes {userKey : Bytes} (huser : checkUserKey userKey) (val : Bytes)
    (d : KvDataItem) (hd : d.userKeyLen = userKey.length) :
    parseRecord userKey (recordBytes val userKey d) = .ok (val, KvDataItem.stored d) := by
  obtain ⟨hpos, hle⟩ : 0 < userKey.length ∧ userKey.length ≤ maxKeyLen := by
    simpa only [checkUserKey, Bool.and_eq_true, decide_eq_true_eq] using huser
  have hmax : maxKeyLen = 16777215 := rfl
  have hlen := length_recordBytes val userKey d
  have hsize : KvDataItem.size = 12 := rfl
  have hdrop : (recordBytes val userKey d).drop ((recordBytes val userKey d).length - KvDataItem.size) =
      d.bytes := by
    rw [hlen, Nat.add_sub_cancel, recordBytes]
    exact List.drop_left' (by simp)
  have huserLen : (KvDataItem.stored d).userKeyLen = userKey.length := by
    simp only [KvDataItem.stored, hd]
    exact Nat.mod_eq_of_lt (by omega)
  have hval : (recordBytes val userKey d).length - KvDataItem.size - userKey.length = val.length := by
    omega
  have htake : ((recordBytes val userKey d).drop val.length).take userKey.length = userKey := by
    rw [recordBytes, List.append_assoc, List.drop_left, List.take_left]
  unfold parseRecord
  rw [if_neg (by omega)]
  simp only [hdrop, parse_bytes, huserLen, hval, htake]
  rw [if_neg (by omega), if_neg (by simp), recordBytes, List.append_assoc, List.take_left]

/-! ### How the outcomes change the view -/

theorem Kept.view_eq (h : Kept db dir db') : db'.view dir = db.view dir := by
  funext k
  cases hk : dir k with
  | none => rw [view_none hk, view_none hk]
  | some e => simp only [view, hk, Option.bind_some, h.same.raw_eq _ (mem_live hk)]

theorem Inserted.view_self (h : Inserted db dir k id bytes version db' dir') :
    db'.view dir' k = some (bytes, packVersion version) := view_some h.entry h.raw_eq

theorem Inserted.view_other (h : Inserted db dir k id bytes version db' dir') (hne : k' ≠ k) :
    db'.view dir' k' = db.view dir k' ∨
      db'.view dir' k' = (db.view dir k').map fun cell => (cell.1, packVersion cell.2) := by
  cases hk : dir k' with
  | none =>
    have hk' : dir' k' = none := by
      rcases h.others k' hne with heq | heq <;> rw [heq, hk]
      rfl
    exact .inl (by rw [view_none hk', view_none hk])
  | some e =>
    have hraw := h.same.raw_eq _ (mem_live hk)
    rcases h.others k' hne with heq | heq
    · exact .inl (by simp only [view, heq, hk, Option.bind_some, hraw])
    · refine .inr ?_
      simp only [view, heq, hk, Option.map_some, Option.bind_some, Option.map_map]
      exact congrArg (Option.map _) hraw

theorem Updated.view_self (h : Updated db dir k e bytes version db') :
    db'.view (Function.update dir k (some ⟨e.dataId, version⟩)) k = some (bytes, version) :=
  view_some (Function.update_self ..) h.raw_eq

theorem Inv.raw_other (h : db.Inv dir) (hk : dir k = some e)
    (hsame : SameRecords (dir.live \ {e.addr k}) db db') (o : Option Entry) (hne : k' ≠ k) :
    db'.view (Function.update dir k o) k' = db.view dir k' := by
  cases hk' : dir k' with
  | none => rw [view_none (by rw [Function.update_of_ne hne, hk']), view_none hk']
  | some e' =>
    have hmem : e'.addr k' ∈ dir.live \ {e.addr k} :=
      ⟨mem_live hk', fun haddr => hne (h.inj k' k e' e hk' hk haddr)⟩
    simp only [view, Function.update_of_ne hne, hk', Option.bind_some, hsame.raw_eq _ hmem]

theorem Updated.view_other (h : Updated db dir k e bytes version db') (hinv : db.Inv dir) (hne : k' ≠ k) :
    db'.view (Function.update dir k (some ⟨e.dataId, version⟩)) k' = db.view dir k' :=
  hinv.raw_other h.present h.same _ hne

theorem Removed.view_self (db' : Db) : db'.view (Function.update dir k none) k = none :=
  view_none (Function.update_self ..)

theorem Removed.view_other (h : Removed db dir k e db') (hinv : db.Inv dir) (hne : k' ≠ k) :
    db'.view (Function.update dir k none) k' = db.view dir k' :=
  hinv.raw_other h.present h.same _ hne

/-! ### The calls -/

section Calls

variable (md5 : Bytes → InnerKey) {q : Query} {userKey val : Bytes} {userVersion : Nat} {fromBinlog : Bool}

structure PutArgs (userKey val : Bytes) (userVersion : Nat) (fromBinlog : Bool) : Prop where
  user : checkUserKey userKey
  length_le : userKey.length + val.length ≤ maxValLen
  version_le : userVersion ≤ bucketDataMaxVersion
  binlog : fromBinlog → userVersion ≠ 0

theorem put_of_invalid (db : Db) (q : Query) (h : ¬ PutArgs userKey val userVersion fromBinlog) :
    db.put md5 q userKey val userVersion fromBinlog = (⟨.err .EINVAL, 0, none⟩, db) := by
  have hinner : db.putInner md5 q userKey val userVersion fromBinlog = (⟨.err .EINVAL, 0, none⟩, db) := by
    unfold putInner
    split_ifs with h₁ h₂ h₃
    · rfl
    · rfl
    · rfl
    · refine absurd ⟨?_, ?_, ?_, ?_⟩ h
      · simpa using (not_or.mp h₃).1
      · exact not_lt.mp (not_or.mp h₃).2
      · exact not_lt.mp h₁
      · exact fun hb hz => h₂ ⟨hb, hz⟩
  simp [Db.put, hinner]

theorem put_of_args (db : Db) (q : Query) (h : PutArgs userKey val userVersion fromBinlog)
    {r : Rc} {version : Nat} {ctxt : ItemCtxt}
    (hslot : db.putSlot q (innerKeyOf md5 q userKey) userKey val userVersion fromBinlog
      (db.hashCtxt q (innerKeyOf md5 q userKey)) = (r, version, ctxt, db')) :
    db.put md5 q userKey val userVersion fromBinlog =
      (⟨if ctxt.isVersionError ∧ fromBinlog then .ok else r, version, some ctxt⟩, db') := by
  have hinner : db.putInner md5 q userKey val userVersion fromBinlog = (⟨r, version, some ctxt⟩, db') := by
    have h₁ := h.version_le
    have h₂ := h.length_le
    unfold putInner
    rw [if_neg (by omega), if_neg (fun hb => h.binlog hb.1 hb.2), if_neg]
    · simp only [hslot]
    · simp only [h.user, Bool.not_true, Bool.false_eq_true, false_or]
      omega
  simp only [Db.put, hinner, Option.any_some]
  split_ifs <;> rfl

theorem del_of_args (db : Db) (q : Query) (huser : checkUserKey userKey)
    (hver : userVersion ≤ bucketDataMaxVersion) {r : Rc} {version : Nat} {ctxt : ItemCtxt}
    (hslot : db.delSlot q (innerKeyOf md5 q userKey) userVersion fromBinlog
      (db.hashCtxt q (innerKeyOf md5 q userKey)) = (r, version, ctxt, db')) :
    db.del md5 q userKey userVersion fromBinlog = (⟨r, version, some ctxt⟩, db') := by
  unfold Db.del
  rw [if_neg (by omega), if_neg (by simp [huser])]
  simp only [hslot]

theorem Inv.put (h : db.Inv dir) (hargs : PutArgs userKey val userVersion fromBinlog)
    (hplace : db.HasPlace (innerKeyOf md5 q userKey)) :
    ∃ r version ctxt db' dir', db.PutOutcome dir q (innerKeyOf md5 q userKey) userKey val userVersion
        fromBinlog (db.hashCtxt q (innerKeyOf md5 q userKey)) (r, version, ctxt, db') dir' ∧
      db.put md5 q userKey val userVersion fromBinlog =
        (⟨if ctxt.isVersionError ∧ fromBinlog then .ok else r, version, some ctxt⟩, db') := by
  obtain ⟨dir', houtcome⟩ := h.putSlot (q := q) hplace hargs.length_le hargs.version_le hargs.binlog
    (rfl : (db.hashCtxt q (innerKeyOf md5 q userKey)).isVersionError = false)
  generalize hout : db.putSlot q (innerKeyOf md5 q userKey) userKey val userVersion fromBinlog
    (db.hashCtxt q (innerKeyOf md5 q userKey)) = out at houtcome
  obtain ⟨r, version, ctxt, db'⟩ := out
  exact ⟨r, version, ctxt, db', dir', houtcome, put_of_args md5 db q hargs hout⟩

theorem Inv.del (h : db.Inv dir) (huser : checkUserKey userKey)
    (hver : userVersion ≤ bucketDataMaxVersion) (fromBinlog : Bool) (hroom : db.contents.Room)
    (hlist : db.Listable q (db.hashCtxt q (innerKeyOf md5 q userKey))) :
    ∃ r version ctxt db' dir', db.DelOutcome dir q (innerKeyOf md5 q userKey) userVersion fromBinlog
        (db.hashCtxt q (innerKeyOf md5 q userKey)) (r, version, ctxt, db') dir' ∧
      db.del md5 q userKey userVersion fromBinlog = (⟨r, version, some ctxt⟩, db') := by
  obtain ⟨dir', houtcome⟩ : ∃ dir', db.DelOutcome dir q (innerKeyOf md5 q userKey) userVersion
      fromBinlog _ _ dir' := h.delSlot hroom hlist
  generalize hout : db.delSlot q (innerKeyOf md5 q userKey) userVersion fromBinlog
    (db.hashCtxt q (innerKeyOf md5 q userKey)) = out at houtcome
  obtain ⟨r, version, ctxt, db'⟩ := out
  exact ⟨r, version, ctxt, db', dir', houtcome, del_of_args md5 db q huser hver hout⟩

theorem del_of_invalid (db : Db) (q : Query)
    (h : ¬ (checkUserKey userKey = true ∧ userVersion ≤ bucketDataMaxVersion)) :
    db.del md5 q userKey userVersion fromBinlog = (⟨.err .EINVAL, 0, none⟩, db) := by
  unfold Db.del
  split_ifs with h₁ h₂
  · rfl
  · rfl
  · exact absurd ⟨by simpa using h₂, not_lt.mp h₁⟩ h

end Calls

end Db

/-! ### A new store -/

structure Config.Valid (cfg : Config) : Prop where
  conflictCount_ge : 2 ≤ cfg.conflictCount
  conflictCount_le : cfg.conflictCount ≤ 10
  contentFiles_pos : 0 < cfg.contentFiles
  contentFiles_le : cfg.contentFiles ≤ 256
  dataFiles_pos : 0 < cfg.dataFiles

theorem Config.valid_small : Valid ⟨4, 2, 1, 1⟩ := ⟨by decide, by decide, by decide, by decide, by decide⟩

theorem Db.inv_create {cfg : Config} (h : cfg.Valid) : (Db.create cfg).Inv fun _ => none := by
  have hlive : Directory.live (fun _ => none) = ∅ := by
    ext a
    simp [Directory.live]
  refine ⟨⟨fun c => ?_, fun _ => rfl, ?_, ?_, ?_, ?_⟩, by simp, by simp,
    ⟨fun c => ⟨FastConflict.inv_create h.conflictCount_ge h.conflictCount_le c, rfl⟩,
      fun s k _ => ⟨rfl, rfl⟩, fun s s' hs => ?_⟩⟩
  · simpa [hlive, Db.create] using Fullkey.inv_create c
  · simp [hlive]
  · simp [hlive]
  · simp [hlive]
  · simpa [hlive, Db.create] using ContentArray.inv_create h.contentFiles_pos h.contentFiles_le
  · cases hs

end HustStore.Md5db
