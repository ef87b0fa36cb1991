import HustStore.Binlog.Scan
import HustStore.Lib.Replay
import HustStore.Md5db.Listing

/-!
# The entries of the binlog

What the entries look like that `hustdb_binlog` writes, and which tasks the scan makes of them over a store that
holds a map of records: a deletion for the key that is noted, and a put of the record that is listed under the
noted block id, with its present value and version.
-/

namespace HustStore.Binlog

open Md5db Md5db.Db

variable {complete : Prop} {md5 : Bytes → InnerKey} {inetAddr : Bytes → Nat} {used : Set Address}
  {db : Db} {dir : Directory} {recs : RecMap} {m : Method} {a : Address} {host name : Bytes}

/-! ### Names -/

@[simp] theorem Method.ofCode_code (m : Method) : ofCode m.code = some m := by cases m <;> decide

def Named (m : Method) (name : Bytes) : Prop := m.isPlain = true ∨ tbNameCheck name = true

instance : Decidable (Named m name) := inferInstanceAs (Decidable (_ ∨ _))

theorem length_hostBytes {text : Bytes} (h : hostBytes inetAddr text = some host) : host.length = hostLen := by
  unfold hostBytes at h
  simp only at h
  split_ifs at h
  cases h
  simp [hostLen]

theorem ne_nil_of_tbNameCheck (h : tbNameCheck name = true) : name ≠ [] := by
  rintro rfl
  cases h

theorem table_of_plain (h : m.isPlain = true) : m.table name = [] := by rw [Method.table, if_pos h]

theorem table_of_named (h : m.isPlain = false) (hname : tbNameCheck name = true) :
    m.table name = name ++ [m.type.code] := by
  rw [Method.table, if_neg (by simp [h]), innerTable, if_neg (ne_nil_of_tbNameCheck hname)]

theorem isTableType_code (h : m.isPlain = false) : isTableType m.type.code = true := by
  revert h
  cases m <;> decide

theorem entryTable_eq (hname : Named m name) (suffix : Bytes)
    (hlen : suffix.length = if m.isRem then innerKeyBytes else blockIdBytes) :
    ∃ name', entryTable m (m.table name ++ suffix) = some name' ∧ m.table name' = m.table name := by
  cases hplain : m.isPlain with
  | true =>
    refine ⟨[], ?_, by rw [table_of_plain hplain, table_of_plain hplain]⟩
    rw [entryTable, if_pos hplain]
  | false =>
    have hcheck : tbNameCheck name = true := hname.resolve_left (by simp [hplain])
    have hne : name.length ≠ 0 := by simpa using ne_nil_of_tbNameCheck hcheck
    refine ⟨name, ?_, rfl⟩
    have hl : tableLen m (m.table name ++ suffix) = name.length := by
      rw [tableLen, ← hlen, List.length_append, Nat.add_sub_cancel, table_of_named hplain hcheck,
        List.length_append, List.length_singleton, Nat.add_sub_cancel]
    have htype : isTableType m.type.code = true := isTableType_code hplain
    have hget : (m.table name ++ suffix)[name.length]? = some m.type.code := by
      rw [table_of_named hplain hcheck, List.append_assoc, List.getElem?_append_right le_rfl]
      simp
    have htake : (m.table name ++ suffix).take name.length = name := by
      rw [table_of_named hplain hcheck, List.append_assoc, List.take_left]
    rw [entryTable, if_neg (by simp [hplain])]
    simp only [hl, hget, htake, Option.any_some, htype]
    rw [if_neg (by simp [hne])]

/-! ### Tasks -/

def Update.address (u : Update) : Address := ⟨u.method.table u.table, u.key⟩

def Task.address (t : Task) : Address := ⟨t.method.table t.table, t.key⟩

def Task.request (t : Task) : Replay.Request Address (Bytes × Nat) :=
  if t.method.isRem then .clear t.address else .set t.address (t.value, t.ver)

inductive Noted (md5 : Bytes → InnerKey) (used : Set Address) (host : Bytes) : Bytes → Bytes → Prop
  | rem {m : Method} {name key : Bytes} {timestamp : Nat} (rem : m.isRem = true)
      (named : Named m name) (mem : ⟨m.table name, key⟩ ∈ used) (user : checkUserKey key) :
      Noted md5 used host (delKey host (m.table name) (md5 (m.table name ++ key))) (stamp m timestamp ++ key)
  | put {m : Method} {name : Bytes} {blockId : BlockId} {timestamp fileId : Nat}
      (put : m.isRem = false) (named : Named m name) (mem : ∃ a ∈ used, a.table = m.table name)
      (id_lt : blockId.dataId < 2 ^ 32) (file_lt : fileId < 2 ^ 32) :
      Noted md5 used host (putKey host (m.table name) blockId) (stamp m timestamp ++ le32 fileId)

theorem headD_stamp (timestamp : Nat) (rest : Bytes) : (stamp m timestamp ++ rest).headD 0 = m.code := rfl

theorem drop_stamp (timestamp : Nat) (rest : Bytes) : (stamp m timestamp ++ rest).drop stampLen = rest := rfl

theorem length_bytes_innerKey (k : InnerKey) : k.bytes.length = 16 := by simp [InnerKey.bytes]

theorem taskOf_rem (md5 : Bytes → InnerKey) (hhost : host.length = hostLen) (hrem : m.isRem = true)
    (hname : Named m name) (db : Db) (k : InnerKey) (timestamp : Nat) (key : Bytes) :
    ∃ t, taskOf md5 db (delKey host (m.table name) k) (stamp m timestamp ++ key) = some t ∧
      t.method.isRem = true ∧ t.ver = 0 ∧ t.address = ⟨m.table name, key⟩ := by
  obtain ⟨name', htable, hsame⟩ := entryTable_eq hname k.bytes
    (by rw [if_pos hrem, length_bytes_innerKey, innerKeyBytes])
  refine ⟨⟨host, m, name', key, [], 0, delKey host (m.table name) k⟩, ?_, hrem, rfl, ?_⟩
  · rw [taskOf, headD_stamp, Method.ofCode_code]
    simp only [delKey]
    rw [List.drop_left' hhost, htable, List.take_left' hhost]
    simp only [hrem, if_true, drop_stamp]
  · rw [Task.address, hsame]

theorem length_table (h : m.isPlain = false) (hname : tbNameCheck name = true) :
    1 < (m.table name).length := by
  have hne : name.length ≠ 0 := by simpa using ne_nil_of_tbNameCheck hname
  rw [table_of_named h hname, List.length_append, List.length_singleton]
  omega

theorem exportKey_eq (hname : Named m name) (blockId : BlockId) :
    exportKey m (KvArray.listingKey (m.table name) blockId) = KvArray.listingKey (m.table name) blockId ∧
    listingTable (KvArray.listingKey (m.table name) blockId) = m.table name := by
  have hlen : (KvArray.listingKey (m.table name) blockId).length = (m.table name).length + blockIdBytes := by
    rw [KvArray.listingKey, List.length_append, BlockId.length_bytes, blockIdBytes]
  cases hplain : m.isPlain with
  | true =>
    rw [table_of_plain hplain, List.length_nil, Nat.zero_add] at hlen
    rw [exportKey, if_pos hplain, listingTable, table_of_plain hplain, hlen, Nat.sub_self,
      List.drop_zero, if_neg (by simp)]
    exact ⟨rfl, rfl⟩
  | false =>
    have hlong := length_table hplain (hname.resolve_left (by simp [hplain]))
    rw [exportKey, if_neg (by simp [hplain]), listingTable, hlen, if_pos (by omega),
      Nat.add_sub_cancel, KvArray.listingKey, List.take_left]
    exact ⟨rfl, rfl⟩

theorem readLe32_le32 {n : Nat} (h : n < 2 ^ 32) : readLe32 (le32 n) = n := by
  have hread := readLe32_le32_append n []
  rwa [List.append_nil, Nat.mod_eq_of_lt h] at hread

theorem drop_putKey (hhost : host.length = hostLen) (table : Bytes) (blockId : BlockId) :
    (putKey host table blockId).drop hostLen = KvArray.listingKey table blockId :=
  List.drop_left' hhost

theorem taskOf_put (md5 : Bytes → InnerKey) (hhost : host.length = hostLen) (hput : m.isRem = false)
    (hname : Named m name) (db : Db) (blockId : BlockId) (timestamp fileId : Nat) :
    ∃ name', m.table name' = m.table name ∧
      taskOf md5 db (putKey host (m.table name) blockId) (stamp m timestamp ++ le32 fileId) =
        putTask md5 db m name' (putKey host (m.table name) blockId) (stamp m timestamp ++ le32 fileId) := by
  obtain ⟨name', htable, hsame⟩ := entryTable_eq hname blockId.bytes
    (by rw [if_neg (by simp [hput]), BlockId.length_bytes, blockIdBytes])
  refine ⟨name', hsame, ?_⟩
  rw [taskOf, headD_stamp, Method.ofCode_code]
  simp only [drop_putKey hhost]
  rw [KvArray.listingKey, htable]
  simp only [hput, Bool.false_eq_true, if_false]

theorem taskOf_put_isSome (md5 : Bytes → InnerKey) (hhost : host.length = hostLen)
    (hput : m.isRem = false) (hname : Named m name) {blockId : BlockId} (timestamp : Nat)
    {fileId : Nat} {content : Bytes}
    (hfile : fileId < 2 ^ 32) (hcount : fileId < db.data.fileCount)
    (hlisted : (db.data.files fileId).get? (KvArray.listingKey (m.table name) blockId) = some content) :
    ∃ t, taskOf md5 db (putKey host (m.table name) blockId) (stamp m timestamp ++ le32 fileId) =
      some t := by
  obtain ⟨name', -, heq⟩ := taskOf_put md5 hhost hput hname db blockId timestamp fileId
  rw [heq, putTask]
  simp only [drop_stamp, readLe32_le32 hfile, drop_putKey hhost, hlisted]
  rw [if_neg (by omega)]
  split <;> exact ⟨_, rfl⟩

theorem taskOf_put_spec (h : db.Holds complete md5 used dir recs)
    (hhost : host.length = hostLen) (hput : m.isRem = false) (hname : Named m name)
    {blockId : BlockId} (hid : blockId.dataId < 2 ^ 32) {timestamp fileId : Nat} {t : Task}
    (ht : taskOf md5 db (putKey host (m.table name) blockId) (stamp m timestamp ++ le32 fileId) = some t) :
    t.method.isRem = false ∧ t.address ∈ used ∧ ∃ r e, recs t.address = some r ∧ t.value = r.val ∧ t.ver = r.version ∧
        dir (t.address.digest md5) = some e ∧ t.address.table = m.table name ∧
        (e.addr (t.address.digest md5)).blockId = blockId := by
  obtain ⟨name', hsame, heq⟩ := taskOf_put md5 hhost hput hname db blockId timestamp fileId
  rw [heq, putTask] at ht
  simp only [drop_putKey hhost, (exportKey_eq hname blockId).1] at ht
  split_ifs at ht
  cases hget : (db.data.files (readLe32 ((stamp m timestamp ++ le32 fileId).drop stampLen))).get?
      (KvArray.listingKey (m.table name) blockId) with
  | none =>
    rw [hget] at ht
    cases ht
  | some content =>
    obtain ⟨a, ha, e, hk, hkey, -⟩ := h.listed _ _ _ hget
    obtain ⟨htable, hblock⟩ := KvArray.listingKey_inj hid (h.dataId_lt hk) hkey
    obtain ⟨r, hm, -⟩ := h.map_some ha hk
    have hexport := h.exportRecord_all ha hm hk (m.table name)
      (by rw [← hblock, (exportKey_eq hname blockId).2, htable])
    rw [← hblock] at hexport
    rw [hget] at ht
    simp only [hexport, Option.some.injEq] at ht
    subst ht
    have haddress : (⟨m.table name', a.key⟩ : Address) = a := by rw [hsame, htable]
    simp only [Task.address, haddress]
    exact ⟨hput, ha, r, e, hm, rfl, rfl, hk, htable.symm, hblock.symm⟩

end HustStore.Binlog
