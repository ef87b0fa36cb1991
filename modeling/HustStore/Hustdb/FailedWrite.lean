import HustStore.Hustdb.Contents
import HustStore.Hustdb.Refusal
import HustStore.Hustdb.TableIndex

/-!
# Writes into a table that fail

`hset`, `sadd`, `zadd` and `hincrby` look their table up before they go to the store, and create it if it is not
there. When the store then refuses the record, nothing takes the table back.
-/

namespace HustStore

open Md5db

variable {md5 : Bytes → InnerKey} {cfg : Settings} {s : Hustdb}

namespace Tables

variable {ts : Tables} {name : Bytes} {type : TableType} {i : Nat}

def Keeps (ts : Tables) (name : Bytes) : Prop :=
  (ts.find name).isSome ∨ ∀ t ∈ ts.drop 2, t.flag = true

instance decidableKeeps (ts : Tables) (name : Bytes) : Decidable (ts.Keeps name) :=
  inferInstanceAs (Decidable (_ ∨ ∀ t ∈ ts.drop 2, t.flag = true))

theorem findTableOffset_of_keeps (h : ts.Keeps name) :
    ts.findTableOffset name true type = ts.findTableOffset name false type := by
  unfold findTableOffset
  cases hfind : ts.find name with
  | some i => rfl
  | none =>
    have hfull : (ts.drop 2).findIdx? (fun t => !t.flag) = none := by
      rw [List.findIdx?_eq_none_iff]
      intro t ht
      rw [(h.resolve_left (by simp [hfind])) t ht]
      rfl
    simp [hfull]

theorem findTableOffset_false : (ts.findTableOffset name false type).2 = ts := by
  unfold findTableOffset
  cases ts.find name <;> rfl

theorem inUse_of_findTableOffset (h : (ts.findTableOffset name false type).1 = some i) :
    ts.InUse name i := by
  unfold findTableOffset at h
  cases hfind : ts.find name with
  | none =>
    rw [hfind] at h
    cases h
  | some j =>
    rw [hfind] at h
    dsimp only at h
    split_ifs at h
    cases h
    exact inUse_of_find hfind

theorem findTableOffset_of_not_keeps (type : TableType) (h : ¬ ts.Keeps name) :
    ∃ i, i < ts.length ∧ (ts.stat i).flag = false ∧
      ts.findTableOffset name true type = (some i, ts.set i ⟨0, 0, 0, true, type, name⟩) := by
  obtain ⟨hfind, hfree⟩ := not_or.1 h
  rw [Option.not_isSome_iff_eq_none] at hfind
  rcases findTableOffset_cases ts name type with ⟨hsame, -⟩ | ⟨hnone, i, hwritable, heq⟩
  · refine absurd (fun t ht => ?_) hfree
    by_contra hflag
    have hexists : ((ts.drop 2).findIdx? fun t => !t.flag) ≠ none := fun hnone => by
      have hall := List.findIdx?_eq_none_iff.mp hnone t ht
      simp [hflag] at hall
    obtain ⟨j, hj⟩ := Option.ne_none_iff_exists'.1 hexists
    obtain ⟨hlt, hunused, -⟩ := List.findIdx?_eq_some_iff_getElem.mp hj
    rw [findTableOffset, hfind] at hsame
    simp only [Bool.not_true, Bool.false_eq_true, if_false, hj] at hsame
    have hstat := congrArg (fun ts => (stat ts (j + 2)).flag) hsame
    rw [List.length_drop] at hlt
    simp only [stat_set_self (show j + 2 < ts.length by omega)] at hstat
    rw [← stat_add_two (by rw [List.length_drop]; exact hlt), ← hstat] at hunused
    cases hunused
  · refine ⟨i, hwritable.lt_length, Bool.eq_false_iff.2 fun hflag => ?_, heq⟩
    exact entry_eq_none.1 hnone i ⟨hwritable.two_le, hflag, hwritable.own hflag⟩

theorem setTableMeta_ne (h : ts.InUse name i) : ts.setTableMeta i 1 0 ≠ ts := by
  intro hsame
  have hstat := congrArg (fun ts => stat ts i) hsame
  have hlt := h.lt_length
  simp only [setTableMeta, ne_eq, not_true_eq_false, false_and, if_false] at hstat
  split_ifs at hstat
  · rw [stat_set_self (by rwa [List.length_set])] at hstat
    have hflag := h.flag
    rw [← hstat] at hflag
    cases hflag
  · rw [stat_set_self hlt] at hstat
    have hcount := congrArg TableStat.count hstat
    rw [add_count] at hcount
    omega

theorem setTableMeta_created (hlt : i < ts.length) :
    (stat (setTableMeta (ts.set i ⟨0, 0, 0, true, type, name⟩) i 1 0) i).flag = true := by
  have hlt' : i < (ts.set i ⟨0, 0, 0, true, type, name⟩).length := by rwa [List.length_set]
  simp only [setTableMeta, ne_eq, not_true_eq_false, false_and, if_false]
  rw [stat_set_self hlt, stat_set_self hlt', add_count, if_neg (by simp), stat_set_self hlt', add_flag]

theorem set_ne (hlt : i < ts.length) (hfree : (ts.stat i).flag = false) {ts' : Tables}
    (hflag : (ts'.stat i).flag = true) : ts' ≠ ts := by
  rintro rfl
  rw [hflag] at hfree
  cases hfree

end Tables

def Md5db.Db.Reply.Counted (reply : Db.Reply) : Prop :=
  reply.r = .ok ∧ ∃ ctxt, reply.ctxt = some ctxt ∧ ctxt.kvType = .newKv ∧ ctxt.isVersionError = false

namespace Hustdb

variable {t : Target} {offset : Nat} {val table key : Bytes} {ver ttl compressType cacheType : Nat} {isDup sized : Bool}

def storeReply (md5 : Bytes → InnerKey) (cfg : Settings) (s : Hustdb) (t : Target) (val : Bytes)
    (ver ttl : Nat) (isDup : Bool) (compressType : Nat) : Db.Reply :=
  (s.storage.put md5 (s.query t.table (s.deathOf cfg ttl) compressType) t.key val ver isDup).1

theorem putTarget_reply : (s.putTarget md5 cfg t offset val ver ttl isDup compressType cacheType sized).1 =
      s.storeReply md5 cfg t val ver ttl isDup compressType := by
  simp only [putTarget, storeReply]
  split <;> rfl

theorem putTarget_tables (h : ¬ (s.storeReply md5 cfg t val ver ttl isDup compressType).Counted) :
    (s.putTarget md5 cfg t offset val ver ttl isDup compressType cacheType sized).2.tables =
      s.tables := by
  simp only [storeReply] at h
  simp only [putTarget]
  split
  · next ctxt hr hctxt =>
    have hnot : ¬ (ctxt.kvType = .newKv ∧ (!ctxt.isVersionError) = true) := fun hnew =>
      h ⟨hr, ctxt, hctxt, hnew.1, by simpa using hnew.2⟩
    exact if_neg hnot
  · rfl

theorem putTarget_counted (h : (s.storeReply md5 cfg t val ver ttl isDup compressType).Counted) :
    (s.putTarget md5 cfg t offset val ver ttl isDup compressType cacheType false).2.tables =
      s.tables.setTableMeta offset 1 0 := by
  obtain ⟨hr, ctxt, hctxt, hnew, hflag⟩ := h
  simp only [storeReply] at hr hctxt
  simp only [putTarget, hr, hctxt, hnew, hflag]
  rfl

theorem putTarget_failed
    (h : (s.putTarget md5 cfg t offset val ver ttl isDup compressType cacheType sized).1.r ≠ .ok) :
    (s.putTarget md5 cfg t offset val ver ttl isDup compressType cacheType sized).2.tables =
      s.tables := by
  rw [putTarget_reply] at h
  exact putTarget_tables fun hcounted => h hcounted.1

theorem reindex_tables (old : Option Int) (score : Int) :
    (s.reindex md5 table key val old score ver compressType).2.tables = s.tables := by
  cases old <;> rfl

def TakesMember (md5 : Bytes → InnerKey) (cfg : Settings) (s : Hustdb) (table key : Bytes)
    (score opt : Int) (ver ttl : Nat) (isDup : Bool) (compressType : Nat) : Prop :=
  ∃ old, s.zaddScore md5 cfg table key = some old ∧
    (s.storeReply md5 cfg (tableTarget table .zsetIn key) (printLi (newScore old score opt)) ver ttl
      isDup compressType).Counted

section

variable {complete : Prop} {used : Set Address} {dir : Directory} {m : RecMap}
  (h : s.storage.Holds complete md5 used dir m) (hinj : Set.InjOn (Address.digest md5) used)
include h hinj

theorem counted_storeReply_iff (ha : t.address ∈ used)
    (hsound : (Call.put (s.query t.table (s.deathOf cfg ttl) compressType) t.key val ver isDup).Sound md5 s.storage) :
    (s.storeReply md5 cfg t val ver ttl isDup compressType).Counted ↔ (m t.address = none ∧ (isDup = true ∨ ver = 0)) ∧
      (s.storeReply md5 cfg t val ver ttl isDup compressType).r = .ok := by
  have hversion (hok : (s.storeReply md5 cfg t val ver ttl isDup compressType).r = .ok)
      (habsent : m t.address = none) : isDup = true ∨ ver = 0 := by
    by_contra hnot
    rw [not_or, Bool.not_eq_true] at hnot
    by_cases hargs : Db.PutArgs t.key val ver isDup
    · have hrefused : s.storage.PutRefused (t.address.digest md5) ver isDup := by
        rw [Db.PutRefused, h.locate_none ha habsent]
        exact hnot
      obtain ⟨_, _, hput, -⟩ := Db.put_refused (q := s.query t.table (s.deathOf cfg ttl) compressType) md5
        hargs hrefused
      rw [storeReply, hput, hnot.1] at hok
      cases hok
    · rw [storeReply, Db.put_of_invalid md5 _ _ hargs] at hok
      cases hok
  obtain ⟨_, _, -, hresult⟩ := h.put hinj ha rfl hsound
  change Db.PutResult _ _ _ _ _ _ (s.storeReply md5 cfg t val ver ttl isDup compressType) _ at hresult
  generalize s.storeReply md5 cfg t val ver ttl isDup compressType = reply at hresult hversion ⊢
  cases hresult with
  | invalid | failed => simp [Db.Reply.Counted]
  | refused hpresent _ hflag => simp [Db.Reply.Counted, hpresent, hflag]
  | inserted habsent hreport => simp [Db.Reply.Counted, habsent, hreport.flag, hreport.kind_eq, hversion rfl habsent]
  | updated hpresent _ hreport => simp [Db.Reply.Counted, hpresent, hreport.kind_eq]

/-- In a store that holds a map, the member is taken if it has no record before the call, comes with version 0 or as a
replicated write, and finds room. -/
theorem takesMember_iff {score opt : Int} (ha : (tableTarget table .zsetIn key).address ∈ used)
    (hsound : ∀ val, (Call.put (s.query (tableTarget table .zsetIn key).table (s.deathOf cfg ttl) compressType) key
      val ver isDup).Sound md5 s.storage) :
    s.TakesMember md5 cfg table key score opt ver ttl isDup compressType ↔
      (m (tableTarget table .zsetIn key).address = none ∧ (isDup = true ∨ ver = 0)) ∧
      ∃ old, s.zaddScore md5 cfg table key = some old ∧ (s.storeReply md5 cfg (tableTarget table .zsetIn key)
        (printLi (newScore old score opt)) ver ttl isDup compressType).r = .ok := by
  simp only [TakesMember, counted_storeReply_iff h hinj ha (hsound _)]
  exact ⟨fun ⟨old, hold, hboth, hr⟩ => ⟨hboth, old, hold, hr⟩, fun ⟨hboth, old, hold, hr⟩ => ⟨old, hold, hboth, hr⟩⟩

end

end Hustdb

def Op.inTable (md5 : Bytes → InnerKey) (cfg : Settings) (s : Hustdb) : Op → Rc × Hustdb
  | .hset table key val ver ttl isDup compressType =>
    let out := s.hustdbHset md5 cfg table key val ver ttl isDup compressType
    (out.1.r, out.2)
  | .sadd table key ver ttl isDup compressType =>
    let out := s.hustdbSadd md5 cfg table key ver ttl isDup compressType
    (out.1.r, out.2)
  | .zadd table key score opt ver ttl isDup compressType =>
    let out := s.hustdbZadd md5 cfg table key score opt ver ttl isDup compressType
    (out.1.r, out.2.2)
  | .hincrby table key score ver ttl isDup compressType =>
    let out := s.hustdbHincrby md5 cfg table key score ver ttl isDup compressType
    (out.1.r, out.2)
  | op => (.ok, op.step md5 cfg s)

theorem Op.inTable_snd (md5 : Bytes → InnerKey) (cfg : Settings) (s : Hustdb) (op : Op) :
    (op.inTable md5 cfg s).2 = op.step md5 cfg s := by
  cases op <;> rfl

def Op.StopsEarly (s : Hustdb) : Op → Prop
  | .hset table key val ver _ _ _ =>
    (!tbNameCheck table ∨ !checkVersion ver ∨ key = [] ∨ val = []) ∨ s.overThreshold
  | .sadd table key ver _ _ _ | .zadd table key _ _ ver _ _ _ | .hincrby table key _ ver _ _ _ =>
    (!tbNameCheck table ∨ !checkVersion ver ∨ key = []) ∨ s.overThreshold
  | _ => True

def Op.AddsNothing (md5 : Bytes → InnerKey) (cfg : Settings) (s : Hustdb) : Op → Prop
  | .hset table _ _ _ _ _ _ | .sadd table _ _ _ _ _ | .hincrby table _ _ _ _ _ _ =>
    s.tables.Keeps table
  | .zadd table key score opt ver ttl isDup compressType =>
    s.tables.Keeps table ∧ ((s.tables.findTableOffset table false .zsetTb).1.isSome →
      ¬ s.TakesMember md5 cfg table key score opt ver ttl isDup compressType)
  | _ => True

namespace Hustdb

variable {table key val : Bytes} {type : TableType} {ver ttl compressType : Nat} {isDup : Bool} {score opt : Int}

def writeIn (s : Hustdb) (table : Bytes) (type : TableType) (body : Nat → Hustdb → Rc × Hustdb) :
    Rc × Hustdb :=
  match s.tables.findTableOffset table true type with
  | (none, tables) => (.err .EPERM, { s with tables })
  | (some offset, tables) => body offset { s with tables }

/-- `counted` says of a body that fails that it has counted its record in the table. -/
theorem writeIn_tables_iff {body : Nat → Hustdb → Rc × Hustdb} {counted : Prop}
    (hbody : ∀ offset tables, (body offset { s with tables }).1 ≠ .ok →
      (body offset { s with tables }).2.tables = tables ∧ ¬ counted ∨
        (body offset { s with tables }).2.tables = Tables.setTableMeta tables offset 1 0 ∧ counted)
    (hfails : (s.writeIn table type body).1 ≠ .ok) :
    (s.writeIn table type body).2.tables = s.tables ↔ s.tables.Keeps table ∧
      ((s.tables.findTableOffset table false type).1.isSome → ¬ counted) := by
  unfold writeIn at hfails ⊢
  by_cases hkeeps : s.tables.Keeps table
  · rw [and_iff_right hkeeps]
    rw [Tables.findTableOffset_of_keeps hkeeps] at hfails ⊢
    have hsame : (s.tables.findTableOffset table false type).2 = s.tables :=
      Tables.findTableOffset_false
    rcases hsearch : s.tables.findTableOffset table false type with ⟨_ | offset, tables⟩
    · rw [hsearch] at hsame
      exact iff_of_true hsame fun hsome => by cases hsome
    · rw [hsearch] at hsame hfails
      obtain rfl : tables = s.tables := hsame
      have hinUse := Tables.inUse_of_findTableOffset (congrArg Prod.fst hsearch)
      rcases hbody offset s.tables hfails with ⟨htables, hnot⟩ | ⟨htables, hcounted⟩
      · exact iff_of_true htables fun _ => hnot
      · refine iff_of_false (fun heq => ?_) fun hnot => hnot rfl hcounted
        exact Tables.setTableMeta_ne hinUse (htables.symm.trans heq)
  · refine iff_of_false ?_ fun hboth => hkeeps hboth.1
    obtain ⟨i, hlt, hfree, hsearch⟩ := Tables.findTableOffset_of_not_keeps type hkeeps
    rw [hsearch] at hfails ⊢
    refine Tables.set_ne hlt hfree ?_
    rcases hbody i _ hfails with ⟨htables, -⟩ | ⟨htables, -⟩
    · rw [htables, Tables.stat_set_self hlt]
    · rw [htables]
      exact Tables.setTableMeta_created hlt

theorem writeIn_tables_uncounted {body : Nat → Hustdb → Rc × Hustdb}
    (hbody : ∀ offset tables, (body offset { s with tables }).1 ≠ .ok →
      (body offset { s with tables }).2.tables = tables)
    (hfails : (s.writeIn table type body).1 ≠ .ok) :
    (s.writeIn table type body).2.tables = s.tables ↔ s.tables.Keeps table := by
  rw [writeIn_tables_iff (fun offset tables h => .inl ⟨hbody offset tables h, id⟩) hfails]
  exact and_iff_left fun _ => id

theorem hset_eq (h : ¬ (Op.hset table key val ver ttl isDup compressType).StopsEarly s) :
    (Op.hset table key val ver ttl isDup compressType).inTable md5 cfg s =
    s.writeIn table .hashTb fun offset s =>
      let out := s.putTarget md5 cfg (tableTarget table .hashTb key) offset val ver ttl isDup
        compressType compressType true
      (out.1.r, out.2) := by
  obtain ⟨hargs, hthreshold⟩ := not_or.1 h
  rw [Op.inTable, hustdbHset, if_neg hargs, if_neg hthreshold, writeIn]
  rcases s.tables.findTableOffset table true .hashTb with ⟨_ | offset, tables⟩ <;> rfl

theorem sadd_eq (h : ¬ (Op.sadd table key ver ttl isDup compressType).StopsEarly s) :
    (Op.sadd table key ver ttl isDup compressType).inTable md5 cfg s =
    s.writeIn table .setTb fun offset s =>
      let out := s.putTarget md5 cfg (setTarget table key) offset [] ver ttl isDup compressType
        compressType false
      (out.1.r, out.2) := by
  obtain ⟨hargs, hthreshold⟩ := not_or.1 h
  rw [Op.inTable, hustdbSadd, if_neg hargs, if_neg hthreshold, writeIn]
  rcases s.tables.findTableOffset table true .setTb with ⟨_ | offset, tables⟩ <;> rfl

def incrIn (md5 : Bytes → InnerKey) (cfg : Settings) (table key : Bytes) (score : Int) (ver ttl : Nat)
    (isDup : Bool) (compressType offset : Nat) (s : Hustdb) : Rc × Hustdb :=
  let t := tableTarget table .hashTb key
  let cur := s.readCurrent md5 cfg t
  match (if cur.1 = .ok then dbStrtoll cur.2.2 else some 0) with
  | none => (.err .ENOMEM, s)
  | some curScore =>
    let out := s.putTarget md5 cfg t offset (printLi (wrap64 (score + curScore))) ver ttl isDup
      compressType 0 true
    (out.1.r, out.2)

theorem hincrby_eq (h : ¬ (Op.hincrby table key score ver ttl isDup compressType).StopsEarly s) :
    (Op.hincrby table key score ver ttl isDup compressType).inTable md5 cfg s =
    s.writeIn table .hashTb (incrIn md5 cfg table key score ver ttl isDup compressType) := by
  obtain ⟨hargs, hthreshold⟩ := not_or.1 h
  rw [Op.inTable, hustdbHincrby, if_neg hargs, if_neg hthreshold, writeIn]
  rcases s.tables.findTableOffset table true .hashTb with ⟨_ | offset, tables⟩
  · rfl
  · simp only [incrIn]
    cases (if (readCurrent md5 cfg { s with tables } (tableTarget table .hashTb key)).1 = .ok then
        dbStrtoll (readCurrent md5 cfg { s with tables } (tableTarget table .hashTb key)).2.2
      else some 0) with
    | none => rfl
    | some curScore =>
      simp only
      rcases putTarget md5 cfg { s with tables } _ offset _ ver ttl isDup compressType 0 true with
        ⟨⟨_ | e, version, ctxt⟩, s'⟩ <;> rfl

theorem incrIn_failed {offset : Nat}
    (h : (incrIn md5 cfg table key score ver ttl isDup compressType offset s).1 ≠ .ok) :
    (incrIn md5 cfg table key score ver ttl isDup compressType offset s).2.tables = s.tables := by
  unfold incrIn at h ⊢
  dsimp only at h ⊢
  split at h
  · rfl
  · exact putTarget_failed h

def addIn (md5 : Bytes → InnerKey) (cfg : Settings) (table key : Bytes) (score opt : Int)
    (ver ttl : Nat) (isDup : Bool) (compressType offset : Nat) (s : Hustdb) : Rc × Hustdb :=
  let t := tableTarget table .zsetIn key
  match s.zaddScore md5 cfg table key with
  | none => (.err .ENOMEM, s)
  | some old =>
    if opt = 0 ∧ old = some score ∧ (s.readCurrent md5 cfg t).2.1 ≥ ver then (.ok, s)
    else
      let val := printLi (newScore old score opt)
      let out := s.putTarget md5 cfg t offset val ver ttl isDup compressType 0 false
      match out.1.r with
      | .err e => (.err e, out.2)
      | .ok => out.2.reindex md5 table key val old (newScore old score opt) out.1.version compressType

theorem zadd_eq (h : ¬ (Op.zadd table key score opt ver ttl isDup compressType).StopsEarly s) :
    (Op.zadd table key score opt ver ttl isDup compressType).inTable md5 cfg s =
    s.writeIn table .zsetTb (addIn md5 cfg table key score opt ver ttl isDup compressType) := by
  obtain ⟨hargs, hthreshold⟩ := not_or.1 h
  rw [Op.inTable, hustdbZadd, if_neg hargs, if_neg hthreshold, writeIn]
  rcases s.tables.findTableOffset table true .zsetTb with ⟨_ | offset, tables⟩
  · rfl
  · simp only [addIn]
    cases zaddScore md5 cfg { s with tables } table key with
    | none => rfl
    | some old =>
      simp only
      split_ifs
      · rfl
      rcases putTarget md5 cfg { s with tables } _ offset _ ver ttl isDup compressType 0 false with
        ⟨⟨_ | e, version, ctxt⟩, s'⟩
      · simp only
        rcases s'.reindex md5 table key _ old _ version compressType with ⟨_ | e, s''⟩ <;> rfl
      · rfl

theorem addIn_failed {offset : Nat}
    (h : (addIn md5 cfg table key score opt ver ttl isDup compressType offset s).1 ≠ .ok) :
    (addIn md5 cfg table key score opt ver ttl isDup compressType offset s).2.tables = s.tables ∧
        ¬ s.TakesMember md5 cfg table key score opt ver ttl isDup compressType ∨
      (addIn md5 cfg table key score opt ver ttl isDup compressType offset s).2.tables =
          s.tables.setTableMeta offset 1 0 ∧
        s.TakesMember md5 cfg table key score opt ver ttl isDup compressType := by
  unfold addIn at h ⊢
  dsimp only at h ⊢
  cases hscore : s.zaddScore md5 cfg table key with
  | none =>
    refine .inl ⟨rfl, ?_⟩
    rintro ⟨old, hold, -⟩
    rw [hscore] at hold
    cases hold
  | some old =>
    simp only [hscore] at h ⊢
    by_cases hsame : opt = 0 ∧ old = some score ∧ (s.readCurrent md5 cfg (tableTarget table .zsetIn key)).2.1 ≥ ver
    · rw [if_pos hsame] at h
      exact absurd rfl h
    rw [if_neg hsame]
    have hafter : ∀ out : Db.Reply × Hustdb, (match out.1.r with
        | .err e => (Rc.err e, out.2)
        | .ok => out.2.reindex md5 table key (printLi (newScore old score opt)) old
            (newScore old score opt) out.1.version compressType).2.tables = out.2.tables := by
      rintro ⟨⟨_ | e, version, ctxt⟩, s'⟩
      · exact reindex_tables old _
      · rfl
    by_cases hcounted : (s.storeReply md5 cfg (tableTarget table .zsetIn key)
        (printLi (newScore old score opt)) ver ttl isDup compressType).Counted
    · exact .inr ⟨(hafter _).trans (putTarget_counted hcounted), old, hscore, hcounted⟩
    · refine .inl ⟨(hafter _).trans (putTarget_tables hcounted), ?_⟩
      rintro ⟨old', hold, hcounted'⟩
      rw [hscore] at hold
      cases hold
      exact hcounted hcounted'

end Hustdb

variable {op : Op}

open Hustdb in
theorem Op.StopsEarly.tables_eq (h : op.StopsEarly s) (hfails : (op.inTable md5 cfg s).1 ≠ .ok) :
    (op.inTable md5 cfg s).2.tables = s.tables := by
  cases op with
  | hset | sadd | zadd | hincrby =>
    simp only [Op.inTable, hustdbHset, hustdbSadd, hustdbZadd, hustdbHincrby]
    rcases h with hargs | hover
    · rw [if_pos hargs]
    · rw [if_pos hover]
      split_ifs <;> rfl
  | _ => exact absurd rfl hfails

open Hustdb in
/-- A write into a table that fails leaves the table index as it was if and only if it stops before
the search, or it creates no table and, for a `zadd`, the store does not take the member. -/
theorem failed_write_keeps_tables_iff (hfails : (op.inTable md5 cfg s).1 ≠ .ok) :
    (op.step md5 cfg s).tables = s.tables ↔ op.StopsEarly s ∨ op.AddsNothing md5 cfg s := by
  rw [← Op.inTable_snd]
  by_cases hstops : op.StopsEarly s
  · exact iff_of_true (hstops.tables_eq hfails) (.inl hstops)
  rw [or_iff_right hstops]
  cases op with
  | hset table key val ver ttl isDup compressType =>
    rw [hset_eq hstops] at hfails ⊢
    exact writeIn_tables_uncounted (fun offset tables => putTarget_failed) hfails
  | sadd table key ver ttl isDup compressType =>
    rw [sadd_eq hstops] at hfails ⊢
    exact writeIn_tables_uncounted (fun offset tables => putTarget_failed) hfails
  | hincrby table key score ver ttl isDup compressType =>
    rw [hincrby_eq hstops] at hfails ⊢
    exact writeIn_tables_uncounted (fun offset tables => incrIn_failed) hfails
  | zadd table key score opt ver ttl isDup compressType =>
    rw [zadd_eq hstops] at hfails ⊢
    exact writeIn_tables_iff (fun offset tables => addIn_failed) hfails
  | _ => exact absurd rfl hfails

theorem failed_write_keeps_tables_hset :
    let op : Op := .hset (ascii "h") (ascii "k") [3] 9 0 false 0
    (op.inTable Md5.md5 ⟨true, 1000⟩ (smallServer fieldAndMember)).1 = .err .EINVAL ∧
      (op.step Md5.md5 ⟨true, 1000⟩ (smallServer fieldAndMember)).tables = (smallServer fieldAndMember).tables := by
  have hfails : ((Op.hset (ascii "h") (ascii "k") [3] 9 0 false 0).inTable Md5.md5 ⟨true, 1000⟩
      (smallServer fieldAndMember)).1 = .err .EINVAL := by decide +kernel
  have hkeeps : (smallServer fieldAndMember).tables.Keeps (ascii "h") := by decide +kernel
  exact ⟨hfails, (failed_write_keeps_tables_iff (by rw [hfails]; simp)).2 (.inr hkeeps)⟩

/-- A server with room for two tables: two writes that are refused for their version take both
places, and the first write into a third table is then refused. -/
theorem failed_writes_fill_the_index :
    let s := smallServer []
    let s₁ := (s.hustdbHset Md5.md5 ⟨true, 1000⟩ (ascii "a") (ascii "k") [1] 5 0 false 0)
    let s₂ := (s₁.2.hustdbSadd Md5.md5 ⟨true, 1000⟩ (ascii "b") (ascii "k") 5 0 false 0)
    s₁.1.r = .err .EINVAL ∧ s₂.1.r = .err .EINVAL ∧
      s.tables.find (ascii "a") = none ∧ s₂.2.tables.find (ascii "a") = some 2 ∧
      s₂.2.tables.find (ascii "b") = some 3 ∧
      (s₂.2.hustdbHset Md5.md5 ⟨true, 1000⟩ (ascii "c") (ascii "k") [1] 0 0 false 0).1.r =
        .err .EPERM := by
  decide +kernel

end HustStore
