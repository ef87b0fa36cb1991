import HustStore.Hustdb.Op
import HustStore.Md5db.Versions

/-!
# Operations as lists of actions

Every operation of the server is a short list of actions: it creates its table, fetches, puts or deletes the
record of a target, or calls the store for an entry of an index.
-/

namespace HustStore

open Md5db

structure Write where
  val : Bytes
  ver : Nat
  ttl : Nat
  isDup : Bool
  compressType : Nat
  cacheType : Nat
  sized : Bool

inductive Action
  | openTable (table : Bytes) (type : TableType)
  | fetch (t : Hustdb.Target) (offset : Nat)
  | peek (t : Hustdb.Target)
  | put (t : Hustdb.Target) (offset : Nat) (w : Write)
  | del (t : Hustdb.Target) (offset ver : Nat) (isDup sized : Bool)
  | store (c : Call)
  | eraseTtl (listing : Bytes)
  | seek (listing : Bytes)
  | tick (now : Nat)
  | evict (key : Bytes)
  | binlog (file : SortedMap Bytes Bytes)

namespace Hustdb

variable (md5 : Bytes → InnerKey) (cfg : Settings)

def putWrite (s : Hustdb) (t : Target) (offset : Nat) (w : Write) : Db.Reply × Hustdb :=
  s.putTarget md5 cfg t offset w.val w.ver w.ttl w.isDup w.compressType w.cacheType w.sized

end Hustdb

def Action.run (md5 : Bytes → InnerKey) (cfg : Settings) (s : Hustdb) : Action → Hustdb
  | .openTable table type => { s with tables := (s.tables.findTableOffset table true type).2 }
  | .fetch t offset => (s.getTarget md5 cfg t offset).2
  | .peek t => (s.peekTarget md5 cfg t).2
  | .put t offset w => (s.putWrite md5 cfg t offset w).2
  | .del t offset ver isDup sized => (s.delTarget md5 cfg t offset ver isDup sized).2
  | .store c => { s with storage := c.step md5 s.storage }
  | .eraseTtl listing => s.eraseTtl listing
  | .seek listing => { s with ttlSeek := listing }
  | .tick now => { s with now }
  | .evict key => { s with mdb := s.mdb.evict key }
  | .binlog file => { s with binlog := file }

namespace Hustdb

variable (md5 : Bytes → InnerKey) (cfg : Settings)

def writeTable (s : Hustdb) (table : Bytes) (type : TableType) (actions : Nat → List Action) :
    List Action :=
  match (s.tables.findTableOffset table true type).1 with
  | none => []
  | some offset => .openTable table type :: actions offset

def inTable (s : Hustdb) (table : Bytes) (type : TableType) (actions : Nat → List Action) :
    List Action :=
  match (s.tables.findTableOffset table false type).1 with
  | none => []
  | some offset => actions offset

def delActions (key : Bytes) (ver : Nat) (isDup : Bool) : List Action :=
  if key = [] ∨ !checkVersion ver then [] else [.del (plainTarget key) 0 ver isDup true]

def hdelActions (s : Hustdb) (table key : Bytes) (ver : Nat) (isDup : Bool) : List Action :=
  if !tbNameCheck table ∨ !checkVersion ver ∨ key = [] then []
  else s.inTable table .hashTb fun offset => [.del (tableTarget table .hashTb key) offset ver isDup true]

def sremActions (s : Hustdb) (table key : Bytes) (ver : Nat) (isDup : Bool) : List Action :=
  if !tbNameCheck table ∨ !checkVersion ver ∨ key = [] then []
  else s.inTable table .setTb fun offset => [.del (setTarget table key) offset ver isDup false]

def unindex (s : Hustdb) (table key : Bytes) (score : Int) : Call :=
  .del (s.query (indexTarget table key score).table 0 0) key 0 false

def index (s : Hustdb) (table key : Bytes) (score : Int) (ver compressType : Nat) : Call :=
  .put (s.query (indexTarget table key score).table 0 compressType) key (printLi score) ver true

def zremActions (s : Hustdb) (table key : Bytes) (ver : Nat) (isDup : Bool) : List Action :=
  if !tbNameCheck table ∨ !checkVersion ver ∨ key = [] then []
  else s.inTable table .zsetTb fun offset =>
    let t := tableTarget table .zsetIn key
    match s.zremScore md5 table key with
    | none => []
    | some score =>
      .del t offset ver isDup false ::
        if (s.delTarget md5 cfg t offset ver isDup false).1.r = .ok then
          [.store (s.unindex table key score)]
        else []

def memberWrite (score : Int) (ver ttl : Nat) (isDup : Bool) (compressType : Nat) : Write :=
  ⟨printLi score, ver, ttl, isDup, compressType, 0, false⟩

def zaddActions (s : Hustdb) (table key : Bytes) (score opt : Int) (ver ttl : Nat) (isDup : Bool)
    (compressType : Nat) : List Action :=
  if !tbNameCheck table ∨ !checkVersion ver ∨ key = [] then []
  else if s.overThreshold then []
  else s.writeTable table .zsetTb fun offset =>
    let t := tableTarget table .zsetIn key
    let curVer := (s.readCurrent md5 cfg t).2.1
    match s.zaddScore md5 cfg table key with
    | none => []
    | some old =>
      if opt = 0 ∧ old = some score ∧ curVer ≥ ver then []
      else
        let new := newScore old score opt
        let w := memberWrite new ver ttl isDup compressType
        let opened := Action.run md5 cfg s (.openTable table .zsetTb)
        let reply := (opened.putWrite md5 cfg t offset w).1
        .put t offset w ::
          if reply.r = .ok then
            (old.map fun score => Action.store (s.unindex table key score)).toList ++
              [.store (s.index table key new reply.version compressType)]
          else []

def hincrbyWrite (s : Hustdb) (table key : Bytes) (score : Int) (ver ttl : Nat) (isDup : Bool)
    (compressType : Nat) : Option Write :=
  let cur := s.readCurrent md5 cfg (tableTarget table .hashTb key)
  (if cur.1 = .ok then dbStrtoll cur.2.2 else some 0).map fun curScore =>
    ⟨printLi (wrap64 (score + curScore)), ver, ttl, isDup, compressType, 0, true⟩

def scanDelActions (s : Hustdb) (listing key : Bytes) : List Action :=
  let table := scanTable listing
  let type := scanType listing
  if type = some TableType.kvAll.code then delActions key 0 false
  else if type = some TableType.hashTb.code then s.hdelActions table key 0 false
  else if type = some TableType.setTb.code then s.sremActions table key 0 false
  else if type = some TableType.zsetIn.code then s.zremActions md5 cfg table key 0 false
  else []

def entryActions (s : Hustdb) (listing : Bytes) (entry : TtlEntry) : List Action :=
  if entry.ttl > s.now then []
  else if entry.fileId ≥ s.storage.data.fileCount then [.eraseTtl listing]
  else
    match (s.storage.data.files entry.fileId).get? listing with
    | none => [.eraseTtl listing]
    | some _ => s.scanDelActions md5 cfg listing (s.scanKey md5 listing) ++ [.eraseTtl listing]

def scanActions (s : Hustdb) : List (Bytes × TtlEntry) → List Action
  | [] => []
  | (listing, entry) :: rest =>
    s.entryActions md5 cfg listing entry ++ scanActions (s.scanEntry md5 cfg listing entry) rest

end Hustdb

def Op.actions (md5 : Bytes → InnerKey) (cfg : Settings) (s : Hustdb) : Op → List Action
  | .exist _ => []
  | .get key => if key = [] then [] else [.fetch (Hustdb.plainTarget key) 0]
  | .put key val ver ttl isDup compressType =>
    if key = [] ∨ val = [] ∨ !checkVersion ver then []
    else if s.overThreshold then []
    else [.put (Hustdb.plainTarget key) 0 ⟨val, ver, ttl, isDup, compressType, compressType, true⟩]
  | .del key ver isDup => Hustdb.delActions key ver isDup
  | .hget table key =>
    if !tbNameCheck table ∨ key = [] then []
    else s.inTable table .hashTb fun offset => [.fetch (Hustdb.tableTarget table .hashTb key) offset]
  | .hset table key val ver ttl isDup compressType =>
    if !tbNameCheck table ∨ !checkVersion ver ∨ key = [] ∨ val = [] then []
    else if s.overThreshold then []
    else s.writeTable table .hashTb fun offset =>
      [.put (Hustdb.tableTarget table .hashTb key) offset ⟨val, ver, ttl, isDup, compressType, compressType, true⟩]
  | .hincrby table key score ver ttl isDup compressType =>
    if !tbNameCheck table ∨ !checkVersion ver ∨ key = [] then []
    else if s.overThreshold then []
    else s.writeTable table .hashTb fun offset =>
      (s.hincrbyWrite md5 cfg table key score ver ttl isDup compressType).toList.map
        (.put (Hustdb.tableTarget table .hashTb key) offset)
  | .hdel table key ver isDup => s.hdelActions table key ver isDup
  | .sadd table key ver ttl isDup compressType =>
    if !tbNameCheck table ∨ !checkVersion ver ∨ key = [] then []
    else if s.overThreshold then []
    else s.writeTable table .setTb fun offset =>
      [.put (Hustdb.setTarget table key) offset ⟨[], ver, ttl, isDup, compressType, compressType, false⟩]
  | .srem table key ver isDup => s.sremActions table key ver isDup
  | .zadd table key score opt ver ttl isDup compressType =>
    s.zaddActions md5 cfg table key score opt ver ttl isDup compressType
  | .zscore table key =>
    if !tbNameCheck table ∨ key = [] then []
    else s.inTable table .zsetTb fun _ => [.peek (Hustdb.tableTarget table .zsetIn key)]
  | .zrem table key ver isDup => s.zremActions md5 cfg table key ver isDup
  | .messagePut queue priori tag item =>
    if !tbNameCheck queue ∨ item = [] ∨ priori > 2 then []
    else if s.overThreshold then []
    else [.store (.put (s.query [] 0 0) (queueKey queue priori tag) item 0 false)]
  | .messageAck queue priori tag =>
    if !tbNameCheck queue then []
    else [.store (.del (s.query [] 0 0) (queueKey queue priori tag) 0 false)]
  | .tick now => [.tick now]
  | .evict key => [.evict key]
  | .ttlScan size => s.scanActions md5 cfg (s.ttlPage size) ++ [.seek (s.nextSeek size)]
  | .binlogPut key val => [.binlog (s.binlog.insert key val)]
  | .binlogDel key => [.binlog (s.binlog.erase key)]

/-- The action deletes a record, whatever its version is. -/
def Action.Removes : Action → Prop
  | .del _ _ ver isDup _ => ver = 0 ∧ isDup = false
  | .store c => ∃ q key, c = .del q key 0 false
  | _ => False

/-- What a scan of the ttl index does. -/
def Action.Deletes : Action → Prop
  | .eraseTtl _ | .seek _ | .tick _ => True
  | a => a.Removes

theorem Action.Removes.deletes {a : Action} (h : a.Removes) : a.Deletes := by
  cases a with
  | eraseTtl _ | seek _ | tick _ => trivial
  | _ => exact h

namespace Hustdb

variable {md5 : Bytes → InnerKey} {cfg : Settings} {s : Hustdb} {table key : Bytes} {type : TableType}

/-! ### The actions of the scan -/

theorem removes_inTable {actions : Nat → List Action} (h : ∀ offset, ∀ a ∈ actions offset, a.Removes) :
    ∀ a ∈ s.inTable table type actions, a.Removes := by
  unfold inTable
  split
  · simp
  · exact h _

theorem removes_scanDelActions (listing : Bytes) : ∀ a ∈ s.scanDelActions md5 cfg listing key, a.Removes := by
  unfold scanDelActions
  dsimp only
  split
  · unfold delActions
    split <;> simp [Action.Removes]
  split
  · unfold hdelActions
    split
    · simp
    · exact removes_inTable fun offset => by simp [Action.Removes]
  split
  · unfold sremActions
    split
    · simp
    · exact removes_inTable fun offset => by simp [Action.Removes]
  split
  · unfold zremActions
    split
    · simp
    refine removes_inTable fun offset => ?_
    dsimp only
    split
    · simp
    · split <;> simp [Action.Removes, unindex]
  · simp

theorem deletes_entryActions (listing : Bytes) (entry : TtlEntry) :
    ∀ a ∈ s.entryActions md5 cfg listing entry, a.Deletes := by
  unfold entryActions
  split
  · simp
  split
  · simp [Action.Deletes]
  split
  · simp [Action.Deletes]
  · intro a ha
    rcases List.mem_append.mp ha with ha | ha
    · exact (removes_scanDelActions listing a ha).deletes
    · rw [List.mem_singleton.mp ha]
      trivial

theorem deletes_scanActions (page : List (Bytes × TtlEntry)) : ∀ a ∈ s.scanActions md5 cfg page, a.Deletes := by
  induction page generalizing s with
  | nil => simp [scanActions]
  | cons e page ih =>
    intro a ha
    rcases List.mem_append.mp ha with ha | ha
    · exact deletes_entryActions e.1 e.2 a ha
    · exact ih a ha

/-! ### Running the actions is the operation -/

theorem findTableOffset_none {ts : Tables} {create : Bool} (h : (ts.findTableOffset table create type).1 = none) :
    (ts.findTableOffset table create type).2 = ts := by
  unfold Tables.findTableOffset at h ⊢
  split
  · rfl
  · cases hfree : (ts.drop 2).findIdx? fun t => !t.flag with
    | none => split <;> rfl
    | some i => split <;> simp_all

theorem exec_writeTable (actions : Nat → List Action) :
    Run.exec (Action.run md5 cfg) s (s.writeTable table type actions) =
      match s.tables.findTableOffset table true type with
      | (none, tables) => { s with tables }
      | (some offset, tables) => Run.exec (Action.run md5 cfg) { s with tables } (actions offset) := by
  have hnone := @findTableOffset_none table type s.tables true
  unfold writeTable
  rcases hf : s.tables.findTableOffset table true type with ⟨_ | offset, tables⟩
  · rw [hf] at hnone
    cases hnone rfl
    rfl
  · show Run.exec _ (Action.run md5 cfg s (.openTable table type)) _ = _
    rw [Action.run, hf]

theorem exec_delActions (ver : Nat) (isDup : Bool) : Run.exec (Action.run md5 cfg) s (delActions key ver isDup) =
      (s.hustdbDel md5 cfg key ver isDup).2 := by
  unfold delActions hustdbDel
  split <;> rfl

theorem exec_hdelActions (ver : Nat) (isDup : Bool) :
    Run.exec (Action.run md5 cfg) s (s.hdelActions table key ver isDup) =
      (s.hustdbHdel md5 cfg table key ver isDup).2 := by
  unfold hdelActions hustdbHdel inTable
  split
  · rfl
  · cases (s.tables.findTableOffset table false .hashTb).1 <;> rfl

theorem exec_sremActions (ver : Nat) (isDup : Bool) :
    Run.exec (Action.run md5 cfg) s (s.sremActions table key ver isDup) =
      (s.hustdbSrem md5 cfg table key ver isDup).2 := by
  unfold sremActions hustdbSrem inTable
  split
  · rfl
  · cases (s.tables.findTableOffset table false .setTb).1 <;> rfl

theorem delTarget_now (md5 : Bytes → InnerKey) (cfg : Settings) (s : Hustdb) (t : Target)
    (offset ver : Nat) (isDup sized : Bool) :
    (s.delTarget md5 cfg t offset ver isDup sized).2.now = s.now := by
  unfold delTarget
  rcases s.storage.del md5 (s.query t.table 0 0) t.key ver isDup with ⟨⟨_ | e, version, _ | ctxt⟩, db⟩
  · rfl
  · dsimp only
    split <;> rfl
  · rfl
  · rfl

theorem exec_zremActions (ver : Nat) (isDup : Bool) :
    Run.exec (Action.run md5 cfg) s (s.zremActions md5 cfg table key ver isDup) =
      (s.hustdbZrem md5 cfg table key ver isDup).2 := by
  unfold zremActions hustdbZrem inTable
  split
  · rfl
  cases (s.tables.findTableOffset table false .zsetTb).1 with
  | none => rfl
  | some offset =>
    dsimp only
    cases s.zremScore md5 table key with
    | none => rfl
    | some score =>
      have hnow := delTarget_now md5 cfg s (tableTarget table .zsetIn key) offset ver isDup false
      dsimp only [Run.exec_cons, Action.run]
      rcases s.delTarget md5 cfg (tableTarget table .zsetIn key) offset ver isDup false with
        ⟨⟨_ | e, version, ctxt⟩, s'⟩
      · simp only [unindex, query, indexTarget] at hnow ⊢
        rw [← hnow]
        rfl
      · rfl

theorem putTarget_now (md5 : Bytes → InnerKey) (cfg : Settings) (s : Hustdb) (t : Target)
    (offset : Nat) (w : Write) : (s.putWrite md5 cfg t offset w).2.now = s.now := by
  unfold putWrite putTarget
  rcases s.storage.put md5 (s.query t.table (s.deathOf cfg w.ttl) w.compressType) t.key w.val w.ver
    w.isDup with ⟨⟨_ | e, version, _ | ctxt⟩, db⟩ <;> rfl

theorem exec_index {s' : Hustdb} (hnow : s'.now = s.now) (old : Option Int) (score : Int) (ver compressType : Nat) :
    Run.exec (Action.run md5 cfg) s' ((old.map fun score => Action.store (s.unindex table key score)).toList ++
          [.store (s.index table key score ver compressType)]) =
      (s'.reindex md5 table key (printLi score) old score ver compressType).2 := by
  unfold unindex index reindex query
  rw [← hnow]
  cases old <;> rfl

theorem exec_zaddActions (score opt : Int) (ver ttl : Nat) (isDup : Bool) (compressType : Nat) :
    Run.exec (Action.run md5 cfg) s (s.zaddActions md5 cfg table key score opt ver ttl isDup compressType) =
      (s.hustdbZadd md5 cfg table key score opt ver ttl isDup compressType).2.2 := by
  unfold zaddActions hustdbZadd
  split
  · rfl
  split
  · rfl
  rw [exec_writeTable]
  rcases hf : s.tables.findTableOffset table true .zsetTb with ⟨_ | offset, tables⟩
  · rfl
  have hopened : Action.run md5 cfg s (.openTable table .zsetTb) = { s with tables } := by
    rw [Action.run, hf]
  have hscore : ({ s with tables } : Hustdb).zaddScore md5 cfg table key =
      s.zaddScore md5 cfg table key := rfl
  have hread (t : Target) : ({ s with tables } : Hustdb).readCurrent md5 cfg t =
      s.readCurrent md5 cfg t := rfl
  dsimp only
  rw [hscore, hread, hopened]
  cases s.zaddScore md5 cfg table key with
  | none => rfl
  | some old =>
    dsimp only
    split
    · rfl
    have hnow := putTarget_now md5 cfg { s with tables } (tableTarget table .zsetIn key) offset
      (memberWrite (newScore old score opt) ver ttl isDup compressType)
    have hput : ({ s with tables } : Hustdb).putTarget md5 cfg (tableTarget table .zsetIn key) offset
        (printLi (newScore old score opt)) ver ttl isDup compressType 0 false =
      ({ s with tables } : Hustdb).putWrite md5 cfg (tableTarget table .zsetIn key) offset
        (memberWrite (newScore old score opt) ver ttl isDup compressType) := rfl
    rw [Run.exec_cons, Action.run, hput]
    generalize ({ s with tables } : Hustdb).putWrite md5 cfg (tableTarget table .zsetIn key) offset
        (memberWrite (newScore old score opt) ver ttl isDup compressType) = out at hnow ⊢
    obtain ⟨⟨_ | e, version, ctxt⟩, s'⟩ := out
    · have hnow : s'.now = s.now := hnow
      rw [if_pos rfl, exec_index hnow]
      dsimp only
      rcases s'.reindex md5 table key (printLi (newScore old score opt)) old
        (newScore old score opt) version compressType with ⟨_ | e, s''⟩ <;> rfl
    · rfl

theorem exec_scanDelActions (listing : Bytes) :
    Run.exec (Action.run md5 cfg) s (s.scanDelActions md5 cfg listing key) =
      s.scanDel md5 cfg listing key := by
  unfold scanDelActions scanDel
  generalize scanTable listing = table
  generalize scanType listing = type
  dsimp only
  split
  · exact exec_delActions 0 false
  split
  · exact exec_hdelActions 0 false
  split
  · exact exec_sremActions 0 false
  split
  · exact exec_zremActions 0 false
  · rfl

theorem exec_entryActions (listing : Bytes) (entry : TtlEntry) :
    Run.exec (Action.run md5 cfg) s (s.entryActions md5 cfg listing entry) =
      s.scanEntry md5 cfg listing entry := by
  unfold entryActions scanEntry
  split
  · rfl
  split
  · rfl
  cases (s.storage.data.files entry.fileId).get? listing with
  | none => rfl
  | some v =>
    dsimp only
    rw [Run.exec_append, exec_scanDelActions]
    rfl

theorem exec_scanActions (page : List (Bytes × TtlEntry)) :
    Run.exec (Action.run md5 cfg) s (s.scanActions md5 cfg page) = s.scanLoop md5 cfg page := by
  induction page generalizing s with
  | nil => rfl
  | cons e page ih => rw [scanActions, Run.exec_append, exec_entryActions, ih, scanLoop]

end Hustdb

open Hustdb in
theorem Op.step_eq (md5 : Bytes → InnerKey) (cfg : Settings) (s : Hustdb) (op : Op) :
    op.step md5 cfg s = Run.exec (Action.run md5 cfg) s (op.actions md5 cfg s) := by
  cases op with
  | exist key => rfl
  | get key =>
    simp only [Op.step, Op.actions, hustdbGet]
    split <;> rfl
  | put key val ver ttl isDup compressType =>
    simp only [Op.step, Op.actions, hustdbPut]
    split
    · rfl
    · split <;> rfl
  | del key ver isDup => exact (exec_delActions ver isDup).symm
  | hget table key =>
    simp only [Op.step, Op.actions, hustdbHget, inTable]
    split
    · rfl
    · cases (s.tables.findTableOffset table false .hashTb).1 <;> rfl
  | hset table key val ver ttl isDup compressType =>
    simp only [Op.step, Op.actions, hustdbHset]
    split
    · rfl
    split
    · rfl
    rw [exec_writeTable]
    rcases s.tables.findTableOffset table true .hashTb with ⟨_ | offset, tables⟩ <;> rfl
  | hincrby table key score ver ttl isDup compressType =>
    simp only [Op.step, Op.actions, hustdbHincrby]
    split
    · rfl
    split
    · rfl
    rw [exec_writeTable]
    rcases s.tables.findTableOffset table true .hashTb with ⟨_ | offset, tables⟩
    · rfl
    have hread (t : Target) : ({ s with tables } : Hustdb).readCurrent md5 cfg t =
        s.readCurrent md5 cfg t := rfl
    dsimp only [hincrbyWrite]
    rw [hread]
    generalize s.readCurrent md5 cfg (tableTarget table .hashTb key) = cur
    obtain ⟨r, ver', rsp⟩ := cur
    dsimp only
    cases (if r = .ok then dbStrtoll rsp else some 0) with
    | none => rfl
    | some curScore =>
      show _ = (({ s with tables } : Hustdb).putWrite md5 cfg _ offset _).2
      dsimp only [putWrite]
      rcases ({ s with tables } : Hustdb).putTarget md5 cfg (tableTarget table .hashTb key) offset
        (printLi (wrap64 (score + curScore))) ver ttl isDup compressType 0 true with
        ⟨⟨_ | e, version, ctxt⟩, s'⟩ <;> rfl
  | hdel table key ver isDup => exact (exec_hdelActions ver isDup).symm
  | sadd table key ver ttl isDup compressType =>
    simp only [Op.step, Op.actions, hustdbSadd]
    split
    · rfl
    split
    · rfl
    rw [exec_writeTable]
    rcases s.tables.findTableOffset table true .setTb with ⟨_ | offset, tables⟩ <;> rfl
  | srem table key ver isDup => exact (exec_sremActions ver isDup).symm
  | zadd table key score opt ver ttl isDup compressType =>
    exact (exec_zaddActions score opt ver ttl isDup compressType).symm
  | zscore table key =>
    simp only [Op.step, Op.actions, hustdbZscore, inTable]
    split
    · rfl
    · cases (s.tables.findTableOffset table false .zsetTb).1 <;> rfl
  | zrem table key ver isDup => exact (exec_zremActions ver isDup).symm
  | messagePut queue priori tag item =>
    simp only [Op.step, Op.actions, Hustdb.messagePut]
    split
    · rfl
    · split <;> rfl
  | messageAck queue priori tag =>
    simp only [Op.step, Op.actions, Hustdb.messageAck]
    split <;> rfl
  | tick now => rfl
  | evict key => rfl
  | ttlScan size =>
    show s.ttlScan md5 cfg size = _
    rw [Op.actions, Run.exec_append, exec_scanActions]
    rfl
  | binlogPut key val => rfl
  | binlogDel key => rfl

/-! ### The calls of the store -/

namespace Hustdb

variable (md5 : Bytes → InnerKey) (cfg : Settings)

def putCall (s : Hustdb) (t : Target) (w : Write) : Call :=
  .put (s.query t.table (s.deathOf cfg w.ttl) w.compressType) t.key w.val w.ver w.isDup

def delCall (s : Hustdb) (t : Target) (ver : Nat) (isDup : Bool) : Call :=
  .del (s.query t.table 0 0) t.key ver isDup

def Drops (s : Hustdb) (t : Target) : Prop :=
  let reply := s.storage.get md5 (s.query t.table 0 0) t.key
  s.cached cfg t = none ∧ reply.r = .ok ∧ reply.kvData.ttl > 0 ∧ reply.kvData.ttl ≤ s.now

instance (s : Hustdb) (t : Target) : Decidable (s.Drops md5 cfg t) :=
  inferInstanceAs (Decidable (_ ∧ _ ∧ _ ∧ _))

end Hustdb

def Action.call (md5 : Bytes → InnerKey) (cfg : Settings) (s : Hustdb) : Action → Option Call
  | .fetch t _ => if s.Drops md5 cfg t then some (s.delCall t 0 false) else none
  | .put t _ w => some (s.putCall cfg t w)
  | .del t _ ver isDup _ => some (s.delCall t ver isDup)
  | .store c => some c
  | _ => none

end HustStore
