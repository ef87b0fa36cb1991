import HustStore.Hustdb.Action
import HustStore.Hustdb.TableIndex
import HustStore.Md5db.Contents

/-!
# What the actions aim at

Every record is filed in one of the tables that the operations use: none for a plain key, the name of the table
with the byte of its type, or the name and a score for an entry of the index of a sorted set.
-/

namespace HustStore

open Md5db

/-! ### Tables -/

def TableType.IsMember (type : TableType) : Prop := type = .hashTb ∨ type = .setTb ∨ type = .zsetIn

inductive ServerTable : Bytes → Prop
  | plain : ServerTable []
  | typed {name : Bytes} {type : TableType} (check : tbNameCheck name) (member : type.IsMember) :
      ServerTable (name ++ [type.code])
  | index {name : Bytes} (score : Int) (check : tbNameCheck name) :
      ServerTable (name ++ TableType.zsetTb.code :: printLi21 score)

theorem ne_nil_of_check {name : Bytes} (h : tbNameCheck name) : name ≠ [] := by
  rintro rfl
  cases h

theorem innerTable_of_check {name : Bytes} (h : tbNameCheck name) (type : TableType) (added : Bytes) :
    innerTable name type added = name ++ type.code :: added := if_neg (ne_nil_of_check h)

def Hustdb.HasTable (s : Hustdb) (table : Bytes) (type : TableType) : Prop :=
  ∃ i, s.tables.find table = some i ∧ (s.tables.stat i).type = type

instance (s : Hustdb) (table : Bytes) (type : TableType) : Decidable (s.HasTable table type) :=
  decidable_of_iff ((s.tables.find table).any fun i => (s.tables.stat i).type = type) (by
    unfold Hustdb.HasTable
    cases s.tables.find table <;> simp)

def TableType.IsCollection (type : TableType) : Prop := type = .hashTb ∨ type = .setTb ∨ type = .zsetTb

def TableType.inner : TableType → TableType
  | .zsetTb => .zsetIn
  | type => type

variable {type : TableType}

theorem TableType.IsCollection.ne_commonTb (h : type.IsCollection) : type ≠ .commonTb := by
  rcases h with rfl | rfl | rfl <;> decide

theorem TableType.IsCollection.code_ne (h : type.IsCollection) :
    type.inner.code ≠ TableType.zsetTb.code := by
  rcases h with rfl | rfl | rfl <;> decide

theorem TableType.IsCollection.inner_inj {type type' : TableType} (h : type.IsCollection)
    (h' : type'.IsCollection) (heq : type.inner.code = type'.inner.code) : type = type' := by
  rcases h with rfl | rfl | rfl <;> rcases h' with rfl | rfl | rfl <;> first | rfl | cases heq

namespace Hustdb

def memberTarget (name : Bytes) (type : TableType) (key : Bytes) : Target :=
  if type = .setTb then setTarget name key else tableTarget name type.inner key

theorem memberTarget_table {name : Bytes} (hcheck : tbNameCheck name) (type : TableType) (key : Bytes) :
    (memberTarget name type key).table = name ++ [type.inner.code] := by
  unfold memberTarget
  split_ifs with hset
  · rw [hset]
    exact innerTable_of_check hcheck _ _
  · exact innerTable_of_check hcheck _ _

theorem memberTarget_key (name : Bytes) (type : TableType) (key : Bytes) :
    (memberTarget name type key).key = key := by
  unfold memberTarget
  split_ifs <;> rfl

end Hustdb

open Hustdb

/-! ### Actions and their tables -/

inductive Aims (s : Hustdb) : Target → Nat → Bool → Prop
  | plain (key : Bytes) : Aims s (plainTarget key) 0 true
  | member {name : Bytes} {type : TableType} {i : Nat} {sized : Bool} (key : Bytes) (check : tbNameCheck name)
      (collection : type.IsCollection) (index : s.tables.find name = some i)
      (type_eq : (s.tables.stat i).type = type) (sized_eq : sized = decide (type = .hashTb)) :
      Aims s (memberTarget name type key) i sized

inductive Uncounted : Bytes → Prop
  | plain : Uncounted []
  | index {name : Bytes} (score : Int) (check : tbNameCheck name) :
      Uncounted (name ++ TableType.zsetTb.code :: printLi21 score)

def Action.Aimed (s : Hustdb) : Action → Prop
  | .openTable _ _ => False
  | .fetch t offset => Aims s t offset true
  | .put t offset w => Aims s t offset w.sized
  | .del t offset _ _ sized => Aims s t offset sized
  | .peek t => ∃ offset, Aims s t offset false
  | .store c => Uncounted c.address.table
  | .eraseTtl _ | .seek _ | .tick _ | .evict _ | .binlog _ => True

inductive Directed (md5 : Bytes → InnerKey) (cfg : Settings) (s : Hustdb) : List Action → Prop
  | aimed {actions : List Action} (h : Run.Guarded (Action.run md5 cfg) Action.Aimed s actions) :
      Directed md5 cfg s actions
  | opening {table : Bytes} {type : TableType} {rest : List Action} (collection : type.IsCollection)
      (h : Run.Guarded (Action.run md5 cfg) Action.Aimed (Action.run md5 cfg s (.openTable table type)) rest) :
      Directed md5 cfg s (.openTable table type :: rest)

variable {md5 : Bytes → InnerKey} {cfg : Settings} {s : Hustdb}

namespace Hustdb

variable {table key : Bytes}

theorem check_of_not {rest : Prop} (h : ¬((!tbNameCheck table) = true ∨ rest)) : tbNameCheck table := by
  cases hcheck : tbNameCheck table with
  | false => exact absurd (.inl (by rw [hcheck]; rfl)) h
  | true => rfl

variable {actions : Nat → List Action}

theorem aimed_inTable (htype : type.IsCollection)
    (h : ∀ i, s.tables.find table = some i → (s.tables.stat i).type = type →
      Run.Guarded (Action.run md5 cfg) Action.Aimed s (actions i)) :
    Run.Guarded (Action.run md5 cfg) Action.Aimed s (s.inTable table type actions) := by
  unfold inTable
  split
  · trivial
  next i hfound =>
    have hsame : (s.tables.findTableOffset table false type).2 = s.tables := by
      unfold Tables.findTableOffset
      cases s.tables.find table <;> rfl
    have hfind := Tables.find_of_findTableOffset htype.ne_commonTb hfound
    rw [hsame] at hfind
    exact h i hfind.1 hfind.2

theorem directed_ite {p : Prop} [Decidable p] {actions : List Action} (h : ¬p → Directed md5 cfg s actions) :
    Directed md5 cfg s (if p then [] else actions) := by
  split
  · exact .aimed trivial
  next hp => exact h hp

theorem directed_writeTable (htype : type.IsCollection)
    (h : ∀ (tables : Tables) (i : Nat), tables.find table = some i → (tables.stat i).type = type →
      Run.Guarded (Action.run md5 cfg) Action.Aimed { s with tables } (actions i)) :
    Directed md5 cfg s (s.writeTable table type actions) := by
  unfold writeTable
  split
  · exact .aimed trivial
  next i hfound =>
    obtain ⟨hfind, hstat⟩ := Tables.find_of_findTableOffset htype.ne_commonTb hfound
    exact .opening htype (h _ i hfind hstat)

section

variable (hcheck : tbNameCheck table) {i : Nat} (hfind : s.tables.find table = some i)
include hcheck hfind

theorem aims_hash (hstat : (s.tables.stat i).type = .hashTb) (key : Bytes) :
    Aims s (tableTarget table .hashTb key) i true :=
  .member key hcheck (.inl rfl) hfind hstat rfl

theorem aims_set (hstat : (s.tables.stat i).type = .setTb) (key : Bytes) : Aims s (setTarget table key) i false :=
  .member key hcheck (.inr (.inl rfl)) hfind hstat rfl

theorem aims_zset (hstat : (s.tables.stat i).type = .zsetTb) (key : Bytes) :
    Aims s (tableTarget table .zsetIn key) i false :=
  .member key hcheck (.inr (.inr rfl)) hfind hstat rfl

end

theorem uncounted_index (hcheck : tbNameCheck table) (score : Int) :
    Uncounted (innerTable table .zsetTb (printLi21 score)) := by
  rw [innerTable_of_check hcheck]
  exact .index score hcheck

theorem aimed_delActions (ver : Nat) (isDup : Bool) :
    Run.Guarded (Action.run md5 cfg) Action.Aimed s (delActions key ver isDup) := by
  unfold delActions
  split
  · trivial
  · exact ⟨.plain key, trivial⟩

theorem aimed_hdelActions (ver : Nat) (isDup : Bool) :
    Run.Guarded (Action.run md5 cfg) Action.Aimed s (s.hdelActions table key ver isDup) := by
  unfold hdelActions
  split
  · trivial
  next h =>
    refine aimed_inTable (.inl rfl) fun i hfind hstat => ⟨?_, trivial⟩
    exact aims_hash (check_of_not h) hfind hstat key

theorem aimed_sremActions (ver : Nat) (isDup : Bool) :
    Run.Guarded (Action.run md5 cfg) Action.Aimed s (s.sremActions table key ver isDup) := by
  unfold sremActions
  split
  · trivial
  next h =>
    refine aimed_inTable (.inr (.inl rfl)) fun i hfind hstat => ⟨?_, trivial⟩
    exact aims_set (check_of_not h) hfind hstat key

theorem aimed_zremActions (ver : Nat) (isDup : Bool) :
    Run.Guarded (Action.run md5 cfg) Action.Aimed s (s.zremActions md5 cfg table key ver isDup) := by
  unfold zremActions
  split
  · trivial
  next h =>
    refine aimed_inTable (.inr (.inr rfl)) fun i hfind hstat => ?_
    dsimp only
    split
    · trivial
    next score _ =>
      refine ⟨aims_zset (check_of_not h) hfind hstat key, ?_⟩
      split
      · exact ⟨uncounted_index (check_of_not h) score, trivial⟩
      · trivial

theorem directed_zaddActions (score opt : Int) (ver ttl : Nat) (isDup : Bool) (compressType : Nat) :
    Directed md5 cfg s (s.zaddActions md5 cfg table key score opt ver ttl isDup compressType) := by
  refine directed_ite fun h => directed_ite fun _ => ?_
  have hcheck := check_of_not h
  refine directed_writeTable (.inr (.inr rfl)) fun tables i hfind hstat => ?_
  dsimp only
  split
  · trivial
  split
  · trivial
  next old _ _ =>
    refine ⟨aims_zset hcheck hfind hstat key, ?_⟩
    split
    · cases old with
      | none => exact ⟨uncounted_index hcheck _, trivial⟩
      | some oldScore => exact ⟨uncounted_index hcheck oldScore, uncounted_index hcheck _, trivial⟩
    · trivial

theorem aimed_scanDelActions (listing : Bytes) :
    Run.Guarded (Action.run md5 cfg) Action.Aimed s (s.scanDelActions md5 cfg listing key) := by
  unfold scanDelActions
  generalize scanTable listing = table
  generalize scanType listing = type
  dsimp only
  split
  · exact aimed_delActions 0 false
  split
  · exact aimed_hdelActions 0 false
  split
  · exact aimed_sremActions 0 false
  split
  · exact aimed_zremActions 0 false
  · trivial

theorem aimed_entryActions (listing : Bytes) (entry : TtlEntry) :
    Run.Guarded (Action.run md5 cfg) Action.Aimed s (s.entryActions md5 cfg listing entry) := by
  unfold entryActions
  split
  · trivial
  split
  · exact ⟨trivial, trivial⟩
  split
  · exact ⟨trivial, trivial⟩
  · exact (Run.guarded_append _).mpr ⟨aimed_scanDelActions listing, trivial, trivial⟩

theorem aimed_scanActions (page : List (Bytes × TtlEntry)) :
    Run.Guarded (Action.run md5 cfg) Action.Aimed s (s.scanActions md5 cfg page) := by
  induction page generalizing s with
  | nil => trivial
  | cons e page ih =>
    refine (Run.guarded_append _).mpr ⟨aimed_entryActions e.1 e.2, ?_⟩
    rw [exec_entryActions]
    exact ih

end Hustdb

theorem Op.directed (md5 : Bytes → InnerKey) (cfg : Settings) (s : Hustdb) (op : Op) :
    Directed md5 cfg s (op.actions md5 cfg s) := by
  cases op with
  | exist key => exact .aimed trivial
  | get key => exact directed_ite fun _ => .aimed ⟨.plain key, trivial⟩
  | put key val ver ttl isDup compressType =>
    exact directed_ite fun _ => directed_ite fun _ => .aimed ⟨.plain key, trivial⟩
  | del key ver isDup => exact .aimed (aimed_delActions ver isDup)
  | hget table key =>
    refine directed_ite fun h => .aimed (aimed_inTable (.inl rfl) fun i hfind hstat => ⟨?_, trivial⟩)
    exact aims_hash (check_of_not h) hfind hstat key
  | hset table key val ver ttl isDup compressType =>
    refine directed_ite fun h => directed_ite fun _ => ?_
    refine directed_writeTable (.inl rfl) fun tables i hfind hstat => ⟨?_, trivial⟩
    exact aims_hash (check_of_not h) hfind hstat key
  | hincrby table key score ver ttl isDup compressType =>
    refine directed_ite fun h => directed_ite fun _ => ?_
    refine directed_writeTable (.inl rfl) fun tables i hfind hstat => ?_
    cases hwrite : s.hincrbyWrite md5 cfg table key score ver ttl isDup compressType with
    | none => trivial
    | some w =>
      obtain ⟨_, -, rfl⟩ := Option.map_eq_some_iff.mp hwrite
      exact ⟨aims_hash (check_of_not h) hfind hstat key, trivial⟩
  | hdel table key ver isDup => exact .aimed (aimed_hdelActions ver isDup)
  | sadd table key ver ttl isDup compressType =>
    refine directed_ite fun h => directed_ite fun _ => ?_
    refine directed_writeTable (.inr (.inl rfl)) fun tables i hfind hstat => ⟨?_, trivial⟩
    exact aims_set (check_of_not h) hfind hstat key
  | srem table key ver isDup => exact .aimed (aimed_sremActions ver isDup)
  | zadd table key score opt ver ttl isDup compressType =>
    exact directed_zaddActions score opt ver ttl isDup compressType
  | zscore table key =>
    refine directed_ite fun h => .aimed (aimed_inTable (.inr (.inr rfl)) fun i hfind hstat => ⟨⟨i, ?_⟩, trivial⟩)
    exact aims_zset (check_of_not h) hfind hstat key
  | zrem table key ver isDup => exact .aimed (aimed_zremActions ver isDup)
  | messagePut queue priori tag item =>
    exact directed_ite fun _ => directed_ite fun _ => .aimed ⟨.plain, trivial⟩
  | messageAck queue priori tag => exact directed_ite fun _ => .aimed ⟨.plain, trivial⟩
  | tick now => exact .aimed ⟨trivial, trivial⟩
  | evict key => exact .aimed ⟨trivial, trivial⟩
  | ttlScan size => exact .aimed ((Run.guarded_append _).mpr ⟨aimed_scanActions _, trivial, trivial⟩)
  | binlogPut key val => exact .aimed ⟨trivial, trivial⟩
  | binlogDel key => exact .aimed ⟨trivial, trivial⟩

/-! ### The calls of the store -/

theorem TableType.IsCollection.isMember (h : type.IsCollection) : type.inner.IsMember := by
  rcases h with rfl | rfl | rfl
  · exact .inl rfl
  · exact .inr (.inl rfl)
  · exact .inr (.inr rfl)

variable {a : Action} {actions : List Action}

theorem Aims.serverTable {t : Target} {offset : Nat} {sized : Bool} (h : Aims s t offset sized) :
    ServerTable t.table := by
  cases h with
  | plain key => exact .plain
  | @member name type _ _ key hcheck htype _ _ _ =>
    rw [memberTarget_table hcheck]
    exact .typed hcheck htype.isMember

theorem Uncounted.serverTable {filed : Bytes} (h : Uncounted filed) : ServerTable filed := by
  cases h with
  | plain => exact .plain
  | index score hcheck => exact .index score hcheck

theorem Action.Aimed.serverTable (h : a.Aimed s) : ∀ c ∈ a.call md5 cfg s, ServerTable c.address.table := by
  intro c hc
  cases a with
  | fetch t offset =>
    simp only [Action.call] at hc
    split_ifs at hc
    · cases hc
      exact Aims.serverTable h
    · cases hc
  | put t offset w =>
    cases hc
    exact Aims.serverTable h
  | del t offset ver isDup sized =>
    cases hc
    exact Aims.serverTable h
  | store c' =>
    cases hc
    exact Uncounted.serverTable h
  | openTable _ _ => cases hc
  | peek _ => cases hc
  | eraseTtl _ => cases hc
  | seek _ => cases hc
  | tick _ => cases hc
  | evict _ => cases hc
  | binlog _ => cases hc

theorem Directed.guarded {guard : Hustdb → Action → Prop} (h : Directed md5 cfg s actions)
    (haimed : ∀ s a, a.Aimed s → guard s a) (hopen : ∀ s table type, guard s (.openTable table type)) :
    Run.Guarded (Action.run md5 cfg) guard s actions := by
  cases h with
  | aimed h => exact h.mono haimed
  | opening _ h => exact ⟨hopen _ _ _, h.mono haimed⟩

theorem Op.serverTable (md5 : Bytes → InnerKey) (cfg : Settings) (s : Hustdb) (op : Op) :
    Run.Guarded (Action.run md5 cfg) (fun s a => ∀ c ∈ a.call md5 cfg s, ServerTable c.address.table) s
      (op.actions md5 cfg s) :=
  (op.directed md5 cfg s).guarded (fun _ _ haimed => haimed.serverTable) fun _ _ _ _ hc => by cases hc

end HustStore
