import HustStore.Hustdb.Contents
import HustStore.Lib.Tally
import HustStore.Md5db.Listing

/-!
# Accounts of the tables

The index keeps for every table the number of its members, and for hash tables also the sum of the lengths of
their keys and values and of the pages that these take.
-/

namespace HustStore

open Md5db Hustdb

/-! ### The members of a table -/

/-- The members of a table of one type. -/
def row (m : RecMap) (table : Bytes) (type : TableType) (key : Bytes) : Option Rec :=
  m ⟨table ++ [type.inner.code], key⟩

def Beside (table : Bytes) (filed : Bytes) : Prop :=
  ∀ type : TableType, type.IsCollection → filed ≠ table ++ [type.inner.code]

theorem row_congr {m m' : RecMap} {a : Address} {table : Bytes} (hbeside : Beside table a.table)
    (hm : ∀ b, b ≠ a → m' b = m b) {type : TableType} (htype : type.IsCollection) (key : Bytes) :
    row m' table type key = row m table type key := by
  apply hm
  rintro rfl
  exact hbeside type htype rfl

theorem row_update {m : RecMap} {table key : Bytes} {type : TableType} {o : Option Rec} :
    row (Function.update m ⟨table ++ [type.inner.code], key⟩ o) table type =
      Function.update (row m table type) key o := by
  funext key'
  by_cases hkey : key' = key
  · rw [hkey, row, Function.update_self, Function.update_self]
  · rw [row, Function.update_of_ne hkey, Function.update_of_ne (fun heq => hkey (Address.mk.inj heq).2), row]

theorem row_update_of_ne {m : RecMap} {table key : Bytes} {type type' : TableType} {o : Option Rec}
    (htype : type.IsCollection) (htype' : type'.IsCollection) (hne : type' ≠ type) :
    row (Function.update m ⟨table ++ [type.inner.code], key⟩ o) table type' = row m table type' := by
  funext key'
  refine Function.update_of_ne (fun heq => ?_) _ _
  have hcode := List.append_cancel_left (Address.mk.inj heq).1
  exact hne (htype'.inner_inj htype (List.cons.inj hcode).1)

def sizeOf (sized : Bool) (key : Bytes) (r : Rec) : ℤ := if sized then key.length + r.val.length else 0

/-- The statistics are the totals over the members. The sizes of a hash table are so only while its values keep
their lengths. -/
structure Tallies (keeps : Prop) (type : TableType) (row : Bytes → Option Rec) (stat : TableStat) : Prop where
  count : Tally.Totals (fun _ _ => 1) row stat.count
  size : (type = .hashTb → keeps) → Tally.Totals (sizeOf (type = .hashTb)) row stat.size
  capacity : (type = .hashTb → keeps) →
    Tally.Totals (fun key r => Tables.pagesOf (sizeOf (type = .hashTb) key r)) row stat.capacity

/-- A table that the index has is of one type, and its statistics are those of its members; one that it has
not is empty. -/
def Accounts (keeps : Prop) (m : RecMap) (table : Bytes) : Option TableStat → Prop
  | none => ∀ type : TableType, type.IsCollection → ∀ key, row m table type key = none
  | some stat => ∃ type : TableType, stat.type = type ∧ type.IsCollection ∧
      Tallies keeps type (row m table type) stat ∧
      ∀ other : TableType, other.IsCollection → other ≠ type → ∀ key, row m table other key = none

section Accounts

variable {keeps : Prop} {m m' : RecMap} {table key : Bytes} {type : TableType} {stat : TableStat}
  {o : Option TableStat} {r old : Rec}

theorem Accounts.congr (h : Accounts keeps m table o)
    (hrow : ∀ type : TableType, type.IsCollection → ∀ key, row m' table type key = row m table type key) :
    Accounts keeps m' table o := by
  cases o with
  | none =>
    intro type htype key
    rw [hrow type htype key]
    exact h type htype key
  | some stat =>
    obtain ⟨type, hstat, htype, htallies, hothers⟩ := h
    refine ⟨type, hstat, htype, ?_, fun other hother hne key => ?_⟩
    · rwa [show row m' table type = row m table type from funext (hrow _ htype)]
    · rw [hrow other hother key]
      exact hothers other hother hne key

theorem Tallies.count_nonneg {row : Bytes → Option Rec} (h : Tallies keeps type row stat) :
    0 ≤ stat.count := by
  obtain ⟨keys, hcovers, -⟩ := h.count
  rw [h.count.eq_card hcovers]
  exact Int.natCast_nonneg _

theorem Accounts.opened (h : Accounts keeps m table none) (htype : type.IsCollection) :
    Accounts keeps m table (some ⟨0, 0, 0, true, type, table⟩) :=
  ⟨type, rfl, htype, ⟨Tally.totals_empty (h type htype), fun _ => Tally.totals_empty (h type htype),
    fun _ => Tally.totals_empty (h type htype)⟩, fun other hother _ => h other hother⟩

theorem Accounts.update {stat' : TableStat} {o : Option Rec} (h : Accounts keeps m table (some stat))
    (htype : stat.type = type) (htype' : stat'.type = type)
    (htallies : Tallies keeps type (row m table type) stat →
      Tallies keeps type (Function.update (row m table type) key o) stat') :
    Accounts keeps (Function.update m ⟨table ++ [type.inner.code], key⟩ o) table (some stat') := by
  obtain ⟨-, rfl, hcollection, hold, hothers⟩ := h
  subst htype
  refine ⟨stat.type, htype', hcollection, ?_, fun other hother hne key => ?_⟩
  · rw [row_update]
    exact htallies hold
  · rw [row_update_of_ne hcollection hother hne]
    exact hothers other hother hne key

section

variable (h : Accounts keeps m table (some stat))
include h

theorem Accounts.insert (htype : stat.type = type) (hkey : row m table type key = none) :
    Accounts keeps (Function.update m ⟨table ++ [type.inner.code], key⟩ (some r)) table
      (some (Tables.add stat 1 (sizeOf (type = .hashTb) key r))) := by
  apply h.update htype (by rw [Tables.add_type, htype])
  intro htallies
  refine ⟨?_, fun hkeeps => ?_, fun hkeeps => ?_⟩
  · rw [Tables.add_count]
    exact htallies.count.insert hkey
  · rw [Tables.add_size]
    exact (htallies.size hkeeps).insert hkey
  · rw [Tables.add_capacity]
    exact (htallies.capacity hkeeps).insert hkey

theorem Accounts.replace (htype : stat.type = type) (hkey : row m table type key = some old)
    (hlength : type = .hashTb → keeps → r.val.length = old.val.length) :
    Accounts keeps (Function.update m ⟨table ++ [type.inner.code], key⟩ (some r)) table (some stat) := by
  have hsize (hkeeps : type = .hashTb → keeps) : sizeOf (type = .hashTb) key r = sizeOf (type = .hashTb) key old := by
    unfold sizeOf
    split_ifs with hhash
    · have hhash := of_decide_eq_true hhash
      rw [hlength hhash (hkeeps hhash)]
    · rfl
  apply h.update htype htype
  intro htallies
  refine ⟨htallies.count.replace hkey rfl, fun hkeeps => ?_, fun hkeeps => ?_⟩
  · exact (htallies.size hkeeps).replace hkey (hsize hkeeps)
  · exact (htallies.capacity hkeeps).replace hkey (congrArg Tables.pagesOf (hsize hkeeps))

theorem Accounts.erase_some (htype : stat.type = type) (hkey : row m table type key = some old) :
    Accounts keeps (Function.update m ⟨table ++ [type.inner.code], key⟩ none) table
      (some (Tables.add stat (-1) (-sizeOf (type = .hashTb) key old))) := by
  apply h.update htype (by rw [Tables.add_type, htype])
  intro htallies
  refine ⟨?_, fun hkeeps => ?_, fun hkeeps => ?_⟩
  · rw [Tables.add_count]
    exact htallies.count.erase hkey
  · rw [Tables.add_size]
    exact (htallies.size hkeeps).erase hkey
  · rw [Tables.add_capacity, Tables.pagesOf_neg]
    exact (htallies.capacity hkeeps).erase hkey

theorem Accounts.of_count_le (hcount : stat.count ≤ 0) :
    Accounts keeps m table none := by
  obtain ⟨type, -, htype, htallies, hothers⟩ := h
  intro other hother key
  by_cases hne : other = type
  · subst hne
    obtain ⟨keys, hcovers, -⟩ := htallies.count
    have hcard := htallies.count.eq_card hcovers
    have hempty : keys = ∅ := by
      rw [← Finset.card_eq_zero]
      omega
    have hnone := hcovers key
    rw [hempty] at hnone
    simpa using hnone
  · exact hothers other hother hne key

theorem Accounts.erase (htype : stat.type = type) (hkey : row m table type key = some old) :
    Accounts keeps (Function.update m ⟨table ++ [type.inner.code], key⟩ none) table (if stat.count + -1 ≤ 0 then none
        else some (Tables.add stat (-1) (-sizeOf (type = .hashTb) key old))) := by
  have herased := h.erase_some htype hkey
  split_ifs with hlast
  · exact herased.of_count_le (by rwa [Tables.add_count])
  · exact herased

end

end Accounts

/-! ### What an operation on a record does to the map and the index -/

/-- The record is kept, inserted, replaced or erased, and the statistics follow except at a replacement. -/
inductive Moves (same : Prop) (m : RecMap) (ts : Tables) (a : Address) (offset : Nat) (sized : Bool) :
    RecMap → Tables → Prop
  | keep : Moves same m ts a offset sized m ts
  | insert {r : Rec} (absent : m a = none) : Moves same m ts a offset sized (Function.update m a (some r))
        (ts.setTableMeta offset 1 (sizeOf sized a.key r))
  | replace {old r : Rec} (present : m a = some old) (length_eq : same → r.val.length = old.val.length) :
      Moves same m ts a offset sized (Function.update m a (some r)) ts
  | erase {old : Rec} (present : m a = some old) : Moves same m ts a offset sized (Function.update m a none)
        (ts.setTableMeta offset (-1) (-sizeOf sized a.key old))

namespace Hustdb

variable {md5 : Bytes → InnerKey} {cfg : Settings} {used : Set Address} {s : Hustdb} {dir : Directory}
  {m : RecMap} {same : Prop}

section

variable (h : s.storage.Holds False md5 used dir m) (hinj : Set.InjOn (Address.digest md5) used)
include h hinj

variable {t : Target}

theorem moves_putWrite {w : Write} (ha : t.address ∈ used) (hsound : (s.putCall cfg t w).Sound md5 s.storage)
    (hsame : same → ∀ old, m t.address = some old → Db.Accepts w.ver w.isDup old.version →
      w.val.length = old.val.length) (offset : Nat) :
    ∃ dir' m', (s.putWrite md5 cfg t offset w).2.storage.Holds False md5 used dir' m' ∧
      Moves same m s.tables t.address offset w.sized m' (s.putWrite md5 cfg t offset w).2.tables := by
  obtain ⟨dir', m', h', hresult⟩ := h.put hinj ha rfl hsound
  refine ⟨dir', m', ?_, ?_⟩
  · rw [storage_putWrite]
    exact h'
  · unfold putWrite putTarget
    simp only [Target.address] at hresult ⊢
    generalize s.storage.put md5 (s.query t.table (s.deathOf cfg w.ttl) w.compressType) t.key w.val w.ver
      w.isDup = out at hresult ⊢
    obtain ⟨reply, db⟩ := out
    cases hresult with
    | invalid _ => exact .keep
    | failed _ _ => exact .keep
    | @refused r ctxt _ _ hflag =>
      cases w.isDup with
      | false => exact .keep
      | true =>
        have hnot : ¬(ctxt.kvType = .newKv ∧ (!ctxt.isVersionError) = true) := by simp [hflag]
        rw [if_pos rfl]
        dsimp only
        rw [if_neg hnot]
        exact .keep
    | inserted habsent hreport =>
      dsimp only
      rw [if_pos ⟨hreport.kind_eq, by rw [hreport.flag]; rfl⟩]
      exact .insert habsent
    | @updated old ctxt hpresent haccept hreport =>
      dsimp only
      rw [if_neg (by simp [hreport.kind_eq])]
      exact .replace hpresent fun hs => hsame hs old hpresent haccept

theorem moves_delTarget {ver : Nat} {isDup : Bool}
    (ha : t.address ∈ used) (hsound : (s.delCall t ver isDup).Sound md5 s.storage) (cfg : Settings) (offset : Nat)
    (sized : Bool) :
    ∃ dir' m', (s.delTarget md5 cfg t offset ver isDup sized).2.storage.Holds False md5 used dir' m' ∧
      Moves same m s.tables t.address offset sized m' (s.delTarget md5 cfg t offset ver isDup sized).2.tables := by
  obtain ⟨dir', m', h', hresult⟩ := h.del hinj ha rfl hsound.1 False.elim
  refine ⟨dir', m', by rw [storage_delTarget]; exact h', ?_⟩
  unfold delTarget
  simp only [Target.address] at hresult ⊢
  generalize s.storage.del md5 (s.query t.table 0 0) t.key ver isDup = out at hresult ⊢
  obtain ⟨reply, db⟩ := out
  cases hresult with
  | invalid _ => exact .keep
  | absent _ _ => exact .keep
  | refused _ _ hflag =>
    cases isDup with
    | false => exact .keep
    | true =>
      rw [if_pos rfl]
      dsimp only
      rw [if_pos hflag]
      exact .keep
  | @removed old ctxt hpresent haccept hreport =>
    have hsize : (ctxt.kvData.ttl : ℤ) - KvDataItem.size = sizeOf true t.key old := by
      rw [hreport.2, Rec.bytes, Db.length_recordBytes, sizeOf, if_pos rfl]
      push_cast
      omega
    have hmeta : (if sized = true then s.releaseMeta offset ctxt else s.tables.setTableMeta offset (-1) 0) =
        s.tables.setTableMeta offset (-1) (-sizeOf sized t.key old) := by
      cases sized with
      | true => rw [if_pos rfl, releaseMeta, if_neg (by rw [hreport.1]; simp), hsize]
      | false => rfl
    dsimp only
    rw [if_neg (by rw [hreport.1]; simp), hmeta]
    exact .erase hpresent

omit h hinj in
theorem dropDead_tables (cfg : Settings) (offset : Nat) : (s.dropDead md5 t offset).2.tables =
      (s.delTarget md5 cfg t offset 0 false true).2.tables := by
  unfold dropDead delTarget releaseMeta
  rcases s.storage.del md5 (s.query t.table 0 0) t.key 0 false with ⟨⟨_ | e, version, _ | ctxt⟩, db⟩
  · rfl
  · dsimp only
    rw [if_pos rfl]
    split_ifs <;> rfl
  · rfl
  · rfl

theorem moves_dropDead (ha : t.address ∈ used) (hsound : (s.delCall t 0 false).Sound md5 s.storage) (offset : Nat) :
    ∃ dir' m', (s.dropDead md5 t offset).2.storage.Holds False md5 used dir' m' ∧
      Moves same m s.tables t.address offset true m' (s.dropDead md5 t offset).2.tables := by
  rw [dropDead_tables ⟨false, 0⟩, storage_dropDead, ← storage_delTarget md5 ⟨false, 0⟩ s t offset 0 false true]
  exact moves_delTarget h hinj ha hsound ⟨false, 0⟩ offset true

end

end Hustdb

end HustStore
