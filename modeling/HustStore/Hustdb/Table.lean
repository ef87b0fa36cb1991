import HustStore.Base

/-!
# The table index

The index file of the tables: one statistics record for each table, after two records for the plain keys and for
all hash tables. `m_table_map` finds the record of a name.
-/

namespace HustStore

inductive TableType
  | queueTb
  | pushqTb
  | kvAll
  | zsetIn
  | commonTb
  | hashTb
  | setTb
  | zsetTb
  deriving DecidableEq, Repr

def TableType.code : TableType → UInt8
  | .queueTb => 0
  | .pushqTb => 1
  | .kvAll => 2
  | .zsetIn => 3
  | .commonTb => 4
  | .hashTb => 33
  | .setTb => 35
  | .zsetTb => 124

def maxQueueNameLen : Nat := 64

def isNameChar (b : UInt8) : Bool :=
  let c := b.toNat
  (48 ≤ c && c ≤ 57) || (97 ≤ c && c ≤ 122) || (65 ≤ c && c ≤ 90) || c = 95 || c = 58 || c = 46

def tbNameCheck (name : Bytes) : Bool :=
  0 < name.length && name.length ≤ maxQueueNameLen && name.all isNameChar

structure TableStat where
  count : Int
  size : Int
  capacity : Int
  flag : Bool
  type : TableType
  table : Bytes
  deriving DecidableEq, Repr

def TableStat.reset : TableStat := ⟨0, 0, 0, false, .queueTb, []⟩

structure TableReport where
  count : Int
  sizes : Option (Int × Int)
  deriving DecidableEq, Repr

def TableStat.report (t : TableStat) (sized : Bool) : TableReport :=
  ⟨t.count, if sized then some (t.size, t.capacity) else none⟩

/-- The table index: the records of the file. -/
abbrev Tables := List TableStat

namespace Tables

def create (maximum : Nat) : Tables := List.replicate maximum .reset

def find (ts : Tables) (table : Bytes) : Option Nat :=
  ((ts.drop 2).findIdx? fun t => t.flag && t.table = table).map (· + 2)

def stat (ts : Tables) (offset : Nat) : TableStat := ts.getD offset .reset

def findTableOffset (ts : Tables) (table : Bytes) (create : Bool) (type : TableType) :
    Option Nat × Tables :=
  match ts.find table with
  | some offset =>
    (if type ≠ .commonTb ∧ (ts.stat offset).type ≠ type then none else some offset, ts)
  | none =>
    if !create then (none, ts)
    else
      match (ts.drop 2).findIdx? fun t => !t.flag with
      | none => (none, ts)
      | some i => (some (i + 2), ts.set (i + 2) ⟨0, 0, 0, true, type, table⟩)

def statPage : Int := 1024

def pagesOf (size : Int) : Int :=
  let absSize : Int := size.natAbs
  (absSize / statPage + if absSize % statPage > 0 then 1 else 0) * statPage *
    if size > 0 then 1 else -1

def add (t : TableStat) (count size : Int) : TableStat :=
  if size = 0 then { t with count := t.count + count }
  else { t with count := t.count + count, size := t.size + size,
                capacity := t.capacity + pagesOf size }

def setTableMeta (ts : Tables) (offset : Nat) (count size : Int) : Tables :=
  let ts : Tables := ts.set offset (add (ts.stat offset) count size)
  let ts : Tables := if size ≠ 0 ∧ offset ≥ 2 then ts.set 1 (add (ts.stat 1) count size) else ts
  if (ts.stat offset).count ≤ 0 ∧ offset ≥ 2 ∧ (ts.find (ts.stat offset).table).isSome then
    ts.set offset .reset
  else ts

end Tables

end HustStore
