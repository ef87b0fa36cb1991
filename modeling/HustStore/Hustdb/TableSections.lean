import HustStore.Hustdb.TableIndex
import HustStore.Lib.Run
import HustStore.Lib.Threads
import Mathlib.Data.Finset.Card

/-!
# Calls on tables that run at the same time

A call that writes to a table runs in sections.
-/

namespace HustStore

/-! ### Sections -/

namespace Tables

variable {ts : Tables} {i j : Nat} {name other : Bytes} {type : TableType}

inductive Lookup
  | found (offset : Nat)
  | refused
  | absent
  deriving DecidableEq, Repr

def lookup (ts : Tables) (table : Bytes) (type : TableType) : Lookup :=
  match ts.find table with
  | some offset =>
    if type ≠ .commonTb ∧ (ts.stat offset).type ≠ type then .refused else .found offset
  | none => .absent

def createTable (ts : Tables) (table : Bytes) (type : TableType) : Option Nat × Tables :=
  match ts.find table with
  | some offset => (some offset, ts)
  | none =>
    match (ts.drop 2).findIdx? fun t => !t.flag with
    | none => (none, ts)
    | some i => (some (i + 2), ts.set (i + 2) ⟨0, 0, 0, true, type, table⟩)

def addMeta (ts : Tables) (offset : Nat) (count size : Int) : Tables :=
  let ts : Tables := ts.set offset (add (ts.stat offset) count size)
  if size ≠ 0 ∧ offset ≥ 2 then ts.set 1 (add (ts.stat 1) count size) else ts

def isEmptied (ts : Tables) (offset : Nat) : Bool := (ts.stat offset).count ≤ 0 && offset ≥ 2

def releaseTable (ts : Tables) (offset : Nat) : Tables :=
  if (ts.find (ts.stat offset).table).isSome then ts.set offset .reset else ts

theorem findTableOffset_eq_sections (ts : Tables) (table : Bytes) (create : Bool) (type : TableType) :
    ts.findTableOffset table create type =
      match ts.lookup table type with
      | .found offset => (some offset, ts)
      | .refused => (none, ts)
      | .absent => if create then ts.createTable table type else (none, ts) := by
  unfold findTableOffset lookup createTable
  cases ts.find table with
  | some offset =>
    dsimp only
    split_ifs <;> rfl
  | none => cases create <;> rfl

theorem setTableMeta_eq_sections (ts : Tables) (offset : Nat) (count size : Int) : ts.setTableMeta offset count size =
      let ts := ts.addMeta offset count size
      if ts.isEmptied offset then ts.releaseTable offset else ts := by
  change (if (Tables.stat (ts.addMeta offset count size) offset).count ≤ 0 ∧ offset ≥ 2 ∧
      (find (ts.addMeta offset count size) (Tables.stat (ts.addMeta offset count size) offset).table).isSome then
    (ts.addMeta offset count size).set offset .reset else ts.addMeta offset count size) = _
  simp only [isEmptied, releaseTable, Bool.and_eq_true, decide_eq_true_eq, ← ite_and, and_assoc]

/-! #### What a section does to the slots -/

theorem lookup_eq_found (htype : type ≠ .commonTb) (h : ts.lookup name type = .found i) :
    ts.InUse name i ∧ (ts.stat i).type = type := by
  unfold lookup at h
  cases hfind : ts.find name with
  | none => simp [hfind] at h
  | some j =>
    simp only [hfind] at h
    split_ifs at h with hother
    cases h
    exact ⟨inUse_of_find hfind, by_contra fun hne => hother ⟨htype, hne⟩⟩

theorem createTable_cases (ts : Tables) (name : Bytes) (type : TableType) :
    (∃ i, ts.find name = some i ∧ ts.createTable name type = (some i, ts)) ∨
    ts.createTable name type = (none, ts) ∨
    ∃ i, (∀ j, ¬ ts.InUse name j) ∧ ts.Writable name i ∧
      ts.createTable name type = (some i, ts.set i ⟨0, 0, 0, true, type, name⟩) := by
  cases hfind : ts.find name with
  | some i => exact .inl ⟨i, rfl, by simp only [createTable, hfind]⟩
  | none =>
    have heq : ts.createTable name type = ts.findTableOffset name true type := by
      simp only [findTableOffset_eq_sections, lookup, hfind, if_true]
    rcases findTableOffset_cases ts name type with ⟨hsame, hfound⟩ | ⟨hnone, i, hwritable, hset⟩
    · refine .inr (.inl (heq.trans (Prod.ext ?_ hsame)))
      cases hresult : (ts.findTableOffset name true type).1 with
      | none => rfl
      | some j => simp [hfind] at hfound; exact absurd hresult (hfound j)
    · exact .inr (.inr ⟨i, entry_eq_none.mp hnone, hwritable, heq.trans hset⟩)

theorem Writable.not_inUse (h : ts.Writable name i) (hnone : ∀ j, ¬ ts.InUse name j)
    (hother : ts.InUse other i) : False :=
  hnone i ⟨h.two_le, hother.flag, h.own hother.flag⟩

theorem Writable.inUse_set_iff (h : ts.Writable name i) (hnone : ∀ j, ¬ ts.InUse name j) :
    InUse (ts.set i ⟨0, 0, 0, true, type, name⟩) other j ↔ j = i ∧ other = name ∨ ts.InUse other j := by
  by_cases hji : j = i
  · subst hji
    constructor
    · intro hj
      refine .inl ⟨rfl, ?_⟩
      rw [← hj.table, stat_set_self h.lt_length]
    · rintro (⟨-, rfl⟩ | hj)
      · exact h.inUse_set rfl rfl
      · exact absurd (h.not_inUse hnone hj) id
  · rw [inUse_set_of_ne (Ne.symm hji)]
    simp [hji]

theorem stat_addMeta (hi : ts.InUse name i) (hj : 2 ≤ j) (count size : Int) :
    (ts.addMeta i count size).stat j = if j = i then add (ts.stat i) count size else ts.stat j := by
  have hset : stat (ts.set i (add (ts.stat i) count size)) j =
      if j = i then add (ts.stat i) count size else ts.stat j := by
    split_ifs with hji
    · rw [hji, stat_set_self hi.lt_length]
    · exact stat_set_of_ne (Ne.symm hji)
  unfold addMeta
  simp only
  split_ifs with hsize hji
  · rw [stat_set_of_ne (by omega), hset, if_pos hji]
  · rw [stat_set_of_ne (by omega), hset, if_neg hji]
  all_goals simp_all

theorem inUse_addMeta (hi : ts.InUse name i) (count size : Int) :
    (ts.addMeta i count size).InUse other j ↔ ts.InUse other j := by
  have hstat (hj : 2 ≤ j) : ((ts.addMeta i count size).stat j).flag = (ts.stat j).flag ∧
      ((ts.addMeta i count size).stat j).table = (ts.stat j).table := by
    rw [stat_addMeta hi hj]
    split_ifs with hji
    · simp [hji]
    · exact ⟨rfl, rfl⟩
  constructor
  · rintro ⟨hle, hflag, htable⟩
    exact ⟨hle, (hstat hle).1 ▸ hflag, (hstat hle).2 ▸ htable⟩
  · rintro ⟨hle, hflag, htable⟩
    exact ⟨hle, (hstat hle).1.trans hflag, (hstat hle).2.trans htable⟩

theorem type_addMeta (hi : ts.InUse name i) (hj : 2 ≤ j) (count size : Int) :
    ((ts.addMeta i count size).stat j).type = (ts.stat j).type := by
  rw [stat_addMeta hi hj]
  split_ifs with hji
  · simp [hji]
  · rfl

theorem releaseTable_of_inUse (hi : ts.InUse name i) : ts.releaseTable i = ts.set i .reset := by
  have hsome : (ts.find (ts.stat i).table).isSome := by
    rw [Option.isSome_iff_ne_none, ne_eq, find_eq_none_iff, hi.table]
    exact fun hnone => hnone i hi
  rw [releaseTable, if_pos hsome]

theorem inUse_set_reset (hi : ts.InUse name i) : InUse (ts.set i .reset) other j ↔ ts.InUse other j ∧ j ≠ i := by
  by_cases hji : j = i
  · subst hji
    refine iff_of_false (fun hj => ?_) fun hj => hj.2 rfl
    have hflag := hj.flag
    rw [stat_set_self hi.lt_length] at hflag
    cases hflag
  · rw [inUse_set_of_ne (Ne.symm hji), and_iff_left hji]

end Tables

/-! ### Calls -/

inductive TableOp
  | hset
  | sadd
  | zadd
  | hdel
  | srem
  | zrem
  deriving DecidableEq, Repr

namespace TableOp

def type : TableOp → TableType
  | .hset | .hdel => .hashTb
  | .sadd | .srem => .setTb
  | .zadd | .zrem => .zsetTb

def puts : TableOp → Bool
  | .hset | .sadd | .zadd => true
  | .hdel | .srem | .zrem => false

def locks : TableOp → Bool
  | .hset | .zadd | .hdel | .zrem => true
  | .sadd | .srem => false

def sizeOf (op : TableOp) (size : Nat) : Int :=
  match op with
  | .hset => size
  | .hdel => -size
  | .sadd | .zadd | .srem | .zrem => 0

theorem type_ne_commonTb (op : TableOp) : op.type ≠ .commonTb := by cases op <;> decide

end TableOp

structure Member where
  table : Bytes
  type : TableType
  key : Bytes
  deriving DecidableEq, Repr

structure TableWorld where
  tables : Tables
  members : Finset Member
  lockers : Finset Nat

inductive Phase
  | find
  | create
  | store (offset : Nat)
  | count (offset : Nat) (count size : Int)
  | test (offset : Nat)
  | release (offset : Nat)
  | done
  deriving DecidableEq, Repr

def Phase.slot : Phase → Option Nat
  | .store offset | .count offset _ _ | .test offset | .release offset => some offset
  | .find | .create | .done => none

def Phase.due (phase : Phase) (offset : Nat) : Int :=
  match phase with
  | .count i n _ => if i = offset then n else 0
  | .find | .create | .store _ | .test _ | .release _ | .done => 0

structure TableCall where
  op : TableOp
  table : Bytes
  key : Bytes
  phase : Phase
  deriving DecidableEq, Repr

structure StoreResult where
  ok : Bool
  size : Nat
  deriving DecidableEq, Repr

namespace TableCall

def member (c : TableCall) : Member := ⟨c.table, c.op.type, c.key⟩

def storeSection (c : TableCall) (lockerHash : Bytes → Nat) (result : StoreResult) (s : TableWorld)
    (offset : Nat) : TableWorld × TableCall :=
  let lockers := if c.op.locks then insert (lockerHash c.key) s.lockers else s.lockers
  if c.op.locks ∧ lockerHash c.key ∈ s.lockers then (s, c)
  else if !result.ok then (s, { c with phase := .done })
  else if c.op.puts then
    if c.member ∈ s.members then (s, { c with phase := .done })
    else ({ s with members := insert c.member s.members, lockers },
      { c with phase := .count offset 1 (c.op.sizeOf result.size) })
  else
    if c.member ∈ s.members then ({ s with members := s.members.erase c.member, lockers },
      { c with phase := .count offset (-1) (c.op.sizeOf result.size) })
    else (s, { c with phase := .done })

def finish (c : TableCall) (lockerHash : Bytes → Nat) (s : TableWorld) : TableWorld × TableCall :=
  ({ s with lockers := if c.op.locks then s.lockers.erase (lockerHash c.key) else s.lockers },
    { c with phase := .done })

def advance (lockerHash : Bytes → Nat) (result : StoreResult) (s : TableWorld) (c : TableCall) :
    TableWorld × TableCall :=
  match c.phase with
  | .find =>
    match s.tables.lookup c.table c.op.type with
    | .found offset => (s, { c with phase := .store offset })
    | .refused => (s, { c with phase := .done })
    | .absent => (s, { c with phase := if c.op.puts then .create else .done })
  | .create =>
    match s.tables.createTable c.table c.op.type with
    | (none, tables) => ({ s with tables }, { c with phase := .done })
    | (some offset, tables) => ({ s with tables }, { c with phase := .store offset })
  | .store offset => c.storeSection lockerHash result s offset
  | .count offset count size =>
    ({ s with tables := s.tables.addMeta offset count size }, { c with phase := .test offset })
  | .test offset =>
    if s.tables.isEmptied offset then (s, { c with phase := .release offset })
    else c.finish lockerHash s
  | .release offset =>
    c.finish lockerHash { s with tables := s.tables.releaseTable offset }
  | .done => (s, c)

end TableCall

open Threads

abbrev TablePool := Pool TableWorld TableCall

inductive TableAct
  | call (op : TableOp) (table key : Bytes)
  | run (i : Nat) (result : StoreResult)

namespace TablePool

def start (maximum : Nat) : TablePool := ⟨⟨Tables.create maximum, ∅, ∅⟩, []⟩

def step (lockerHash : Bytes → Nat) (p : TablePool) : TableAct → TablePool
  | .call op table key => if tbNameCheck table then p.spawn ⟨op, table, key, .find⟩ else p
  | .run i result => p.run (TableCall.advance lockerHash result) i

end TablePool

/-! ### When a section is safe -/

/-- A call that creates its table finds none of another type under the name. A call that releases a
slot finds that it still counts no member, and no other call is on its way to the slot. -/
def TableCall.Settled (c : TableCall) (s : TableWorld) (others : List TableCall) : Prop :=
  match c.phase with
  | .create => ∀ offset ∈ s.tables.find c.table, (s.tables.stat offset).type = c.op.type
  | .release offset =>
    (s.tables.stat offset).count ≤ 0 ∧ ∀ d ∈ others, d.phase.slot ≠ some offset
  | .find | .store _ | .count _ _ _ | .test _ | .done => True

instance (c : TableCall) (s : TableWorld) (others : List TableCall) :
    Decidable (c.Settled s others) := by
  unfold TableCall.Settled
  cases c.phase <;> infer_instance

namespace TablePool

def Settled (p : TablePool) : TableAct → Prop
  | .call _ _ _ => True
  | .run i _ => ∀ c ∈ p.threads[i]?, c.Settled p.shared (p.threads.eraseIdx i)

instance (p : TablePool) : (act : TableAct) → Decidable (p.Settled act)
  | .call _ _ _ => .isTrue trivial
  | .run i _ => inferInstanceAs (Decidable (∀ c ∈ p.threads[i]?, c.Settled p.shared _))

end TablePool

def TableCall.Owns (c : TableCall) (ts : Tables) : Prop :=
  ∀ offset, c.phase.slot = some offset → ts.InUse c.table offset ∧ (ts.stat offset).type = c.op.type

def membersOf (members : Finset Member) (name : Bytes) : Finset Member :=
  members.filter fun m => m.table = name

variable {members : Finset Member}

theorem mem_membersOf {name : Bytes} {m : Member} :
    m ∈ membersOf members name ↔ m ∈ members ∧ m.table = name := Finset.mem_filter

theorem card_membersOf_insert {m : Member} (h : m ∉ members)
    (name : Bytes) : ((membersOf (insert m members) name).card : ℤ) =
      (membersOf members name).card + if m.table = name then 1 else 0 := by
  unfold membersOf
  rw [Finset.filter_insert]
  split_ifs with hname
  · rw [Finset.card_insert_of_notMem fun hmem => h (Finset.mem_filter.mp hmem).1]
    push_cast
    rfl
  · exact (add_zero _).symm

theorem card_membersOf_erase {m : Member} (h : m ∈ members)
    (name : Bytes) : ((membersOf (members.erase m) name).card : ℤ) =
      (membersOf members name).card - if m.table = name then 1 else 0 := by
  have hinsert := card_membersOf_insert (Finset.notMem_erase m members) name
  rw [Finset.insert_erase h] at hinsert
  omega

namespace TablePool

variable {p : TablePool} {i : Nat} {c : TableCall} {f : TableWorld → TableCall → TableWorld × TableCall}

/-- Every call is on its way to its own slot, every member has a table, and the count of a slot,
together with what calls are going to add to it, is the number of members of its table. -/
structure Inv (p : TablePool) : Prop where
  distinct : p.shared.tables.Distinct
  owned : ∀ i c, p.At i c → c.Owns p.shared.tables
  homed : ∀ m ∈ p.shared.members, ∃ offset, p.shared.tables.InUse m.table offset ∧
    (p.shared.tables.stat offset).type = m.type
  counted : ∀ name offset, p.shared.tables.InUse name offset →
    (p.shared.tables.stat offset).count + p.total (fun c => c.phase.due offset) =
      (membersOf p.shared.members name).card

variable {offset : Nat}

theorem slot_of_due {phase : Phase} (h : phase.due offset ≠ 0) : phase.slot = some offset := by
  cases phase with
  | count j n z =>
    have hj : j = offset := by
      by_contra hne
      exact h (if_neg hne)
    rw [Phase.slot, hj]
  | _ => exact absurd rfl h

theorem total_due_eq_zero (h : ∀ j d, p.At j d → d.phase.slot ≠ some offset) :
    p.total (fun c => c.phase.due offset) = 0 :=
  Pool.total_eq_zero fun j d hd => by_contra fun hne => h j d hd (slot_of_due hne)

variable {s : TableWorld}

theorem Inv.run (h : p.Inv) (hc : p.At i c) {d : TableCall}
    (hf : f p.shared c = (s, d)) (hdistinct : s.tables.Distinct) (howns : d.Owns s.tables)
    (hothers : ∀ j e, j ≠ i → p.At j e → e.Owns p.shared.tables → e.Owns s.tables)
    (hhomed : ∀ m ∈ s.members, ∃ offset, s.tables.InUse m.table offset ∧ (s.tables.stat offset).type = m.type)
    (hcounted : ∀ name offset, s.tables.InUse name offset → (s.tables.stat offset).count +
      (p.total (fun c => c.phase.due offset) - c.phase.due offset + d.phase.due offset) =
        (membersOf s.members name).card) : Inv (p.run f i) := by
  have hshared : (p.run f i).shared = s := by rw [Pool.shared_run hc, hf]
  have htotal (offset : Nat) := Pool.total_run (f := f) hc fun c => c.phase.due offset
  rw [hf] at htotal
  refine ⟨?_, ?_, ?_, fun name offset hoffset => ?_⟩
  · rwa [hshared]
  · rw [hshared]
    exact Pool.forall_run hc h.owned (by rwa [hf]) hothers
  · rwa [hshared]
  · rw [hshared] at hoffset ⊢
    rw [htotal]
    exact hcounted name offset hoffset

theorem Inv.quiet (h : p.Inv) (hc : p.At i c) {d : TableCall}
    (hf : f p.shared c = (s, d)) (htables : s.tables = p.shared.tables)
    (hmembers : s.members = p.shared.members)
    (hdue : ∀ offset, d.phase.due offset = c.phase.due offset) (howns : d.Owns p.shared.tables) :
    Inv (p.run f i) := by
  refine h.run hc hf ?_ ?_ ?_ ?_ ?_
  · exact htables ▸ h.distinct
  · exact htables ▸ howns
  · exact fun _ _ _ _ hd => htables ▸ hd
  · rw [htables, hmembers]
    exact h.homed
  · intro name offset hoffset
    rw [htables] at hoffset ⊢
    rw [hmembers, hdue, sub_add_cancel]
    exact h.counted name offset hoffset

theorem owns_done {ts : Tables} (c : TableCall) : ({ c with phase := .done } : TableCall).Owns ts := by
  rintro offset ⟨⟩

theorem Inv.done (h : p.Inv) (hc : p.At i c) (hdue : ∀ offset, c.phase.due offset = 0)
    (hf : f p.shared c = (s, { c with phase := .done }))
    (htables : s.tables = p.shared.tables) (hmembers : s.members = p.shared.members) :
    Inv (p.run f i) :=
  h.quiet hc hf htables hmembers (fun offset => (hdue offset).symm) (owns_done c)

theorem Inv.goOn (h : p.Inv) (hc : p.At i c) (hdue : ∀ offset, c.phase.due offset = 0)
    {phase : Phase} (hdue' : ∀ offset, phase.due offset = 0)
    (hf : f p.shared c = (p.shared, { c with phase }))
    (howns : ({ c with phase } : TableCall).Owns p.shared.tables) : Inv (p.run f i) :=
  h.quiet hc hf rfl rfl (fun offset => (hdue' offset).trans (hdue offset).symm) howns

theorem Inv.create (h : p.Inv) (hc : p.At i c) (hnone : ∀ j, ¬ p.shared.tables.InUse c.table j)
    (hwritable : p.shared.tables.Writable c.table offset) (hdue : ∀ offset, c.phase.due offset = 0)
    (hf : f p.shared c = ({ p.shared with
        tables := p.shared.tables.set offset ⟨0, 0, 0, true, c.op.type, c.table⟩ },
      { c with phase := .store offset })) : Inv (p.run f i) := by
  have hinUse (name : Bytes) (j : Nat) : Tables.InUse (p.shared.tables.set offset
      ⟨0, 0, 0, true, c.op.type, c.table⟩) name j ↔
      j = offset ∧ name = c.table ∨ p.shared.tables.InUse name j := hwritable.inUse_set_iff hnone
  have hkept {name : Bytes} {j : Nat} (hj : p.shared.tables.InUse name j) :
      Tables.stat (p.shared.tables.set offset ⟨0, 0, 0, true, c.op.type, c.table⟩) j =
        p.shared.tables.stat j :=
    Tables.stat_set_of_ne fun heq => hwritable.not_inUse hnone (heq ▸ hj)
  refine h.run hc hf ?_ ?_ ?_ ?_ ?_
  · exact hwritable.distinct h.distinct fun _ => rfl
  · rintro j ⟨⟩
    exact ⟨(hinUse _ _).mpr (.inl ⟨rfl, rfl⟩), by rw [Tables.stat_set_self hwritable.lt_length]⟩
  · intro j e _ _ howns k hk
    obtain ⟨hinuse, htype⟩ := howns k hk
    exact ⟨(hinUse _ _).mpr (.inr hinuse), by rw [hkept hinuse, htype]⟩
  · intro m hm
    obtain ⟨j, hj, htype⟩ := h.homed m hm
    exact ⟨j, (hinUse _ _).mpr (.inr hj), by rw [hkept hj, htype]⟩
  · intro name j hj
    have hzero : ({ c with phase := .store offset } : TableCall).phase.due j = 0 := rfl
    rw [hdue, hzero, sub_zero, add_zero]
    rcases (hinUse _ _).mp hj with ⟨rfl, rfl⟩ | hj
    · -- The name has no member yet, and no call is on its way to the free slot.
      have hmembers : membersOf p.shared.members c.table = ∅ := by
        refine Finset.eq_empty_of_forall_notMem fun m hm => ?_
        obtain ⟨hm, htable⟩ := mem_membersOf.mp hm
        obtain ⟨k, hk, -⟩ := h.homed m hm
        exact hnone k (htable ▸ hk)
      have htotal : p.total (fun c => c.phase.due j) = 0 := total_due_eq_zero fun k d hd hslot =>
        hwritable.not_inUse hnone (h.owned k d hd j hslot).1
      rw [Tables.stat_set_self hwritable.lt_length, htotal, hmembers]
      rfl
    · rw [hkept hj]
      exact h.counted name j hj

section Store

variable {offset : Nat} {s : TableWorld} {z : ℤ}

theorem Inv.slot_iff (h : p.Inv) (hc : p.At i c) (hslot : c.phase.slot = some offset)
    {name : Bytes} {j : Nat} (hj : p.shared.tables.InUse name j) : c.table = name ↔ offset = j := by
  have hown := (h.owned i c hc offset hslot).1
  constructor
  · rintro rfl
    exact h.distinct _ _ _ hown hj
  · rintro rfl
    exact hown.table.symm.trans hj.table

theorem Inv.store (h : p.Inv) (hc : p.At i c) (hphase : c.phase = .store offset) {n : ℤ}
    (hf : f p.shared c = (s, { c with phase := .count offset n z }))
    (htables : s.tables = p.shared.tables)
    (hmembers : ∀ m ∈ s.members, m ∈ p.shared.members ∨ m = c.member)
    (hcard : ∀ name, ((membersOf s.members name).card : ℤ) =
      (membersOf p.shared.members name).card + if c.table = name then n else 0) :
    Inv (p.run f i) := by
  have hslot : c.phase.slot = some offset := by rw [hphase]; rfl
  have hown := h.owned i c hc offset hslot
  refine h.run hc hf ?_ ?_ ?_ ?_ ?_
  · exact htables ▸ h.distinct
  · rintro j ⟨⟩
    exact htables ▸ hown
  · exact fun _ _ _ _ hd => htables ▸ hd
  · intro m hm
    rw [htables]
    rcases hmembers m hm with hm | rfl
    · exact h.homed m hm
    · exact ⟨offset, hown⟩
  · intro name j hj
    rw [htables] at hj ⊢
    have hcount := h.counted name j hj
    have hdue : c.phase.due j = 0 := by rw [hphase]; rfl
    have hnew : ({ c with phase := .count offset n z } : TableCall).phase.due j =
        if offset = j then n else 0 := rfl
    rw [hcard, hdue, hnew, if_congr (h.slot_iff hc hslot hj) rfl rfl]
    omega

end Store

theorem Inv.count (h : p.Inv) (hc : p.At i c) {n z : ℤ} (hphase : c.phase = .count offset n z)
    (hf : f p.shared c = ({ p.shared with tables := p.shared.tables.addMeta offset n z },
      { c with phase := .test offset })) : Inv (p.run f i) := by
  have hslot : c.phase.slot = some offset := by rw [hphase]; rfl
  obtain ⟨hown, htype⟩ := h.owned i c hc offset hslot
  have hinUse (name : Bytes) (j : Nat) : (p.shared.tables.addMeta offset n z).InUse name j ↔
      p.shared.tables.InUse name j := Tables.inUse_addMeta hown n z
  have hkept {name : Bytes} {j : Nat} (hj : p.shared.tables.InUse name j) :
      ((p.shared.tables.addMeta offset n z).stat j).type = (p.shared.tables.stat j).type :=
    Tables.type_addMeta hown hj.two_le n z
  refine h.run hc hf ?_ ?_ ?_ ?_ ?_
  · intro name j k hj hk
    exact h.distinct name j k ((hinUse _ _).mp hj) ((hinUse _ _).mp hk)
  · rintro j ⟨⟩
    exact ⟨(hinUse _ _).mpr hown, (hkept hown).trans htype⟩
  · intro j e _ _ howns k hk
    obtain ⟨hinuse, htype⟩ := howns k hk
    exact ⟨(hinUse _ _).mpr hinuse, (hkept hinuse).trans htype⟩
  · intro m hm
    obtain ⟨j, hj, htype⟩ := h.homed m hm
    exact ⟨j, (hinUse _ _).mpr hj, (hkept hj).trans htype⟩
  · intro name j hj
    have hj := (hinUse _ _).mp hj
    have hcount := h.counted name j hj
    have hdue : c.phase.due j = if offset = j then n else 0 := by rw [hphase]; rfl
    have hzero : ({ c with phase := .test offset } : TableCall).phase.due j = 0 := rfl
    rw [hdue, hzero, Tables.stat_addMeta hown hj.two_le, add_zero]
    change _ = ((membersOf p.shared.members name).card : ℤ)
    rw [← hcount]
    by_cases hjo : j = offset
    · rw [if_pos hjo, if_pos hjo.symm, Tables.add_count, hjo]
      omega
    · rw [if_neg hjo, if_neg (Ne.symm hjo), sub_zero]

theorem Inv.release (h : p.Inv) (hc : p.At i c) (hphase : c.phase = .release offset)
    (hothers : ∀ j d, j ≠ i → p.At j d → d.phase.slot ≠ some offset)
    (hempty : membersOf p.shared.members c.table = ∅)
    (hf : f p.shared c = (s, { c with phase := .done }))
    (htables : s.tables = p.shared.tables.set offset .reset)
    (hmembers : s.members = p.shared.members) : Inv (p.run f i) := by
  have hslot : c.phase.slot = some offset := by rw [hphase]; rfl
  obtain ⟨hown, -⟩ := h.owned i c hc offset hslot
  have hinUse (name : Bytes) (j : Nat) : Tables.InUse (p.shared.tables.set offset .reset) name j ↔
      p.shared.tables.InUse name j ∧ j ≠ offset := Tables.inUse_set_reset hown
  have hkept {j : Nat} (hj : j ≠ offset) :
      Tables.stat (p.shared.tables.set offset .reset) j = p.shared.tables.stat j :=
    Tables.stat_set_of_ne (Ne.symm hj)
  refine h.run hc hf ?_ (owns_done c) ?_ ?_ ?_
  · rw [htables]
    intro name j k hj hk
    exact h.distinct name j k ((hinUse _ _).mp hj).1 ((hinUse _ _).mp hk).1
  · intro j e hne he howns k hk
    obtain ⟨hinuse, htype⟩ := howns k hk
    have hko : k ≠ offset := fun heq => hothers j e hne he (heq ▸ hk)
    rw [htables]
    exact ⟨(hinUse _ _).mpr ⟨hinuse, hko⟩, by rw [hkept hko, htype]⟩
  · intro m hm
    rw [hmembers] at hm
    obtain ⟨j, hj, htype⟩ := h.homed m hm
    have hjo : j ≠ offset := by
      rintro rfl
      have htable : m.table = c.table := hj.table.symm.trans hown.table
      exact Finset.notMem_empty m (hempty ▸ mem_membersOf.mpr ⟨hm, htable⟩)
    rw [htables]
    exact ⟨j, (hinUse _ _).mpr ⟨hj, hjo⟩, by rw [hkept hjo, htype]⟩
  · intro name j hj
    rw [htables] at hj ⊢
    obtain ⟨hj, hjo⟩ := (hinUse _ _).mp hj
    have hdue : c.phase.due j = 0 := by rw [hphase]; rfl
    have hzero : ({ c with phase := .done } : TableCall).phase.due j = 0 := rfl
    rw [hkept hjo, hmembers, hdue, hzero, sub_zero, add_zero]
    exact h.counted name j hj

theorem Inv.empty_of_settled (h : p.Inv) (hc : p.At i c) (hphase : c.phase = .release offset)
    (hsettled : c.Settled p.shared (p.threads.eraseIdx i)) :
    (∀ j d, j ≠ i → p.At j d → d.phase.slot ≠ some offset) ∧ membersOf p.shared.members c.table = ∅ := by
  simp only [TableCall.Settled, hphase] at hsettled
  obtain ⟨hcount, hothers⟩ := hsettled
  have hfree (j : Nat) (d : TableCall) (hne : j ≠ i) (hd : p.At j d) :
      d.phase.slot ≠ some offset :=
    hothers d (List.mem_eraseIdx_iff_getElem?.mpr ⟨j, hne, hd⟩)
  have htotal : p.total (fun c => c.phase.due offset) = 0 := by
    refine Pool.total_eq_zero fun j d hd => ?_
    by_cases hne : j = i
    · subst hne
      rw [hd.unique hc, hphase]
      rfl
    · exact by_contra fun hdue => hfree j d hne hd (slot_of_due hdue)
  have hslot : c.phase.slot = some offset := by rw [hphase]; rfl
  have hcard := h.counted c.table offset (h.owned i c hc offset hslot).1
  exact ⟨hfree, Finset.card_eq_zero.mp (by omega)⟩

variable {lockerHash : Bytes → Nat} {result : StoreResult}

theorem Inv.storeSection (h : p.Inv) (hc : p.At i c) (hphase : c.phase = .store offset)
    (hf : f p.shared c = c.storeSection lockerHash result p.shared offset) :
    Inv (p.run f i) := by
  have hdue (j : Nat) : c.phase.due j = 0 := by rw [hphase]; rfl
  unfold TableCall.storeSection at hf
  simp only at hf
  split at hf
  · exact h.quiet hc hf rfl rfl (fun _ => rfl) (h.owned i c hc)
  split at hf
  · exact h.done hc hdue hf rfl rfl
  split at hf
  · split at hf
    · exact h.done hc hdue hf rfl rfl
    · rename_i hnew
      exact h.store hc hphase hf rfl (fun m hm => (Finset.mem_insert.mp hm).symm) (card_membersOf_insert hnew)
  · split at hf
    · rename_i hold
      refine h.store hc hphase hf rfl (fun m hm => .inl (Finset.mem_of_mem_erase hm)) fun name => ?_
      rw [card_membersOf_erase hold]
      change _ - (if c.table = name then 1 else 0) = _
      split_ifs <;> omega
    · exact h.done hc hdue hf rfl rfl

theorem Inv.advance (h : p.Inv) (hc : p.At i c) (hsettled : c.Settled p.shared (p.threads.eraseIdx i)) :
    Inv (p.run (TableCall.advance lockerHash result) i) := by
  cases hphase : c.phase with
  | find =>
    have hdue (j : Nat) : c.phase.due j = 0 := by rw [hphase]; rfl
    cases hlookup : p.shared.tables.lookup c.table c.op.type with
    | found offset =>
      have hf : c.advance lockerHash result p.shared = (p.shared, { c with phase := .store offset }) := by
        simp only [TableCall.advance, hphase, hlookup]
      refine h.goOn hc hdue (fun _ => rfl) hf ?_
      rintro j ⟨⟩
      exact Tables.lookup_eq_found c.op.type_ne_commonTb hlookup
    | refused =>
      have hf : c.advance lockerHash result p.shared = (p.shared, { c with phase := .done }) := by
        simp only [TableCall.advance, hphase, hlookup]
      exact h.done hc hdue hf rfl rfl
    | absent =>
      have hf : c.advance lockerHash result p.shared =
          (p.shared, { c with phase := if c.op.puts then .create else .done }) := by
        simp only [TableCall.advance, hphase, hlookup]
      refine h.goOn hc hdue (fun j => ?_) hf fun j hj => ?_
      · cases c.op.puts <;> rfl
      · cases hputs : c.op.puts <;> rw [hputs] at hj <;> cases hj
  | create =>
    have hdue (j : Nat) : c.phase.due j = 0 := by rw [hphase]; rfl
    rcases Tables.createTable_cases p.shared.tables c.table c.op.type with
      ⟨offset, hfind, heq⟩ | heq | ⟨offset, hnone, hwritable, heq⟩
    · have hf : c.advance lockerHash result p.shared = (p.shared, { c with phase := .store offset }) := by
        simp only [TableCall.advance, hphase, heq]
      refine h.goOn hc hdue (fun _ => rfl) hf ?_
      simp only [TableCall.Settled, hphase] at hsettled
      rintro j ⟨⟩
      exact ⟨Tables.inUse_of_find hfind, hsettled offset hfind⟩
    · have hf : c.advance lockerHash result p.shared = (p.shared, { c with phase := .done }) := by
        simp only [TableCall.advance, hphase, heq]
      exact h.done hc hdue hf rfl rfl
    · exact h.create hc hnone hwritable hdue (by simp only [TableCall.advance, hphase, heq])
  | store offset =>
    have hf : c.advance lockerHash result p.shared =
        c.storeSection lockerHash result p.shared offset := by
      simp only [TableCall.advance, hphase]
    exact h.storeSection hc hphase hf
  | count offset n z => exact h.count hc hphase (by simp only [TableCall.advance, hphase])
  | test offset =>
    have hslot : c.phase.slot = some offset := by rw [hphase]; rfl
    have hdue (j : Nat) : c.phase.due j = 0 := by rw [hphase]; rfl
    by_cases hempty : p.shared.tables.isEmptied offset
    · have hf : c.advance lockerHash result p.shared = (p.shared, { c with phase := .release offset }) := by
        simp only [TableCall.advance, hphase, if_pos hempty]
      refine h.goOn hc hdue (fun _ => rfl) hf ?_
      rintro j ⟨⟩
      exact h.owned i c hc offset hslot
    · have hf : c.advance lockerHash result p.shared = c.finish lockerHash p.shared := by
        simp only [TableCall.advance, hphase, if_neg hempty]
      exact h.done hc hdue hf rfl rfl
  | release offset =>
    have hslot : c.phase.slot = some offset := by rw [hphase]; rfl
    obtain ⟨hothers, hempty⟩ := h.empty_of_settled hc hphase hsettled
    have hreset := Tables.releaseTable_of_inUse (h.owned i c hc offset hslot).1
    have hf : c.advance lockerHash result p.shared = c.finish lockerHash
        { p.shared with tables := p.shared.tables.releaseTable offset } := by
      simp only [TableCall.advance, hphase]
    exact h.release hc hphase hothers hempty hf hreset rfl
  | done =>
    have hf : c.advance lockerHash result p.shared = (p.shared, c) := by
      simp only [TableCall.advance, hphase]
    exact h.quiet hc hf rfl rfl (fun _ => rfl) (h.owned i c hc)

theorem Inv.spawn (h : p.Inv) (op : TableOp) (table key : Bytes) :
    Inv (p.spawn ⟨op, table, key, .find⟩) := by
  refine ⟨h.distinct, fun j d hd => ?_, h.homed, fun name offset hoffset => ?_⟩
  · rcases Pool.at_spawn.mp hd with hd | ⟨-, rfl⟩
    · exact h.owned j d hd
    · rintro offset ⟨⟩
  · rw [Pool.total_spawn]
    change _ + (_ + 0) = _
    rw [add_zero]
    exact h.counted name offset hoffset

theorem Inv.step (h : p.Inv) {act : TableAct} (hsettled : p.Settled act) :
    Inv (p.step lockerHash act) := by
  cases act with
  | call op table key =>
    change Inv (if tbNameCheck table then p.spawn ⟨op, table, key, .find⟩ else p)
    split
    · exact h.spawn op table key
    · exact h
  | run i result =>
    change Inv (p.run _ i)
    cases hc : p.threads[i]? with
    | none =>
      rw [Pool.run, hc]
      exact h
    | some c => exact h.advance hc (hsettled c hc)

theorem inv_start (maximum : Nat) : Inv (start maximum) := by
  refine ⟨Tables.distinct_create maximum, fun i c hc => ?_, fun m hm => ?_, fun name offset hoffset => ?_⟩
  · cases hc
  · cases hm
  · exact absurd hoffset Tables.not_inUse_create

def Uses (p : TablePool) (name : Bytes) (type : TableType) : Prop :=
  (∃ offset, p.shared.tables.InUse name offset ∧ (p.shared.tables.stat offset).type = type) ∨
  (∃ m ∈ p.shared.members, m.table = name ∧ m.type = type) ∨
  ∃ c ∈ p.threads, c.phase.slot ≠ none ∧ c.table = name ∧ c.op.type = type

variable {name : Bytes}

theorem Inv.slot_of_uses (h : p.Inv) {type : TableType} (huses : p.Uses name type) :
    ∃ offset, p.shared.tables.InUse name offset ∧ (p.shared.tables.stat offset).type = type := by
  rcases huses with hslot | ⟨m, hm, rfl, rfl⟩ | ⟨c, hc, hslot, rfl, rfl⟩
  · exact hslot
  · exact h.homed m hm
  · obtain ⟨j, hj⟩ := List.mem_iff_getElem?.mp hc
    obtain ⟨offset, hoffset⟩ := Option.ne_none_iff_exists'.mp hslot
    exact ⟨offset, h.owned j c hj offset hoffset⟩

theorem storeSection_tables (c : TableCall) (s : TableWorld) (offset : Nat) :
    (c.storeSection lockerHash result s offset).1.tables = s.tables := by
  unfold TableCall.storeSection
  simp only
  split_ifs <;> rfl

theorem Inv.inUse_advance (h : p.Inv) (hc : p.At i c) (hoffset : p.shared.tables.InUse name offset) :
    (c.advance lockerHash result p.shared).1.tables.InUse name offset ∨ c.phase = .release offset := by
  unfold TableCall.advance
  cases hphase : c.phase with
  | find =>
    simp only
    split <;> exact .inl hoffset
  | create =>
    simp only
    rcases Tables.createTable_cases p.shared.tables c.table c.op.type with
      ⟨j, -, heq⟩ | heq | ⟨j, hnone, hwritable, heq⟩
    · rw [heq]
      exact .inl hoffset
    · rw [heq]
      exact .inl hoffset
    · rw [heq]
      exact .inl ((hwritable.inUse_set_iff hnone).mpr (.inr hoffset))
  | store j =>
    simp only [storeSection_tables]
    exact .inl hoffset
  | count j n z =>
    have hslot : c.phase.slot = some j := by rw [hphase]; rfl
    exact .inl ((Tables.inUse_addMeta (h.owned i c hc j hslot).1 n z).mpr hoffset)
  | test j =>
    simp only
    split <;> exact .inl hoffset
  | release j =>
    have hslot : c.phase.slot = some j := by rw [hphase]; rfl
    have hown := (h.owned i c hc j hslot).1
    by_cases hj : j = offset
    · exact .inr (by rw [hj])
    · left
      change (p.shared.tables.releaseTable j).InUse name offset
      rw [Tables.releaseTable_of_inUse hown]
      exact (Tables.inUse_set_reset hown).mpr ⟨hoffset, Ne.symm hj⟩
  | done => exact .inl hoffset

theorem Inv.freed (h : p.Inv) {act : TableAct} (hsettled : p.Settled act)
    (hbefore : p.shared.tables.InUse name offset)
    (hafter : ¬ (p.step lockerHash act).shared.tables.InUse name offset) :
    ∀ m ∈ (p.step lockerHash act).shared.members, m.table ≠ name := by
  cases act with
  | call op table key =>
    refine absurd ?_ hafter
    change (if tbNameCheck table then p.spawn ⟨op, table, key, .find⟩
      else p).shared.tables.InUse _ _
    split <;> exact hbefore
  | run i result =>
    change ¬ (p.run _ i).shared.tables.InUse name offset at hafter
    change ∀ m ∈ (p.run _ i).shared.members, m.table ≠ name
    cases hc : p.threads[i]? with
    | none =>
      rw [Pool.run, hc] at hafter
      exact absurd hbefore hafter
    | some c =>
      rw [Pool.shared_run hc] at hafter ⊢
      have hphase := (h.inUse_advance hc hbefore).resolve_left hafter
      obtain ⟨-, hempty⟩ := h.empty_of_settled hc hphase (hsettled c hc)
      have hslot : c.phase.slot = some offset := by rw [hphase]; rfl
      have hname : c.table = name :=
        (h.owned i c hc offset hslot).1.table.symm.trans hbefore.table
      intro m hm hm'
      rw [TableCall.advance, hphase] at hm
      exact Finset.notMem_empty m (hempty ▸ mem_membersOf.mpr ⟨hm, hm'.trans hname.symm⟩)

end TablePool

section Runs

variable {lockerHash : Bytes → Nat} {maximum : Nat} {acts : List TableAct}

/-- In every interleaving of safe sections a name is used with one type at a time, what a call adds
to the statistics goes to the slot of its own table and type, and a slot is freed only when its
table has no member. -/
theorem table_slots_are_owned
    (hguard : Run.Guarded (TablePool.step lockerHash) TablePool.Settled (TablePool.start maximum) acts) :
    let p := Run.exec (TablePool.step lockerHash) (TablePool.start maximum) acts
    (∀ name type type', p.Uses name type → p.Uses name type' → type = type') ∧
    (∀ i c offset n z, p.At i c → c.phase = .count offset n z →
      p.shared.tables.InUse c.table offset ∧ (p.shared.tables.stat offset).type = c.op.type) ∧
    ∀ act, p.Settled act → ∀ name offset, p.shared.tables.InUse name offset →
      ¬ (p.step lockerHash act).shared.tables.InUse name offset →
      ∀ m ∈ (p.step lockerHash act).shared.members, m.table ≠ name := by
  intro p
  have h : p.Inv := hguard.invariant (fun _ _ h hsettled => h.step hsettled) (TablePool.inv_start maximum)
  refine ⟨fun name type type' huses huses' => ?_, fun i c offset n z hc hphase => ?_,
    fun act hsettled name offset => h.freed hsettled⟩
  · obtain ⟨offset, hinUse, rfl⟩ := h.slot_of_uses huses
    obtain ⟨offset', hinUse', rfl⟩ := h.slot_of_uses huses'
    rw [h.distinct name offset offset' hinUse hinUse']
  · exact h.owned i c hc offset (by rw [hphase]; rfl)

def sectionsOf (i n : Nat) : List TableAct := List.replicate n (.run i ⟨true, 5⟩)

def firstByteHash (key : Bytes) : Nat := (key.headD 0).toNat

/-- Two calls create one table at the same time, and put their members. -/
theorem table_slots_are_owned_two_calls :
    let acts : List TableAct := .call .hset (ascii "t") (ascii "a") ::
      .call .hset (ascii "t") (ascii "b") :: sectionsOf 0 1 ++ sectionsOf 1 1 ++ sectionsOf 0 2 ++ sectionsOf 1 2
    let p := Run.exec (TablePool.step firstByteHash) (TablePool.start 4) acts
    Run.Guarded (TablePool.step firstByteHash) TablePool.Settled (TablePool.start 4) acts ∧
    p.At 1 ⟨.hset, ascii "t", ascii "b", .count 2 1 5⟩ ∧
    p.shared.tables.InUse (ascii "t") 2 ∧ (p.shared.tables.stat 2).type = .hashTb := by
  intro acts p
  have hguard : Run.Guarded (TablePool.step firstByteHash) TablePool.Settled (TablePool.start 4)
      acts := by decide +kernel
  have hat : p.threads[1]? = some ⟨.hset, ascii "t", ascii "b", .count 2 1 5⟩ := by decide +kernel
  exact ⟨hguard, hat, (table_slots_are_owned hguard).2.1 1 _ 2 1 5 hat rfl⟩

/-- Three interleavings. A call finds the slot of its table, the last member of the table is
deleted, another table takes the slot, and the call adds to it. A hash table and a set are created
under one name at the same time. A slot whose count came to zero is freed after a new member was
counted. -/
theorem unsettled_sections_mix_tables :
    let first : List TableAct := .call .hset (ascii "t") (ascii "a") :: sectionsOf 0 5
    let late := Run.exec (TablePool.step firstByteHash) (TablePool.start 4) (first ++
      .call .hset (ascii "t") (ascii "b") :: sectionsOf 1 1 ++
      .call .hdel (ascii "t") (ascii "a") :: sectionsOf 2 5 ++
      .call .sadd (ascii "u") (ascii "m") :: sectionsOf 3 5 ++ sectionsOf 1 1)
    let both := Run.exec (TablePool.step firstByteHash) (TablePool.start 4)
      (.call .hset (ascii "t") (ascii "a") :: .call .sadd (ascii "t") (ascii "b") ::
        sectionsOf 0 1 ++ sectionsOf 1 1 ++ sectionsOf 0 2 ++ sectionsOf 1 2)
    let counted := Run.exec (TablePool.step firstByteHash) (TablePool.start 4) (first ++
      .call .hdel (ascii "t") (ascii "a") :: sectionsOf 1 4 ++
      .call .hset (ascii "t") (ascii "b") :: sectionsOf 2 4)
    let freed := Run.exec (TablePool.step firstByteHash) counted (sectionsOf 1 1)
    (late.threads[1]? = some ⟨.hset, ascii "t", ascii "b", .count 2 1 5⟩ ∧
      (late.shared.tables.stat 2).table = ascii "u" ∧ (late.shared.tables.stat 2).type = .setTb) ∧
    (⟨ascii "t", .hashTb, ascii "a"⟩ ∈ both.shared.members ∧ ⟨ascii "t", .setTb, ascii "b"⟩ ∈ both.shared.members) ∧
    counted.shared.tables.find (ascii "t") = some 2 ∧
    freed.shared.tables.find (ascii "t") = none ∧
    ⟨ascii "t", .hashTb, ascii "b"⟩ ∈ freed.shared.members := by
  decide +kernel

end Runs

end HustStore
