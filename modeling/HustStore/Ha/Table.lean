import HustStore.Base
import HustStore.Ha.Write
import HustStore.Lib.Tiling

/-!
# The hash table of the front end

`hustdb_ha_build_hash_table` turns the parsed table into an array of 1024 entries, one for each bucket, with the
hosts to read from and the hosts to write to.
-/

namespace HustStore.Ha

open Tiling

/-! ### The parsed table -/

structure TablePair where
  key : List Int
  val : List Bytes
  deriving DecidableEq, Repr

namespace TablePair

def start (pair : TablePair) : Int := pair.key.getD 0 0

def stop (pair : TablePair) : Int := pair.key.getD 1 0

def host (pair : TablePair) : Master → Bytes
  | .master1 => pair.val.getD 0 []
  | .master2 => pair.val.getD 1 []

end TablePair

structure TableIncr where
  low : Option TablePair
  high : Option TablePair
  deriving DecidableEq, Repr

structure TableDecr where
  remove : Option Bytes
  replaceBy : Option Bytes
  deriving DecidableEq, Repr

structure TableItem where
  hasItem : Bool
  item : TablePair
  increase : Option TableIncr
  decrease : Option TableDecr
  deriving DecidableEq, Repr

def TableItem.enableIncrease (src : TableItem) : Option (TablePair × TablePair) :=
  src.increase.bind fun incr => incr.low.bind fun low => incr.high.map fun high => (low, high)

/-! ### Checks -/

def checkIncrKey (low high item : TablePair) : Bool :=
  low.key.length = 2 && high.key.length = 2 && low.start = item.start && high.stop = item.stop &&
    low.stop = high.start && (low.start < low.stop && high.start < high.stop)

def checkIncrVal (low high item : TablePair) : Bool :=
  low.val.length = 2 && high.val.length = 2 && low.host .master1 = item.host .master1 &&
    high.host .master2 = item.host .master2 && low.host .master2 ≠ item.host .master1 &&
    low.host .master2 ≠ item.host .master2 && high.host .master1 ≠ item.host .master1 &&
    high.host .master1 ≠ item.host .master2

def checkIncrItem (low high item : TablePair) : Bool := checkIncrKey low high item && checkIncrVal low high item

def getRemoveIdx (remove : Bytes) (item : TablePair) : Option Master :=
  if remove = item.host .master1 then some .master1
  else if remove = item.host .master2 then some .master2
  else none

def getRemainedIdx : Master → Master
  | .master1 => .master2
  | .master2 => .master1

def checkDecrItem (decr : TableDecr) (item : TablePair) : Bool :=
  match decr.remove, decr.replaceBy with
  | some remove, some replaceBy => remove ≠ replaceBy && (getRemoveIdx remove item).isSome
  | _, _ => false

def checkTableItemBase (includeDecrease : Bool) (src : TableItem) : Bool :=
  if includeDecrease then
    match src.decrease with
    | some decr => checkDecrItem decr src.item
    | none => true
  else
    match src.enableIncrease with
    | some (low, high) => checkIncrItem low high src.item
    | none => true

def checkFirstTableItem (includeDecrease : Bool) (src : TableItem) : Bool :=
  src.item.start = 0 && (1 ≤ src.item.stop && src.item.stop ≤ 1024) && checkTableItemBase includeDecrease src

def checkTableItem (includeDecrease last : Bool) (prev : Option TableItem) (src : TableItem) : Bool :=
  (src.item.key.length = 2 && src.item.val.length = 2) &&
    match prev with
    | none => checkFirstTableItem includeDecrease src
    | some prev =>
      !(last && src.item.stop ≠ 1024) && prev.item.stop = src.item.start && checkTableItemBase includeDecrease src

def precheckTable (table : List TableItem) : Bool := table.all (·.hasItem)

def checkDecrease (table : List TableItem) : Bool :=
  let decrs := table.filterMap (·.decrease)
  let removeDict := decrs.map fun decr => decr.remove.getD []
  let replaceDict := decrs.map fun decr => decr.replaceBy.getD []
  replaceDict.all fun host => !removeDict.contains host

/-! ### Building -/

structure TableElem where
  readlist : Option (List Bytes)
  writelist : Option (List Bytes)
  index : Nat
  start : Int
  stop : Int
  deriving DecidableEq, Repr

structure Build where
  table : Int → TableElem
  index : Nat
  writes : List (Int × Int)

def Build.setTableItem (build : Build) (start stop : Int) (readlist writelist : List Bytes) : Build where
  table i :=
    if Covers i (start, stop) then ⟨some readlist, some writelist, build.index, start, stop⟩
    else build.table i
  index := build.index + 1
  writes := build.writes ++ [(start, stop)]

section Append

variable (peerDict : Bytes → Bool)

def buildPeerList (keys : List Bytes) : Option (List Bytes) := if keys.all peerDict then some keys else none

def appendTableItem (item : TablePair) (build : Build) : Option Build :=
  (buildPeerList peerDict [item.host .master1, item.host .master2]).map fun list =>
    build.setTableItem item.start item.stop list list

def appendIncrItem (high low : TablePair) (build : Build) : Option Build :=
  (buildPeerList peerDict [high.host .master1, high.host .master2]).bind fun writelist =>
    (buildPeerList peerDict
      [high.host .master1, high.host .master2, low.host .master2, low.host .master2]).map fun readlist =>
        build.setTableItem high.start high.stop readlist writelist

def appendDecrItem (decr : TableDecr) (item : TablePair) (build : Build) : Option Build :=
  (getRemoveIdx (decr.remove.getD []) item).bind fun idx =>
    (buildPeerList peerDict [item.host (getRemainedIdx idx), decr.replaceBy.getD []]).map fun list =>
      build.setTableItem item.start item.stop list list

def buildTableItem (includeDecrease : Bool) (src : TableItem) (build : Build) : Option Build :=
  if includeDecrease then
    match src.decrease with
    | some decr => appendDecrItem peerDict decr src.item build
    | none => appendTableItem peerDict src.item build
  else
    match src.enableIncrease with
    | some (low, high) => (appendTableItem peerDict low build).bind (appendIncrItem peerDict high low)
    | none => appendTableItem peerDict src.item build

def buildItems (includeDecrease : Bool) : Option TableItem → List TableItem → Build → Option Build
  | _, [], build => some build
  | prev, src :: rest, build =>
    if checkTableItem includeDecrease rest.isEmpty prev src then
      (buildTableItem peerDict includeDecrease src build).bind (buildItems includeDecrease (some src) rest)
    else none

end Append

def reviewTable (table : Int → TableElem) : Bool :=
  (List.range 1024).all fun i =>
    (table i).readlist.isSome && (table i).writelist.any fun writelist => writelist.length = 2

structure Bucket where
  readlist : Option (List Bytes)
  writelist : Option (List Bytes)
  start : Int
  stop : Int
  deriving DecidableEq, Repr

def setBucket (src : TableElem) : Bucket := ⟨src.readlist, src.writelist, src.start, src.stop⟩

def addBucket (size : Nat) (arr : List Bucket) (src : TableElem) : Option (List Bucket) :=
  match arr.getLast? with
  | none => some [setBucket src]
  | some des =>
    if src.start = des.start ∧ src.stop = des.stop then some arr
    else if size ≤ arr.length then none
    else some (arr ++ [setBucket src])

def buildBucketTable (table : Int → TableElem) (size : Nat) : Option (List Bucket) :=
  if size < 1 then none
  else (List.range 1024).foldlM (fun arr (i : Nat) => addBucket size arr (table i)) []

def buildTable (peerDict : Bytes → Bool) (includeDecrease : Bool) (table : List TableItem)
    (initial : Int → TableElem) : Option (Build × List Bucket) :=
  (buildItems peerDict includeDecrease none table ⟨initial, 0, []⟩).bind fun build =>
    if includeDecrease && !checkDecrease table then none
    else if reviewTable build.table then
      (buildBucketTable build.table build.index).map fun buckets => (build, buckets)
    else none

def includeIncrease (table : List TableItem) : Bool := table.any (·.increase.isSome)

def includeDecrease (table : List TableItem) : Bool := table.any (·.decrease.isSome)

def buildHashTable (peerDict : Bytes → Bool) (table : List TableItem) (initial : Int → TableElem) :
    Option (Build × List Bucket) :=
  if !precheckTable table then none
  else if includeIncrease table && includeDecrease table then none
  else buildTable peerDict (includeDecrease table) table initial

/-! ### What a table names -/

structure Part where
  start : Int
  stop : Int
  reads : List Bytes
  hosts : Bytes × Bytes
  deriving DecidableEq, Repr

namespace Part

def range (part : Part) : Int × Int := (part.start, part.stop)

def plain (start stop : Int) (h1 h2 : Bytes) : Part := ⟨start, stop, [h1, h2], (h1, h2)⟩

end Part

def TablePair.part (pair : TablePair) : Part :=
  .plain pair.start pair.stop (pair.host .master1) (pair.host .master2)

def highPart (low high : TablePair) : Part where
  start := high.start
  stop := high.stop
  reads := [high.host .master1, high.host .master2, low.host .master2, low.host .master2]
  hosts := (high.host .master1, high.host .master2)

def decrPart (decr : TableDecr) (item : TablePair) : Option Part :=
  (getRemoveIdx (decr.remove.getD []) item).map fun idx =>
    .plain item.start item.stop (item.host (getRemainedIdx idx)) (decr.replaceBy.getD [])

namespace TableItem

def parts (includeDecrease : Bool) (src : TableItem) : List Part :=
  if includeDecrease then
    match src.decrease with
    | some decr => (decrPart decr src.item).toList
    | none => [src.item.part]
  else
    match src.enableIncrease with
    | some (low, high) => [low.part, highPart low high]
    | none => [src.item.part]

def TwoHosts (includeDecrease : Bool) (src : TableItem) : Prop :=
  if includeDecrease then
    match src.decrease with
    | some decr => ∀ idx, getRemoveIdx (decr.remove.getD []) src.item = some idx →
        src.item.host (getRemainedIdx idx) ≠ decr.replaceBy.getD []
    | none => src.item.host .master1 ≠ src.item.host .master2
  else
    match src.enableIncrease with
    | some _ => True
    | none => src.item.host .master1 ≠ src.item.host .master2

end TableItem

def partsOf (table : List TableItem) : List Part := table.flatMap (·.parts (includeDecrease table))

def Build.place (build : Build) (part : Part) : Build :=
  build.setTableItem part.start part.stop part.reads [part.hosts.1, part.hosts.2]

section Place

variable {build : Build} {parts : List Part} {part : Part} {b : Int}

theorem writes_foldl_place (build : Build) (parts : List Part) :
    (parts.foldl Build.place build).writes = build.writes ++ parts.map Part.range := by
  induction parts generalizing build with
  | nil => rw [List.foldl_nil, List.map_nil, List.append_nil]
  | cons part parts ih =>
    rw [List.foldl_cons, ih, List.map_cons]
    exact List.append_assoc _ _ _

theorem table_foldl_place_of_not_covers (h : ∀ part ∈ parts, ¬ Covers b part.range) (build : Build) :
    (parts.foldl Build.place build).table b = build.table b := by
  induction parts generalizing build with
  | nil => rfl
  | cons part parts ih =>
    obtain ⟨hpart, hparts⟩ := List.forall_mem_cons.mp h
    rw [List.foldl_cons, ih hparts]
    exact if_neg hpart

structure Assigned (part : Part) (elem : TableElem) : Prop where
  readlist : elem.readlist = some part.reads
  writelist : elem.writelist = some [part.hosts.1, part.hosts.2]
  start : elem.start = part.start
  stop : elem.stop = part.stop

theorem assigned_place (h : Covers b part.range) : Assigned part ((build.place part).table b) := by
  have hentry : (build.place part).table b =
      ⟨some part.reads, some [part.hosts.1, part.hosts.2], build.index, part.start, part.stop⟩ := if_pos h
  rw [hentry]
  exact ⟨rfl, rfl, rfl, rfl⟩

theorem assigned_foldl_place {before after : List Part} (hcovers : Covers b part.range)
    (hafter : ∀ part ∈ after, ¬ Covers b part.range) (build : Build) :
    Assigned part (((before ++ part :: after).foldl Build.place build).table b) := by
  rw [List.foldl_append, List.foldl_cons, table_foldl_place_of_not_covers hafter]
  exact assigned_place hcovers

end Place

variable {peerDict : Bytes → Bool} {inc last : Bool} {prev : Option TableItem} {src : TableItem}
  {table : List TableItem}
  {low high item : TablePair} {build build' : Build}

theorem buildPeerList_eq {keys list : List Bytes} (h : buildPeerList peerDict keys = some list) : list = keys := by
  rw [buildPeerList] at h
  split at h
  · exact (Option.some.inj h).symm
  · cases h

theorem appendTableItem_eq (h : appendTableItem peerDict item build = some build') :
    build' = build.place item.part := by
  obtain ⟨list, hlist, rfl⟩ := Option.map_eq_some_iff.mp h
  rw [buildPeerList_eq hlist]
  rfl

theorem appendIncrItem_eq (h : appendIncrItem peerDict high low build = some build') :
    build' = build.place (highPart low high) := by
  obtain ⟨writelist, hwrite, h⟩ := Option.bind_eq_some_iff.mp h
  obtain ⟨readlist, hread, rfl⟩ := Option.map_eq_some_iff.mp h
  rw [buildPeerList_eq hwrite, buildPeerList_eq hread]
  rfl

theorem appendDecrItem_eq {decr : TableDecr} (h : appendDecrItem peerDict decr item build = some build') :
    ∃ part, decrPart decr item = some part ∧ build' = build.place part := by
  obtain ⟨idx, hidx, h⟩ := Option.bind_eq_some_iff.mp h
  obtain ⟨list, hlist, rfl⟩ := Option.map_eq_some_iff.mp h
  rw [buildPeerList_eq hlist, decrPart, hidx]
  exact ⟨_, rfl, rfl⟩

theorem buildTableItem_eq (h : buildTableItem peerDict inc src build = some build') :
    build' = (src.parts inc).foldl Build.place build := by
  rw [buildTableItem] at h
  rw [TableItem.parts]
  split at h
  · cases hdecr : src.decrease with
    | none =>
      rw [hdecr] at h
      rw [if_pos ‹_›]
      exact appendTableItem_eq h
    | some decr =>
      rw [hdecr] at h
      obtain ⟨part, hpart, rfl⟩ := appendDecrItem_eq h
      rw [if_pos ‹_›]
      dsimp only
      rw [hpart]
      rfl
  · cases hincr : src.enableIncrease with
    | none =>
      rw [hincr] at h
      rw [if_neg ‹_›]
      exact appendTableItem_eq h
    | some halves =>
      obtain ⟨low, high⟩ := halves
      rw [hincr] at h
      obtain ⟨build₁, hlow, hhigh⟩ := Option.bind_eq_some_iff.mp h
      rw [if_neg ‹_›, appendIncrItem_eq hhigh, appendTableItem_eq hlow]
      rfl

theorem checkIncrItem_iff : checkIncrItem low high item = true ↔
    ((low.key.length = 2 ∧ high.key.length = 2) ∧ (low.start = item.start ∧ high.stop = item.stop ∧
      low.stop = high.start ∧ low.start < low.stop ∧ high.start < high.stop)) ∧
    ((low.val.length = 2 ∧ high.val.length = 2) ∧ (low.host .master1 = item.host .master1 ∧
      high.host .master2 = item.host .master2 ∧ low.host .master2 ≠ item.host .master1 ∧
      low.host .master2 ≠ item.host .master2 ∧ high.host .master1 ≠ item.host .master1 ∧
      high.host .master1 ≠ item.host .master2)) := by
  simp only [checkIncrItem, checkIncrKey, checkIncrVal, Bool.and_eq_true, decide_eq_true_eq, and_assoc]

theorem getRemoveIdx_of_check {decr : TableDecr} (h : checkDecrItem decr item = true) :
    ∃ idx, getRemoveIdx (decr.remove.getD []) item = some idx := by
  obtain ⟨remove, replaceBy⟩ := decr
  cases remove with
  | none => cases h
  | some remove =>
    cases replaceBy with
    | none => cases h
    | some replaceBy => exact Option.isSome_iff_exists.mp (Bool.and_eq_true_iff.mp h).2

inductive Shape (inc : Bool) (src : TableItem) : Prop
  | whole (h1 h2 : Bytes) (hparts : src.parts inc = [.plain src.item.start src.item.stop h1 h2])
      (htwo : src.TwoHosts inc ↔ h1 ≠ h2)
  | halves (low high : TablePair) (hparts : src.parts inc = [low.part, highPart low high])
      (hcheck : checkIncrItem low high src.item = true) (htwo : src.TwoHosts inc)

theorem shape_of_check (h : checkTableItemBase inc src = true) : Shape inc src := by
  rw [checkTableItemBase] at h
  split at h
  next hinc =>
    cases hdecr : src.decrease with
    | none =>
      apply Shape.whole (src.item.host .master1) (src.item.host .master2)
      · rw [TableItem.parts, if_pos hinc, hdecr]
        rfl
      · rw [TableItem.TwoHosts, if_pos hinc, hdecr]
    | some decr =>
      rw [hdecr] at h
      obtain ⟨idx, hidx⟩ := getRemoveIdx_of_check h
      apply Shape.whole (src.item.host (getRemainedIdx idx)) (decr.replaceBy.getD [])
      · rw [TableItem.parts, if_pos hinc, hdecr]
        dsimp only
        rw [decrPart, hidx]
        rfl
      · rw [TableItem.TwoHosts, if_pos hinc, hdecr]
        constructor
        · intro hall
          exact hall idx hidx
        · intro hne idx' hidx'
          rw [hidx] at hidx'
          cases hidx'
          exact hne
  next hinc =>
    cases hincr : src.enableIncrease with
    | none =>
      apply Shape.whole (src.item.host .master1) (src.item.host .master2)
      · rw [TableItem.parts, if_neg hinc, hincr]
        rfl
      · rw [TableItem.TwoHosts, if_neg hinc, hincr]
    | some halves =>
      obtain ⟨low, high⟩ := halves
      rw [hincr] at h
      apply Shape.halves low high
      · rw [TableItem.parts, if_neg hinc, hincr]
      · exact h
      · rw [TableItem.TwoHosts, if_neg hinc, hincr]
        trivial

namespace Shape

theorem path (h : Shape inc src) : Path src.item.start src.item.stop ((src.parts inc).map Part.range) := by
  cases h with
  | whole h1 h2 hparts htwo =>
    rw [hparts]
    exact .cons (.nil _)
  | halves low high hparts hcheck htwo =>
    obtain ⟨⟨-, hstart, hstop, hmiddle, -⟩, -⟩ := checkIncrItem_iff.mp hcheck
    rw [hparts, ← hstart, ← hstop]
    have hhigh : Path low.stop high.stop [(high.start, high.stop)] := hmiddle ▸ .cons (.nil _)
    exact .cons hhigh

theorem forward_iff (h : Shape inc src) :
    (∀ part ∈ src.parts inc, part.start ≤ part.stop) ↔ src.item.start ≤ src.item.stop := by
  cases h with
  | whole h1 h2 hparts htwo =>
    rw [hparts]
    exact List.forall_mem_singleton
  | halves low high hparts hcheck htwo =>
    obtain ⟨⟨-, hstart, hstop, hmiddle, hlow, hhigh⟩, -⟩ := checkIncrItem_iff.mp hcheck
    rw [hparts]
    constructor
    · intro _
      omega
    · intro _
      rw [List.forall_mem_cons, List.forall_mem_singleton]
      exact ⟨le_of_lt hlow, le_of_lt hhigh⟩

theorem nonempty_iff (h : Shape inc src) {part : Part} (hpart : part ∈ src.parts inc) :
    part.start < part.stop ↔ src.item.start < src.item.stop := by
  cases h with
  | whole h1 h2 hparts htwo =>
    rw [hparts, List.mem_singleton] at hpart
    rw [hpart]
    exact Iff.rfl
  | halves low high hparts hcheck htwo =>
    obtain ⟨⟨-, hstart, hstop, hmiddle, hlow, hhigh⟩, -⟩ := checkIncrItem_iff.mp hcheck
    have hitem : src.item.start < src.item.stop := by omega
    rw [hparts, List.mem_cons, List.mem_singleton] at hpart
    rcases hpart with rfl | rfl
    · exact iff_of_true hlow hitem
    · exact iff_of_true hhigh hitem

theorem twoHosts_iff (h : Shape inc src) :
    (∀ part ∈ src.parts inc, part.hosts.1 ≠ part.hosts.2) ↔ src.TwoHosts inc := by
  cases h with
  | whole h1 h2 hparts htwo =>
    rw [hparts, htwo]
    exact List.forall_mem_singleton
  | halves low high hparts hcheck htwo =>
    obtain ⟨-, -, hlow1, hhigh2, hlow2, -, -, hhigh1⟩ := checkIncrItem_iff.mp hcheck
    apply iff_of_true _ htwo
    rw [hparts, List.forall_mem_cons, List.forall_mem_singleton]
    constructor
    · show low.host .master1 ≠ low.host .master2
      rw [hlow1]
      exact hlow2.symm
    · show high.host .master1 ≠ high.host .master2
      rw [hhigh2]
      exact hhigh1

end Shape

/-! ### The loop over the items -/

def stopOf (prev : Option TableItem) : Int := prev.elim 0 (·.item.stop)

theorem start_of_check (h : checkTableItem inc last prev src = true) : stopOf prev = src.item.start := by
  have hprev := (Bool.and_eq_true_iff.mp h).2
  cases prev with
  | none =>
    simp only [checkFirstTableItem, Bool.and_eq_true, decide_eq_true_eq] at hprev
    exact hprev.1.1.symm
  | some prev =>
    simp only [Bool.and_eq_true, decide_eq_true_eq] at hprev
    exact hprev.1.2

theorem shape_of_checkTableItem (h : checkTableItem inc last prev src = true) : Shape inc src := by
  have hprev := (Bool.and_eq_true_iff.mp h).2
  cases prev with
  | none => exact shape_of_check (Bool.and_eq_true_iff.mp hprev).2
  | some prev => exact shape_of_check (Bool.and_eq_true_iff.mp hprev).2

structure Built (inc : Bool) (prev : Option TableItem) (table : List TableItem) (build build' : Build) : Prop where
  eq : build' = (table.flatMap (·.parts inc)).foldl Build.place build
  shape : ∀ src ∈ table, Shape inc src
  path : Path (stopOf prev) (stopOf (table.getLast?.or prev)) ((table.flatMap (·.parts inc)).map Part.range)

theorem buildItems_built (h : buildItems peerDict inc prev table build = some build') :
    Built inc prev table build build' := by
  induction table generalizing prev build with
  | nil =>
    cases h
    exact ⟨rfl, fun _ h => (List.not_mem_nil h).elim, .nil _⟩
  | cons src rest ih =>
    rw [buildItems] at h
    split at h
    next hcheck =>
      obtain ⟨build₁, hitem, hrest⟩ := Option.bind_eq_some_iff.mp h
      have hbuilt := ih hrest
      have hshape := shape_of_checkTableItem hcheck
      constructor
      · rw [hbuilt.eq, buildTableItem_eq hitem, List.flatMap_cons, List.foldl_append]
      · exact List.forall_mem_cons.mpr ⟨hshape, hbuilt.shape⟩
      · rw [List.flatMap_cons, List.map_append, start_of_check hcheck]
        refine hshape.path.append ?_
        have hlast : (src :: rest).getLast?.or prev = rest.getLast?.or (some src) := by
          rw [List.getLast?_cons]
          cases rest.getLast? <;> rfl
        rw [hlast]
        exact hbuilt.path
    next => cases h

theorem stop_of_last (h : buildItems peerDict inc (some src) table build = some build')
    (hne : table ≠ []) : stopOf table.getLast? = 1024 := by
  induction table generalizing src build with
  | nil => exact absurd rfl hne
  | cons next rest ih =>
    rw [buildItems] at h
    split at h
    next hcheck =>
      cases rest with
      | nil =>
        have hprev := (Bool.and_eq_true_iff.mp hcheck).2
        simpa [stopOf] using (Bool.and_eq_true_iff.mp (Bool.and_eq_true_iff.mp hprev).1).1
      | cons next' rest =>
        obtain ⟨build₁, -, hrest⟩ := Option.bind_eq_some_iff.mp h
        have hstop := ih hrest (List.cons_ne_nil _ _)
        rw [List.getLast?_cons_cons]
        exact hstop
    next => cases h

/-! ### The bucket table -/

theorem length_addBucket {size : Nat} {arr arr' : List Bucket} {src : TableElem} (hsize : 1 ≤ size)
    (h : addBucket size arr src = some arr') (hle : arr.length ≤ size) :
    arr'.length ≤ size ∧ arr'.length ≤ arr.length + 1 := by
  rw [addBucket] at h
  split at h
  · cases h
    exact ⟨hsize, Nat.succ_le_succ (Nat.zero_le _)⟩
  · split at h
    · cases h
      exact ⟨hle, Nat.le_succ _⟩
    · split at h
      · cases h
      · cases h
        rw [List.length_append, List.length_singleton]
        omega

theorem length_foldlM_addBucket {size : Nat} (hsize : 1 ≤ size) (table : Int → TableElem) (is : List Nat)
    {arr arr' : List Bucket} (h : is.foldlM (fun arr (i : Nat) => addBucket size arr (table i)) arr = some arr')
    (hle : arr.length ≤ size) : arr'.length ≤ size ∧ arr'.length ≤ arr.length + is.length := by
  induction is generalizing arr with
  | nil =>
    cases h
    exact ⟨hle, Nat.le_refl _⟩
  | cons i is ih =>
    rw [List.foldlM_cons] at h
    obtain ⟨arr₁, hadd, hrest⟩ := Option.bind_eq_some_iff.mp h
    obtain ⟨hsize₁, hlen₁⟩ := length_addBucket hsize hadd hle
    obtain ⟨hsize₂, hlen₂⟩ := ih hrest hsize₁
    rw [List.length_cons]
    omega

theorem length_buildBucketTable {table : Int → TableElem} {size : Nat} {buckets : List Bucket}
    (h : buildBucketTable table size = some buckets) : buckets.length ≤ size ∧ buckets.length ≤ 1024 := by
  rw [buildBucketTable] at h
  split at h
  · cases h
  · have hlen := length_foldlM_addBucket (by omega) table _ h (Nat.zero_le _)
    rw [List.length_range] at hlen
    exact ⟨hlen.1, hlen.2.trans (by simp)⟩

/-! ### Accepted tables -/

variable {initial : Int → TableElem} {buckets : List Bucket}

section

variable (h : buildHashTable peerDict table initial = some (build, buckets))
include h

theorem accepted_cases : buildItems peerDict (includeDecrease table) none table ⟨initial, 0, []⟩ = some build ∧
      buildBucketTable build.table build.index = some buckets := by
  rw [buildHashTable] at h
  split at h
  · cases h
  split at h
  · cases h
  obtain ⟨build₁, hitems, hrest⟩ := Option.bind_eq_some_iff.mp h
  split at hrest
  · cases hrest
  split at hrest
  · obtain ⟨buckets₁, hbuckets, heq⟩ := Option.map_eq_some_iff.mp hrest
    cases heq
    exact ⟨hitems, hbuckets⟩
  · cases hrest

theorem ne_nil_of_accepted :
    table ≠ [] := by
  rintro rfl
  obtain ⟨hitems, hbuckets⟩ := accepted_cases h
  cases hitems
  cases hbuckets

theorem stop_cases : stopOf table.getLast? = 1024 ∨
      (0 ≤ stopOf table.getLast? ∧ ∀ src ∈ table, src.item.start ≤ src.item.stop) := by
  obtain ⟨hitems, -⟩ := accepted_cases h
  obtain ⟨src, rest, rfl⟩ := List.exists_cons_of_ne_nil (ne_nil_of_accepted h)
  rw [buildItems] at hitems
  split at hitems
  next hcheck =>
    cases rest with
    | nil =>
      have hfirst := (Bool.and_eq_true_iff.mp hcheck).2
      simp only [checkFirstTableItem, Bool.and_eq_true, decide_eq_true_eq] at hfirst
      right
      rw [List.forall_mem_singleton, List.getLast?_singleton]
      have hstop : stopOf (some src) = src.item.stop := rfl
      omega
    | cons next rest =>
      obtain ⟨build₁, -, hrest⟩ := Option.bind_eq_some_iff.mp hitems
      left
      rw [List.getLast?_cons_cons]
      exact stop_of_last hrest (List.cons_ne_nil _ _)
  next => cases hitems

end

/-- Every index that is written lies in its array, and every bucket is assigned from the one part that
contains it, which names two different hosts to write to. -/
structure TableSound (parts : List Part) (build : Build) (buckets : List Bucket) : Prop where
  inBounds : ∀ range ∈ build.writes, ∀ i, Covers i range → 0 ≤ i ∧ i < 1024
  bucketsInBounds : buckets.length ≤ 1024
  assigned : ∀ b : Int, 0 ≤ b → b < 1024 → ∃ part, parts.filter (fun part => decide (Covers b part.range)) = [part] ∧
      Assigned part (build.table b) ∧ part.hosts.1 ≠ part.hosts.2

theorem hits_range (b : Int) (parts : List Part) :
    hits b (parts.map Part.range) = (parts.filter fun part => decide (Covers b part.range)).length := by
  rw [hits, List.countP_map, List.countP_eq_length_filter]
  rfl

theorem exact_of_tableSound {parts : List Part} (hwrites : build.writes = parts.map Part.range)
    (h : TableSound parts build buckets) : Exact 0 1024 (parts.map Part.range) := by
  constructor
  · rw [← hwrites]
    exact h.inBounds
  · intro b hlo hhi
    obtain ⟨part, hpart, -⟩ := h.assigned b hlo hhi
    rw [hits_range, hpart, List.length_singleton]

theorem assigned_of_filter {parts : List Part} {part : Part} {b : Int} (build : Build)
    (h : parts.filter (fun part => decide (Covers b part.range)) = [part]) :
    Assigned part ((parts.foldl Build.place build).table b) := by
  obtain ⟨before, after, rfl, hbefore, hcovers, hafter⟩ := List.filter_eq_cons_iff.mp h
  apply assigned_foldl_place (of_decide_eq_true hcovers)
  intro part' hpart' hcov
  exact List.filter_eq_nil_iff.mp hafter part' hpart' (decide_eq_true hcov)

theorem forward_parts_iff (hshape : ∀ src ∈ table, Shape inc src) :
    (∀ range ∈ (table.flatMap (·.parts inc)).map Part.range, range.1 ≤ range.2) ↔
      ∀ src ∈ table, src.item.start ≤ src.item.stop := by
  rw [List.forall_mem_map]
  constructor
  · intro hparts src hsrc
    apply (hshape src hsrc).forward_iff.mp
    intro part hpart
    exact hparts part (List.mem_flatMap.mpr ⟨src, hsrc, hpart⟩)
  · intro hitems part hpart
    obtain ⟨src, hsrc, hpart⟩ := List.mem_flatMap.mp hpart
    exact (hshape src hsrc).forward_iff.mpr (hitems src hsrc) part hpart

theorem twoHosts_of_tableSound (hshape : ∀ src ∈ table, Shape inc src)
    (hwrites : build.writes = (table.flatMap (·.parts inc)).map Part.range)
    (h : TableSound (table.flatMap (·.parts inc)) build buckets) (hsrc : src ∈ table)
    (hlt : src.item.start < src.item.stop) : src.TwoHosts inc := by
  apply (hshape src hsrc).twoHosts_iff.mp
  intro part hpart
  have hmem : part ∈ table.flatMap (·.parts inc) := List.mem_flatMap.mpr ⟨src, hsrc, hpart⟩
  have hcovers : Covers part.start part.range :=
    ⟨le_refl _, ((hshape src hsrc).nonempty_iff hpart).mpr hlt⟩
  have hrange : part.range ∈ build.writes := hwrites ▸ List.mem_map_of_mem hmem
  obtain ⟨hlo, hhi⟩ := h.inBounds _ hrange _ hcovers
  obtain ⟨part', hfilter, -, hne⟩ := h.assigned part.start hlo hhi
  have hpart' : part = part' := by
    rw [← List.mem_singleton, ← hfilter]
    exact List.mem_filter.mpr ⟨hmem, decide_eq_true hcovers⟩
  rw [hpart']
  exact hne

/-- An accepted table is sound exactly if no item runs backwards, the last one stops at 1024, and the
hosts of every item that is not empty are different. -/
theorem accepted_table_sound_iff (peerDict : Bytes → Bool) (table : List TableItem)
    (initial : Int → TableElem) (build : Build) (buckets : List Bucket)
    (h : buildHashTable peerDict table initial = some (build, buckets)) :
    TableSound (partsOf table) build buckets ↔
      (∀ src ∈ table, src.item.start ≤ src.item.stop) ∧ stopOf table.getLast? = 1024 ∧
        ∀ src ∈ table, src.item.start < src.item.stop → src.TwoHosts (includeDecrease table) := by
  obtain ⟨hitems, hbuckets⟩ := accepted_cases h
  have hbuilt := buildItems_built hitems
  have hpath : Path 0 (stopOf table.getLast?) ((partsOf table).map Part.range) := by
    have hpath := hbuilt.path
    rwa [Option.or_none] at hpath
  have hwrites : build.writes = (partsOf table).map Part.range := by
    rw [hbuilt.eq, writes_foldl_place]
    rfl
  constructor
  · intro hsound
    have hexact := exact_of_tableSound hwrites hsound
    have htwo src (hsrc : src ∈ table) := twoHosts_of_tableSound hbuilt.shape hwrites hsound hsrc
    rcases stop_cases h with hstop | ⟨hstop, hforward⟩
    · rw [hstop] at hpath
      have hforward := hpath.forward_of_exact (by decide) hexact
      exact ⟨(forward_parts_iff hbuilt.shape).mp hforward, hstop, htwo⟩
    · have hexact' := hpath.exact_of_forward hstop ((forward_parts_iff hbuilt.shape).mpr hforward)
      exact ⟨hforward, hexact.stop_unique hexact' (by decide) hstop, htwo⟩
  · rintro ⟨hforward, hstop, htwo⟩
    rw [hstop] at hpath
    have hexact := hpath.exact_of_forward (by decide) ((forward_parts_iff hbuilt.shape).mpr hforward)
    constructor
    · rw [hwrites]
      exact hexact.inside
    · exact (length_buildBucketTable hbuckets).2
    · intro b hlo hhi
      have honce := hexact.once b hlo hhi
      rw [hits_range] at honce
      obtain ⟨part, hpart⟩ := List.length_eq_one_iff.mp honce
      have hmem : part ∈ (partsOf table).filter fun part => decide (Covers b part.range) := by
        rw [hpart]
        exact List.mem_singleton_self part
      obtain ⟨hparts, hcovers⟩ := List.mem_filter.mp hmem
      obtain ⟨src, hsrc, hsrcPart⟩ := List.mem_flatMap.mp hparts
      have hshape := hbuilt.shape src hsrc
      have hrange := of_decide_eq_true hcovers
      have hlt := (hshape.nonempty_iff hsrcPart).mp (hrange.1.trans_lt hrange.2)
      refine ⟨part, hpart, ?_, hshape.twoHosts_iff.mpr (htwo src hsrc hlt) part hsrcPart⟩
      rw [hbuilt.eq]
      exact assigned_of_filter _ hpart

def plainItem (start stop : Int) (h1 h2 : Bytes) : TableItem := ⟨true, ⟨[start, stop], [h1, h2]⟩, none, none⟩

def emptyTable : Int → TableElem := fun _ => ⟨none, none, 0, 0, 0⟩

/-- Two items that share the buckets between them. -/
theorem accepted_table_sound_two : ∃ build buckets,
      buildHashTable (fun _ => true) [plainItem 0 512 [49] [50], plainItem 512 1024 [51] [52]] emptyTable =
        some (build, buckets) ∧
      TableSound (partsOf [plainItem 0 512 [49] [50], plainItem 512 1024 [51] [52]]) build buckets := by
  have haccepted : (buildHashTable (fun _ => true) [plainItem 0 512 [49] [50], plainItem 512 1024 [51] [52]]
      emptyTable).isSome = true := by decide +kernel
  obtain ⟨⟨build, buckets⟩, h⟩ := Option.isSome_iff_exists.mp haccepted
  refine ⟨build, buckets, h, (accepted_table_sound_iff _ _ _ _ _ h).mpr ⟨by decide, by decide, ?_⟩⟩
  rw [List.forall_mem_cons, List.forall_mem_singleton]
  exact ⟨fun _ => show ([49] : Bytes) ≠ [50] by decide, fun _ => show ([51] : Bytes) ≠ [52] by decide⟩

/-- A table with an item behind the end and one that runs back to it is accepted, and the entry 1024 is
written. A table that leaves the upper half of the array as it was, with old entries that carry the
bounds of its only item, is accepted too. -/
theorem unsound_tables_accepted : (buildHashTable (fun _ => true)
        [plainItem 0 1024 [49] [50], plainItem 1024 1025 [49] [50], plainItem 1025 1024 [49] [50]]
        emptyTable).any (fun built => built.1.writes.any fun range => decide (Covers 1024 range)) = true ∧
    (buildHashTable (fun _ => true) [plainItem 0 512 [49] [50]]
        fun _ => ⟨some [[51], [52]], some [[51], [52]], 0, 0, 512⟩).any
      (fun built => built.1.writes.all fun range => decide (¬ Covers 1023 range)) = true := by
  decide +kernel

/-! ### Reading while a range moves -/

def ReadsFrom (elem : TableElem) (hosts : List Bytes) : Prop :=
  ∃ readlist, elem.readlist = some readlist ∧ ∀ host ∈ hosts, host ∈ readlist

variable {before after : List TableItem}

theorem buildItems_step (h : buildItems peerDict inc prev (before ++ src :: after) build = some build') :
    ∃ build₀ build₁, checkTableItemBase inc src = true ∧ buildTableItem peerDict inc src build₀ = some build₁ ∧
      buildItems peerDict inc (some src) after build₁ = some build' := by
  induction before generalizing prev build with
  | nil =>
    rw [List.nil_append, buildItems] at h
    split at h
    next hcheck =>
      obtain ⟨build₁, hitem, hrest⟩ := Option.bind_eq_some_iff.mp h
      refine ⟨build, build₁, ?_, hitem, hrest⟩
      have hprev := (Bool.and_eq_true_iff.mp hcheck).2
      cases prev with
      | none => exact (Bool.and_eq_true_iff.mp hprev).2
      | some prev => exact (Bool.and_eq_true_iff.mp hprev).2
    next => cases h
  | cons next before ih =>
    rw [List.cons_append, buildItems] at h
    split at h
    next =>
      obtain ⟨build₁, -, hrest⟩ := Option.bind_eq_some_iff.mp h
      exact ih hrest
    next => cases h

theorem not_includeDecrease {initial : Int → TableElem} {buckets : List Bucket}
    (h : buildHashTable peerDict table initial = some (build, buckets)) (hsrc : src ∈ table)
    (hincr : src.enableIncrease = some (low, high)) : includeDecrease table = false := by
  have hinclude : includeIncrease table = true := by
    apply List.any_eq_true.mpr
    refine ⟨src, hsrc, ?_⟩
    obtain ⟨incr, hincr, -⟩ := Option.bind_eq_some_iff.mp hincr
    rw [hincr]
    rfl
  cases hdecrease : includeDecrease table with
  | false => rfl
  | true =>
    rw [buildHashTable, hinclude, hdecrease] at h
    split at h
    · cases h
    · cases h

theorem readsFrom_highPart (hcheck : checkIncrItem low high item = true) {elem : TableElem}
    (h : Assigned (highPart low high) elem) :
    ReadsFrom elem [high.host .master1, high.host .master2, item.host .master1, item.host .master2] ↔
      item.host .master1 = item.host .master2 := by
  obtain ⟨-, -, hlow1, hhigh2, hlow2, -, hhigh1, -⟩ := checkIncrItem_iff.mp hcheck
  have hreads : elem.readlist =
      some [high.host .master1, high.host .master2, low.host .master2, low.host .master2] := h.readlist
  constructor
  · rintro ⟨readlist, hread, hall⟩
    rw [hreads] at hread
    cases hread
    have hmaster1 := hall (item.host .master1) (by simp)
    simp only [List.mem_cons, List.not_mem_nil, or_false] at hmaster1
    -- the checks leave only the second master of the high half
    rcases hmaster1 with h | h | h | h
    · exact absurd h.symm hhigh1
    · rw [h, hhigh2]
    · exact absurd h.symm hlow2
    · exact absurd h.symm hlow2
  · intro heq
    refine ⟨_, hreads, ?_⟩
    rw [heq, ← hhigh2]
    simp

/-- In an accepted table, the read list that the build gives to a bucket of a high half has the masters
of the half and both masters of the original item exactly if the latter are one host. The list stays
until the end unless the range of a later item contains the bucket again. -/
theorem expansion_reads_old_masters_iff (peerDict : Bytes → Bool) (before after : List TableItem)
    (src : TableItem) (low high : TablePair) (initial : Int → TableElem) (build : Build)
    (buckets : List Bucket)
    (h : buildHashTable peerDict (before ++ src :: after) initial = some (build, buckets))
    (hincr : src.enableIncrease = some (low, high)) (b : Int) (hb : Covers b (high.start, high.stop)) :
    ∃ build₀ build₁, buildTableItem peerDict false src build₀ = some build₁ ∧
      buildItems peerDict false (some src) after build₁ = some build ∧
      (ReadsFrom (build₁.table b)
          [high.host .master1, high.host .master2, src.item.host .master1, src.item.host .master2] ↔
        src.item.host .master1 = src.item.host .master2) ∧
      ((∀ part ∈ after.flatMap (·.parts false), ¬ Covers b part.range) → build.table b = build₁.table b) := by
  have hmem : src ∈ before ++ src :: after := List.mem_append_right _ List.mem_cons_self
  have hinc := not_includeDecrease h hmem hincr
  obtain ⟨hitems, -⟩ := accepted_cases h
  rw [hinc] at hitems
  obtain ⟨build₀, build₁, hcheck, hitem, hrest⟩ := buildItems_step hitems
  have hparts : src.parts false = [low.part, highPart low high] := by
    simp only [TableItem.parts, hincr, Bool.false_eq_true, if_false]
  have hcheckIncr : checkIncrItem low high src.item = true := by
    simpa only [checkTableItemBase, hincr, Bool.false_eq_true, if_false] using hcheck
  refine ⟨build₀, build₁, hitem, hrest, ?_, ?_⟩
  · apply readsFrom_highPart hcheckIncr
    rw [buildTableItem_eq hitem, hparts]
    exact assigned_place hb
  · intro hafter
    rw [(buildItems_built hrest).eq]
    exact table_foldl_place_of_not_covers hafter build₁

def splitItem (h1 h2 : Bytes) : TableItem :=
  ⟨true, ⟨[0, 1024], [h1, h2]⟩, some ⟨some ⟨[0, 512], [h1, [51]]⟩, some ⟨[512, 1024], [[52], h2]⟩⟩, none⟩

/-- An item whose two masters are one host. -/
theorem expansion_reads_one_master :
    ∃ build buckets, buildHashTable (fun _ => true) [splitItem [49] [49]] emptyTable = some (build, buckets) ∧
      ReadsFrom (build.table 1000) [[52], [49], [49], [49]] := by
  have haccepted : (buildHashTable (fun _ => true) [splitItem [49] [49]] emptyTable).isSome = true := by
    decide +kernel
  obtain ⟨⟨build, buckets⟩, h⟩ := Option.isSome_iff_exists.mp haccepted
  obtain ⟨_, build₁, -, -, hiff, hstays⟩ := expansion_reads_old_masters_iff (fun _ => true) [] []
    (splitItem [49] [49]) ⟨[0, 512], [[49], [51]]⟩ ⟨[512, 1024], [[52], [49]]⟩ emptyTable build buckets h rfl
    1000 (by decide)
  have hfinal : build.table 1000 = build₁.table 1000 := hstays fun _ hpart => (List.not_mem_nil hpart).elim
  exact ⟨build, buckets, h, hfinal ▸ hiff.mpr rfl⟩

/-- The first master of the original item is not read from. -/
theorem expansion_hides_first_master : (buildHashTable (fun _ => true) [splitItem [49] [50]] emptyTable).map
        (fun built => (built.1.table 1000).readlist) = some (some [[52], [50], [51], [51]]) := by
  decide +kernel

end HustStore.Ha
