import HustStore.Ha.Table

/-!
# Overwriting the hash table

`__set_hash_table` writes the posted table beside the old one, checks it and swaps the two, rewrites the
upstream of nginx.conf from it in the same way, and restarts the instance. A table with an increase is installed
unchecked, and the worker crashes where one of its items has not the hosts that it reads.
-/

namespace HustStore.Ha

/-! ### Files and system calls -/

/-- A file at its configured path, with its neighbours ".tmp" and ".del". -/
structure Slot where
  file : Option Bytes
  tmp : Option Bytes
  del : Option Bytes
  deriving DecidableEq, Repr

namespace Slot

def save (s : Slot) (data : Bytes) : Slot := { s with tmp := some data }

def retire (s : Slot) : Slot := { s with file := none, del := s.file }

def install (s : Slot) : Slot := { s with file := s.tmp, tmp := none }

def rollback (s : Slot) : Slot := { s with file := s.del, del := none }

end Slot

structure Disk where
  table : Slot
  conf : Slot
  locked : Bool
  deriving DecidableEq, Repr

/-- What the system calls of one request do: which of them succeed, and how many bytes reach each of the two new
files. -/
structure Calls where
  tableOpens : Bool
  tableWrites : Nat
  checkReads : Bool
  tableRetires : Bool
  tableInstalls : Bool
  tableReturns : Bool
  loadReads : Bool
  confReads : Bool
  confOpens : Bool
  confWrites : Nat
  confRetires : Bool
  confInstalls : Bool
  restarts : Bool
  deriving DecidableEq, Repr

/-! ### The table -/

inductive SetTableResult where
  | success
  | writeTableTmpErr
  | checkTableErr
  | renameTableErr
  | renameTableTmpErr
  | rollbackOverwriteErr
  deriving DecidableEq, Repr

def SetTableResult.code : SetTableResult → Nat
  | success => 1
  | writeTableTmpErr => 2
  | checkTableErr => 3
  | renameTableErr => 4
  | renameTableTmpErr => 5
  | rollbackOverwriteErr => 6

/-- The json reader (with no table where the key is missing), the peers of the running instance, the stack that the
check builds its table on, and the order in which a dictionary is walked. -/
structure Instance where
  parse : Bytes → Option (Option (List TableItem))
  peerDict : Bytes → Bool
  scratch : Int → TableElem
  walk : List Bytes → List Bytes

section

variable (ins : Instance) (calls : Calls) (data : Bytes)

/-- The part of the body that reaches the file. -/
def saved : Bytes := data.take calls.tableWrites

def checkTable (content : Bytes) : Bool :=
  match ins.parse content with
  | some (some table) => includeIncrease table || (buildHashTable ins.peerDict table ins.scratch).isSome
  | _ => false

def overwriteTable (s : Slot) : SetTableResult × Slot :=
  if !calls.tableOpens then (.writeTableTmpErr, s)
  else
    let s := s.save (saved calls data)
    if !(calls.checkReads && checkTable ins (saved calls data)) then (.checkTableErr, s)
    else if !(calls.tableRetires && s.file.isSome) then (.renameTableErr, s)
    else if calls.tableInstalls then (.success, s.retire.install)
    else if calls.tableReturns then (.renameTableTmpErr, s.retire.rollback)
    else (.rollbackOverwriteErr, s.retire)

/-! ### The backends -/

/-- Both hosts of a pair, read without a look at the size of the array. An absent or empty array is a null pointer, and
behind a single host the array ends. -/
def TablePair.bothHosts (pair : TablePair) : Option (List Bytes) :=
  match pair.val with
  | h1 :: h2 :: _ => some [h1, h2]
  | _ => none

/-- The hosts that an item adds, and those that it removes. Nothing is checked here: an absent string is a null pointer
for the dictionary. -/
def TableItem.backends (src : TableItem) : Option (List Bytes × List Bytes) :=
  match src.increase, src.decrease with
  | some incr, _ => do return ((← (← incr.low).bothHosts) ++ (← (← incr.high).bothHosts), [])
  | none, some decr => do return ((← src.item.bothHosts) ++ [← decr.replaceBy], [← decr.remove])
  | none, none => do return (← src.item.bothHosts, [])

inductive Load where
  | crashed
  | failed
  | loaded (backends : List Bytes)

/-- `hustdb_ha_load_backends`, which does not look at `json_has_table` either. -/
def loadBackends (content : Bytes) : Load :=
  match ins.parse content with
  | none => .failed
  | some none => .crashed
  | some (some table) =>
    match table.mapM TableItem.backends with
    | none => .crashed
    | some items => .loaded ((ins.walk (items.flatMap Prod.fst).dedup).filter fun host =>
        !(items.flatMap Prod.snd).contains host)

/-- The lines that `fgets` returns with its buffer of 4096 bytes. -/
def readLines (line : Bytes) : Bytes → List Bytes
  | [] => if line = [] then [] else [line]
  | b :: rest =>
    if b = 10 ∨ line.length = 4094 then (line ++ [b]) :: readLines [] rest else readLines (line ++ [b]) rest

def strstr (line text : Bytes) : Bool := line.tails.any text.isPrefixOf

def rewriteConf (backends : List Bytes) (conf : Bytes) : Option Bytes :=
  let lines := (readLines [] conf).map fun line => line.takeWhile (· ≠ 0)
  let tag := lines.findIdx fun line => strstr line (ascii "customized_selector")
  if tag = 0 ∨ tag = lines.length then none
  else
    let start := tag + 1
    let stop := start + ((lines.drop start).takeWhile fun line => strstr line (ascii "server")).length
    if stop ≤ start ∨ lines.length - 2 < stop then none
    else
      let servers := backends.map fun host => ascii "        server " ++ host ++ ascii ";\n"
      some (lines.take start ++ servers ++ lines.drop stop).flatten

def overwriteBackends (backends : List Bytes) (s : Slot) : Bool × Slot :=
  match (if calls.confReads then s.file else none).bind (rewriteConf backends) with
  | none => (false, s)
  | some text =>
    if !calls.confOpens then (false, s)
    else
      let s := s.save (text.take calls.confWrites)
      if !calls.confRetires then (false, s)
      else if !calls.confInstalls then (false, s.retire)
      else (true, s.retire.install)

/-! ### The request -/

inductive Answer where
  | success
  | locked
  | error (code : Nat)
  deriving DecidableEq, Repr

/-- There is no answer where the worker crashes, which keeps the lock. -/
def setHashTable (d : Disk) : Option Answer × Disk :=
  if d.locked then (some .locked, d)
  else
    let (result, table) := overwriteTable ins calls data d.table
    let d := { d with table }
    if result ≠ .success then (some (.error result.code), d)
    else
      match (if calls.loadReads then table.file else none).elim .failed (loadBackends ins) with
      | .crashed => (none, { d with locked := true })
      | .failed => (some (.error 127), d)
      | .loaded backends =>
        let (rewritten, conf) := overwriteBackends calls backends d.conf
        let d := { d with conf }
        if !rewritten then (some (.error 127), d)
        else if !calls.restarts then (some (.error 0), d)
        else (some .success, { d with locked := true })

/-- The two files and the lock are as before. -/
def Disk.Restored (before after : Disk) : Prop :=
  before.table.file = after.table.file ∧ before.conf.file = after.conf.file ∧ before.locked = after.locked

/-- If the request answers an error, the files and the lock are as before. -/
def Atomic (d : Disk) : Prop :=
  ∀ answer, (setHashTable ins calls data d).1 = some answer → answer ≠ .success →
    d.Restored (setHashTable ins calls data d).2

/-- The request gets as far as moving the old table away. -/
def TakesOver (d : Disk) : Prop :=
  d.locked = false ∧ calls.tableOpens ∧ calls.checkReads ∧
    checkTable ins (saved calls data) ∧ calls.tableRetires ∧ d.table.file.isSome

/-- The new table is in place, and the worker crashes over it. -/
def Crashes : Prop := calls.tableInstalls ∧ calls.loadReads ∧ loadBackends ins (saved calls data) = .crashed

/-- What reaches nginx.conf.tmp, once the table is in place and its backends are loaded. -/
def confText (conf : Option Bytes) : Option Bytes :=
  if calls.loadReads ∧ calls.confReads ∧ calls.confOpens then
    match loadBackends ins (saved calls data) with
    | .loaded backends => (conf.bind (rewriteConf backends)).map (·.take calls.confWrites)
    | .crashed | .failed => none
  else none

/-- A request that fails after it has moved the old table away leaves the two files as they were. -/
def Undone (d : Disk) : Prop :=
  let same : Prop := d.table.file = some (saved calls data)
  if calls.tableInstalls then
    match confText ins calls data d.conf.file with
    | none => same
    | some text =>
      if calls.confRetires then calls.confInstalls ∧ (calls.restarts ∨ same ∧ d.conf.file = some text) else same
  else calls.tableReturns

end

/-! ### What a failed request leaves -/

section

variable {ins : Instance} {calls : Calls} {data : Bytes} {d : Disk}

theorem overwriteTable_of_not_takesOver (hlock : d.locked = false) (h : ¬ TakesOver ins calls data d) :
    (overwriteTable ins calls data d.table).1 ≠ .success ∧
      d.table.file = (overwriteTable ins calls data d.table).2.file := by
  unfold overwriteTable
  by_cases hopen : calls.tableOpens
  · by_cases hcheck : (calls.checkReads && checkTable ins (saved calls data)) = true
    · have hretire : (calls.tableRetires && d.table.file.isSome) = false := by
        rw [Bool.eq_false_iff]
        intro hretire
        rw [Bool.and_eq_true] at hcheck hretire
        exact h ⟨hlock, hopen, hcheck.1, hcheck.2, hretire.1, hretire.2⟩
      simp [hopen, hcheck, hretire, Slot.save]
    · simp [hopen, hcheck, Slot.save]
  · simp [hopen]

theorem overwriteTable_of_takesOver (h : TakesOver ins calls data d) :
    overwriteTable ins calls data d.table =
      let s := (d.table.save (saved calls data)).retire
      if calls.tableInstalls then (.success, s.install)
      else if calls.tableReturns then (.renameTableTmpErr, s.rollback)
      else (.rollbackOverwriteErr, s) := by
  obtain ⟨-, hopen, hreads, hcheck, hretires, hfile⟩ := h
  simp [overwriteTable, hopen, hreads, hcheck, hretires, hfile, Slot.save]

/-- What follows once the new table is in place. -/
theorem setHashTable_of_installed (h : TakesOver ins calls data d) (hinst : calls.tableInstalls)
    (halive : ¬ Crashes ins calls data) :
    setHashTable ins calls data d =
      let d := { d with table := (d.table.save (saved calls data)).retire.install }
      match confText ins calls data d.conf.file with
      | none => (some (.error 127), d)
      | some text =>
        let s := d.conf.save text
        if !calls.confRetires then (some (.error 127), { d with conf := s })
        else if !calls.confInstalls then (some (.error 127), { d with conf := s.retire })
        else if !calls.restarts then (some (.error 0), { d with conf := s.retire.install })
        else (some .success, { d with conf := s.retire.install, locked := true }) := by
  unfold setHashTable confText overwriteBackends
  rw [overwriteTable_of_takesOver h]
  simp only [h.1, hinst, Slot.save, Slot.retire, Slot.install]
  by_cases hload : calls.loadReads
  · cases hback : loadBackends ins (saved calls data) with
    | crashed => exact absurd ⟨hinst, hload, hback⟩ halive
    | failed => simp [hload, hback]
    | loaded backends =>
      by_cases hreads : calls.confReads
      · cases hconf : d.conf.file.bind (rewriteConf backends) with
        | none => simp [hload, hback, hreads, hconf, -Option.map_bind]
        | some text =>
          by_cases hopens : calls.confOpens
          · cases calls.confRetires <;> cases calls.confInstalls <;>
              simp [hload, hback, hreads, hopens, hconf, -Option.map_bind]
          · simp [hload, hback, hreads, hopens, hconf]
      · simp [hload, hback, hreads]
  · simp [hload]

theorem setHashTable_of_crashes (h : TakesOver ins calls data d) (hcrash : Crashes ins calls data) :
    (setHashTable ins calls data d).1 = none := by
  obtain ⟨hinst, hload, hback⟩ := hcrash
  unfold setHashTable
  rw [overwriteTable_of_takesOver h]
  simp [h.1, hinst, hload, hback, Slot.save, Slot.retire, Slot.install]

theorem isSome_of_confText {conf : Option Bytes} {text : Bytes} (h : confText ins calls data conf = some text) :
    ∃ old, conf = some old := by
  cases conf with
  | some old => exact ⟨old, rfl⟩
  | none =>
    unfold confText at h
    split at h
    · split at h <;> simp at h
    · cases h

theorem restored_iff_of_installed (h : TakesOver ins calls data d) (hinst : calls.tableInstalls)
    (halive : ¬ Crashes ins calls data) : Atomic ins calls data d ↔ Undone ins calls data d := by
  unfold Atomic
  rw [setHashTable_of_installed h hinst halive]
  simp only [Undone, hinst, Disk.Restored, Slot.save, Slot.retire, Slot.install, if_true]
  cases htext : confText ins calls data d.conf.file with
  | none => simp
  | some text =>
    cases calls.confRetires
    · simp
    · cases calls.confInstalls
      -- nginx.conf has been moved away and nothing has taken its place
      · obtain ⟨conf, hconf⟩ := isSome_of_confText htext
        simp [hconf]
      · cases calls.restarts <;> simp

theorem restored_iff_of_not_installed (h : TakesOver ins calls data d) (hinst : calls.tableInstalls = false) :
    Atomic ins calls data d ↔ Undone ins calls data d := by
  obtain ⟨old, hold⟩ := Option.isSome_iff_exists.mp h.2.2.2.2.2
  unfold Atomic setHashTable
  rw [overwriteTable_of_takesOver h]
  simp only [h.1, hinst, Undone]
  cases calls.tableReturns <;> simp [Disk.Restored, Slot.save, Slot.retire, Slot.rollback, hold, h.1]

/-- A request that answers an error leaves the table, nginx.conf and the lock as they were exactly when it fails before
it moves the old table away, or undoes what it has done. A request that crashes answers nothing. -/
theorem set_table_atomic_iff (ins : Instance) (calls : Calls) (data : Bytes) (d : Disk) :
    (∀ answer, (setHashTable ins calls data d).1 = some answer → answer ≠ .success →
        d.Restored (setHashTable ins calls data d).2) ↔
      (TakesOver ins calls data d → ¬ Crashes ins calls data → Undone ins calls data d) := by
  show Atomic ins calls data d ↔ _
  by_cases htakes : TakesOver ins calls data d
  · rw [imp_iff_right htakes]
    by_cases hcrash : Crashes ins calls data
    · refine iff_of_true (fun answer hanswer => ?_) fun halive => absurd hcrash halive
      rw [setHashTable_of_crashes htakes hcrash] at hanswer
      cases hanswer
    · rw [imp_iff_right hcrash]
      cases hinst : calls.tableInstalls
      · exact restored_iff_of_not_installed htakes hinst
      · exact restored_iff_of_installed htakes hinst hcrash
  · refine iff_of_true (fun answer hanswer _ => ?_) fun h => absurd h htakes
    cases hlock : d.locked
    · obtain ⟨hresult, hfile⟩ := overwriteTable_of_not_takesOver hlock htakes
      simp [setHashTable, hlock, hresult, Disk.Restored, ← hfile]
    · simp [setHashTable, hlock, Disk.Restored]

/-- nginx.conf cannot be read: the request answers 127, and the new table stays. A table whose increase is empty passes
the check and crashes the worker, which leaves the new table and the lock. -/
theorem new_table_stays :
    let ins (item : TableItem) : Instance := ⟨fun _ => some (some [item]), fun _ => true, emptyTable, id⟩
    let calls : Calls := ⟨true, 1, true, true, true, true, true, false, true, 0, true, true, true⟩
    let d : Disk := ⟨⟨some [49], none, none⟩, ⟨some [], none, none⟩, false⟩
    let after := setHashTable (ins (splitItem [49] [50])) calls [50] d
    (after = (some (.error 127), ⟨⟨some [50], none, some [49]⟩, ⟨some [], none, none⟩, false⟩) ∧
      ¬ d.Restored after.2) ∧
    setHashTable (ins ⟨false, ⟨[], []⟩, some ⟨none, none⟩, none⟩) calls [50] d =
      (none, ⟨⟨some [50], none, some [49]⟩, ⟨some [], none, none⟩, true⟩) :=
  ⟨⟨rfl, fun h => absurd h.1 (by decide)⟩, rfl⟩

end

end HustStore.Ha
