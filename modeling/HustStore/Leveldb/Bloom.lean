import HustStore.KvArray
import HustStore.Lib.Run
import HustStore.Md5

/-!
# The filter of a leveldb directory

`kv_leveldb_t` may keep a filter beside a leveldb database: a file with one bit for each value of the first bits
of the digests.
-/

namespace HustStore.Leveldb

open Md5db

/-! ### The bits of a filter -/

inductive BloomMode
  | disabled
  | large
  | small
  deriving DecidableEq, Repr

def bitMaskMap : List UInt8 := [0x80, 0x40, 0x20, 0x10, 0x08, 0x04, 0x02, 0x01]

def bitMask (whichBit : Nat) : UInt8 := bitMaskMap.getD whichBit 0

def byteSetBit (src : UInt8) (whichBit : Nat) : UInt8 := src ||| bitMask whichBit

def byteGetBit (src : UInt8) (whichBit : Nat) : Bool := src &&& bitMask whichBit ≠ 0

def binarySetBit (src : Nat → UInt8) (whichBit : Nat) : Nat → UInt8 :=
  assign src (whichBit / 8) (byteSetBit (src (whichBit / 8)) (whichBit % 8))

def binaryGetBit (src : Nat → UInt8) (whichBit : Nat) : Bool := byteGetBit (src (whichBit / 8)) (whichBit % 8)

theorem or_and (x y mask : UInt8) : (x ||| y) &&& mask = (x &&& mask) ||| (y &&& mask) := by
  simp [← UInt8.toBitVec_inj, BitVec.and_or_distrib_right]

theorem bitMask_ne_zero {whichBit : Nat} (h : whichBit < 8) : bitMask whichBit ≠ 0 := by
  revert whichBit
  decide

theorem binaryGetBit_set_self (src : Nat → UInt8) (whichBit : Nat) :
    binaryGetBit (binarySetBit src whichBit) whichBit = true := by
  have hmask := bitMask_ne_zero (Nat.mod_lt whichBit (show 0 < 8 by decide))
  unfold binaryGetBit binarySetBit byteGetBit byteSetBit
  rw [assign_self, decide_eq_true_iff, or_and, UInt8.and_self, ne_eq, UInt8.or_eq_zero_iff]
  exact fun h => hmask h.2

theorem binaryGetBit_set_mono {src : Nat → UInt8} {whichBit : Nat} (h : binaryGetBit src whichBit = true)
    (other : Nat) : binaryGetBit (binarySetBit src other) whichBit = true := by
  unfold binaryGetBit binarySetBit byteGetBit byteSetBit at *
  rw [decide_eq_true_iff] at h ⊢
  by_cases hbyte : whichBit / 8 = other / 8
  · rw [hbyte, assign_self, or_and, ne_eq, UInt8.or_eq_zero_iff]
    exact fun hboth => h (hbyte ▸ hboth.1)
  · rw [assign_of_ne hbyte]
    exact h

/-! ### The filter -/

def smallBits : Nat := 256 * 256 * 256

def largeBits : Nat := 256 * 256 * 256 * 16

def bloomFileLen : BloomMode → Nat
  | .large => largeBits / 8 + 1
  | _ => smallBits / 8 + 1

structure BloomFile where
  len : Nat
  data : Nat → UInt8

def bitId (mode : BloomMode) (md5 : InnerKey) : Nat :=
  match mode with
  | .large =>
    let p3 := md5.byte 0 / 16
    let p2 := md5.byte 0 % 16 * 16 + md5.byte 1 / 16
    let p1 := md5.byte 1 % 16 * 16 + md5.byte 2 / 16
    let p0 := md5.byte 2 % 16 * 16 + md5.byte 3 / 16
    p0 + 2 ^ 8 * p1 + 2 ^ 16 * p2 + 2 ^ 24 * p3
  | _ => md5.byte 2 + 2 ^ 8 * md5.byte 1 + 2 ^ 16 * md5.byte 0

def bloomBits : BloomMode → Nat
  | .large => largeBits
  | _ => smallBits

namespace BloomFile

def openFile (file : Option BloomFile) (mode : BloomMode) : BloomFile × Bool :=
  let file := file.getD ⟨bloomFileLen mode, fun _ => 0⟩
  (file, file.len = bloomFileLen mode)

def notFound (file : BloomFile) (mode : BloomMode) (md5 : InnerKey) : Bool :=
  if bitId mode md5 > bloomBits mode then false else !binaryGetBit file.data (bitId mode md5)

def addKey (file : BloomFile) (mode : BloomMode) (md5 : InnerKey) : BloomFile :=
  if bitId mode md5 > bloomBits mode then file
  else { file with data := binarySetBit file.data (bitId mode md5) }

variable (file : BloomFile) (mode : BloomMode) (md5 : InnerKey)

theorem notFound_addKey_self : (file.addKey mode md5).notFound mode md5 = false := by
  unfold addKey notFound
  split_ifs
  · rfl
  · rw [binaryGetBit_set_self, Bool.not_true]

variable {file mode md5}

theorem notFound_addKey {other : InnerKey} (h : file.notFound mode md5 = false) :
    (file.addKey mode other).notFound mode md5 = false := by
  unfold addKey
  by_cases hother : bitId mode other > bloomBits mode
  · rwa [if_pos hother]
  · rw [if_neg hother]
    unfold notFound at h ⊢
    split_ifs at h ⊢
    · rfl
    · rw [Bool.not_eq_false'] at h ⊢
      exact binaryGetBit_set_mono h _

end BloomFile

/-! ### The directory and its users -/

structure Handle where
  mode : BloomMode
  db : Bool
  deriving DecidableEq, Repr

structure Dir where
  records : SortedMap Bytes Bytes
  filter : Option BloomFile
  handle : Option Handle

def Dir.create : Dir := ⟨.empty, none, none⟩

namespace Dir

variable (md5 : Bytes → InnerKey)

def open_ (d : Dir) (mode : BloomMode) : Dir :=
  if mode = .disabled then { d with handle := some ⟨mode, true⟩ }
  else
    let (file, ok) := BloomFile.openFile d.filter mode
    { d with filter := some file, handle := some ⟨mode, ok⟩ }

def close (d : Dir) : Dir := { d with handle := none }

def bloomfilterAdd (d : Dir) (mode : BloomMode) (key : Bytes) : Dir :=
  { d with filter := d.filter.map fun file => file.addKey mode (md5 key) }

def bloomfilterIsNotFound (d : Dir) (mode : BloomMode) (key : Bytes) : Bool :=
  d.filter.any fun file => file.notFound mode (md5 key)

def write (d : Dir) (key val : Bytes) : Rc × Dir :=
  match d.handle with
  | none => (.err .EFAULT, d)
  | some h =>
    if !leveldbCheckKey key then (.err .EINVAL, d)
    else if !h.db then (.err .EFAULT, d)
    else (.ok, { d with records := d.records.insert key val })

def put (d : Dir) (key val : Bytes) : Rc × Dir :=
  let (r, d) := d.write key val
  match r, d.handle with
  | .ok, some h => (.ok, if h.mode = .disabled then d else d.bloomfilterAdd md5 h.mode key)
  | _, _ => (r, d)

def del (d : Dir) (key : Bytes) : Rc × Dir :=
  match d.handle with
  | none => (.err .EFAULT, d)
  | some h =>
    if !leveldbCheckKey key then (.err .EINVAL, d)
    else if !h.db then (.err .EFAULT, d)
    else (.ok, { d with records := d.records.erase key })

def lookup (d : Dir) (key : Bytes) : Rc × Bytes :=
  match d.records.get? key with
  | none => (.err .ENOENT, [])
  | some val => (.ok, val)

def get (d : Dir) (key : Bytes) : Rc × Bytes :=
  match d.handle with
  | none => (.err .EFAULT, [])
  | some h =>
    if !leveldbCheckKey key then (.err .EINVAL, [])
    else if !h.db then (.err .EFAULT, [])
    else if h.mode ≠ .disabled ∧ d.bloomfilterIsNotFound md5 h.mode key then (.err .ENOENT, [])
    else d.lookup key

end Dir

inductive Event
  | open_ (mode : BloomMode)
  | put (key val : Bytes)
  | stoppedPut (key val : Bytes)
  | del (key : Bytes)
  | close
  deriving DecidableEq, Repr

def Event.step (md5 : Bytes → InnerKey) (d : Dir) : Event → Dir
  | .open_ mode => d.open_ mode
  | .put key val => (d.put md5 key val).2
  | .stoppedPut key val => (d.write key val).2.close
  | .del key => (d.del key).2
  | .close => d.close

def Event.unfiltered : Event → Event
  | .open_ _ => .open_ .disabled
  | e => e

/-! ### When the filter is of no consequence -/

def Covers (md5 : Bytes → InnerKey) (records : SortedMap Bytes Bytes) (file : BloomFile) (mode : BloomMode) :
    Prop :=
  ∀ e ∈ records.entries, file.notFound mode (md5 e.1) = false

def Event.Keeps (md5 : Bytes → InnerKey) (d : Dir) : Event → Prop
  | .open_ mode => mode = .disabled ∨ (d.filter = none ∧ d.records.entries = []) ∨
      ∃ file, d.filter = some file ∧ file.len = bloomFileLen mode ∧ Covers md5 d.records file mode
  | _ => True

def Dir.Sees (md5 : Bytes → InnerKey) (d : Dir) : Prop :=
  ∀ h, d.handle = some h → h.db = true ∧
    (h.mode ≠ .disabled → ∀ file, d.filter = some file → Covers md5 d.records file h.mode)

structure Mirrors (d u : Dir) : Prop where
  records : u.records = d.records
  handle : u.handle = d.handle.map fun _ => ⟨.disabled, true⟩
  keys : ∀ e ∈ d.records.entries, leveldbCheckKey e.1 = true

section Steps

variable {md5 : Bytes → InnerKey} {d u : Dir}

variable {records : SortedMap Bytes Bytes} {mode : BloomMode}

theorem Covers.insert {file : BloomFile} (h : Covers md5 records file mode) (key val : Bytes) :
    Covers md5 (records.insert key val) (file.addKey mode (md5 key)) mode := by
  intro e he
  rcases SortedMap.mem_insertEntry he with rfl | he
  · exact file.notFound_addKey_self mode _
  · exact BloomFile.notFound_addKey (h e he)

theorem Covers.erase {file : BloomFile}
    (h : Covers md5 records file mode) (key : Bytes) : Covers md5 (records.erase key) file mode :=
  fun e he => h e (List.mem_filter.mp he).1

theorem get_of_handle {h : Handle} (hhandle : d.handle = some h) {key : Bytes} (hcheck : leveldbCheckKey key = true) :
    d.get md5 key = if !h.db then (.err .EFAULT, [])
      else if h.mode ≠ .disabled ∧ d.bloomfilterIsNotFound md5 h.mode key then (.err .ENOENT, [])
      else d.lookup key := by
  unfold Dir.get
  rw [hhandle, hcheck]
  rfl

theorem Mirrors.get_unfiltered (h : Mirrors d u) {handle : Handle} (hhandle : d.handle = some handle)
    {key : Bytes} (hcheck : leveldbCheckKey key = true) : u.get md5 key = d.lookup key := by
  have hu : u.handle = some ⟨.disabled, true⟩ := by rw [h.handle, hhandle]; rfl
  rw [get_of_handle hu hcheck, if_neg (by simp), if_neg (by simp), Dir.lookup, h.records, Dir.lookup]

theorem lookup_ne_EFAULT (d : Dir) (key : Bytes) : d.lookup key ≠ (.err .EFAULT, []) := by
  unfold Dir.lookup
  cases d.records.get? key <;> simp

theorem Mirrors.get_eq_iff (h : Mirrors d u) : (∀ key, d.get md5 key = u.get md5 key) ↔ d.Sees md5 := by
  constructor
  · intro heq handle hhandle
    have hdb : handle.db = true := by
      by_contra hnot
      have hkey := heq [0]
      rw [h.get_unfiltered hhandle (by decide), get_of_handle hhandle (by decide),
        if_pos (by simpa using hnot)] at hkey
      exact lookup_ne_EFAULT d [0] hkey.symm
    refine ⟨hdb, fun hmode file hfile e he => ?_⟩
    by_contra hnot
    have hfound : d.lookup e.1 = (.ok, e.2) := by
      unfold Dir.lookup
      rw [SortedMap.mem_entries.mp he]
    have hbit : d.bloomfilterIsNotFound md5 handle.mode e.1 = true := by
      unfold Dir.bloomfilterIsNotFound
      rw [hfile]
      exact (Bool.not_eq_false _).mp hnot
    have hkey := heq e.1
    rw [h.get_unfiltered hhandle (h.keys e he), get_of_handle hhandle (h.keys e he), hdb,
      if_neg (by simp), if_pos ⟨hmode, hbit⟩, hfound] at hkey
    cases hkey
  · intro hsees key
    cases hhandle : d.handle with
    | none =>
      unfold Dir.get
      rw [h.handle, hhandle]
      rfl
    | some handle =>
      obtain ⟨hdb, hcovers⟩ := hsees handle hhandle
      by_cases hcheck : leveldbCheckKey key = true
      swap
      · unfold Dir.get
        rw [h.handle, hhandle, Option.map_some]
        simp only [Bool.not_eq_true _ ▸ hcheck, Bool.not_false, if_true]
      rw [h.get_unfiltered hhandle hcheck, get_of_handle hhandle hcheck, hdb, if_neg (by simp)]
      split_ifs with hbit
      · -- A key without its bit has no record.
        obtain ⟨hmode, hbit⟩ := hbit
        unfold Dir.bloomfilterIsNotFound at hbit
        cases hfile : d.filter with
        | none =>
          rw [hfile] at hbit
          cases hbit
        | some file =>
          have hnone : d.records.get? key = none := by
            refine Option.eq_none_iff_forall_not_mem.mpr fun val hval => ?_
            rw [hfile, Option.any_some, hcovers hmode file hfile _ (SortedMap.mem_entries.mpr hval)] at hbit
            cases hbit
          rw [Dir.lookup, hnone]
      · rfl

/-! ### One event -/

def Dir.takes (d : Dir) (key : Bytes) : Bool := leveldbCheckKey key && d.handle.any Handle.db

theorem Dir.write_eq (d : Dir) (key val : Bytes) :
    (d.write key val).2 = if d.takes key then { d with records := d.records.insert key val } else d := by
  obtain ⟨records, filter, _ | ⟨mode, db⟩⟩ := d <;> unfold Dir.write Dir.takes <;> cases leveldbCheckKey key
  · rfl
  · rfl
  · rfl
  · cases db <;> rfl

theorem Dir.del_eq (d : Dir) (key : Bytes) :
    (d.del key).2 = if d.takes key then { d with records := d.records.erase key } else d := by
  obtain ⟨records, filter, _ | ⟨mode, db⟩⟩ := d <;> unfold Dir.del Dir.takes <;> cases leveldbCheckKey key
  · rfl
  · rfl
  · rfl
  · cases db <;> rfl

def Dir.filterAfter (md5 : Bytes → InnerKey) (d : Dir) (key : Bytes) : Option BloomFile :=
  match d.handle with
  | some h => if h.mode = .disabled then d.filter else d.filter.map fun file => file.addKey h.mode (md5 key)
  | none => d.filter

theorem Dir.filterAfter_of_handle {h : Handle} (hhandle : d.handle = some h) (hmode : h.mode ≠ .disabled)
    (key : Bytes) : d.filterAfter md5 key = d.filter.map fun file => file.addKey h.mode (md5 key) := by
  unfold Dir.filterAfter
  rw [hhandle]
  exact if_neg hmode

theorem Dir.put_eq (md5 : Bytes → InnerKey) (d : Dir) (key val : Bytes) : (d.put md5 key val).2 = if d.takes key then
      { d with records := d.records.insert key val, filter := d.filterAfter md5 key } else d := by
  obtain ⟨records, filter, _ | ⟨mode, db⟩⟩ := d <;> unfold Dir.put Dir.write Dir.takes Dir.filterAfter <;>
    cases leveldbCheckKey key
  · rfl
  · rfl
  · rfl
  · cases db with
    | false => rfl
    | true => cases mode <;> rfl

theorem Dir.open_disabled (d : Dir) : d.open_ .disabled = { d with handle := some ⟨.disabled, true⟩ } :=
  if_pos rfl

theorem Dir.open_filtered (d : Dir) (hmode : mode ≠ .disabled) : d.open_ mode = { d with
      filter := some (d.filter.getD ⟨bloomFileLen mode, fun _ => 0⟩)
      handle := some ⟨mode, (d.filter.getD ⟨bloomFileLen mode, fun _ => 0⟩).len = bloomFileLen mode⟩ } :=
  if_neg hmode

theorem Dir.open_records (d : Dir) (mode : BloomMode) :
    (d.open_ mode).records = d.records ∧ ∃ h, (d.open_ mode).handle = some h := by
  by_cases hmode : mode = .disabled
  · rw [hmode, d.open_disabled]
    exact ⟨rfl, _, rfl⟩
  · rw [d.open_filtered hmode]
    exact ⟨rfl, _, rfl⟩

theorem checked_insert (hkeys : ∀ e ∈ d.records.entries, leveldbCheckKey e.1 = true) {key : Bytes}
    (htakes : d.takes key = true) (val : Bytes) :
    ∀ e ∈ (d.records.insert key val).entries, leveldbCheckKey e.1 = true := by
  intro e he
  rcases SortedMap.mem_insertEntry he with rfl | he
  · exact (Bool.and_eq_true_iff.mp htakes).1
  · exact hkeys e he

theorem Mirrors.takes (h : Mirrors d u) (hsees : d.Sees md5) (key : Bytes) : u.takes key = d.takes key := by
  unfold Dir.takes
  rw [h.handle]
  cases hhandle : d.handle with
  | none => rfl
  | some handle => rw [Option.map_some, Option.any_some, Option.any_some, (hsees handle hhandle).1]

theorem Mirrors.step (h : Mirrors d u) (hsees : d.Sees md5) (e : Event) :
    Mirrors (e.step md5 d) (e.unfiltered.step md5 u) := by
  cases e with
  | open_ mode =>
    obtain ⟨hrecords, handle, hhandle⟩ := d.open_records mode
    refine ⟨?_, ?_, ?_⟩
    · exact (u.open_records .disabled).1.trans (h.records.trans hrecords.symm)
    · show (u.open_ .disabled).handle = (d.open_ mode).handle.map _
      rw [u.open_disabled, hhandle]
      rfl
    · show ∀ e ∈ (d.open_ mode).records.entries, _
      rw [hrecords]
      exact h.keys
  | put key val =>
    have hput := u.put_eq md5 key val
    rw [h.takes hsees] at hput
    simp only [Event.step, Event.unfiltered, hput, d.put_eq]
    split_ifs with htakes
    · exact ⟨congrArg (SortedMap.insert · key val) h.records, h.handle, checked_insert h.keys htakes val⟩
    · exact h
  | stoppedPut key val =>
    simp only [Event.step, Event.unfiltered, u.write_eq, d.write_eq, h.takes hsees]
    split_ifs with htakes
    · exact ⟨congrArg (SortedMap.insert · key val) h.records, rfl, checked_insert h.keys htakes val⟩
    · exact ⟨h.records, rfl, h.keys⟩
  | del key =>
    simp only [Event.step, Event.unfiltered, u.del_eq, d.del_eq, h.takes hsees]
    split_ifs
    · exact ⟨congrArg (SortedMap.erase · key) h.records, h.handle, fun e he => h.keys e (List.mem_filter.mp he).1⟩
    · exact h
  | close => exact ⟨h.records, rfl, h.keys⟩

theorem bitId_le (mode : BloomMode) (digest : InnerKey) : bitId mode digest ≤ bloomBits mode := by
  have hbyte (j : Nat) : digest.byte j < 256 := Nat.mod_lt _ (by decide)
  have h0 := hbyte 0
  have h1 := hbyte 1
  have h2 := hbyte 2
  have h3 := hbyte 3
  have hlarge : bloomBits .large = 2 ^ 28 := rfl
  have hsmall : bloomBits .small = 2 ^ 24 := rfl
  have hdisabled : bloomBits .disabled = 2 ^ 24 := rfl
  cases mode <;> simp only [bitId] <;> omega

theorem covers_new_iff : Covers md5 records ⟨bloomFileLen mode, fun _ => 0⟩ mode ↔ records.entries = [] := by
  constructor
  · intro h
    refine List.eq_nil_iff_forall_not_mem.mpr fun e he => ?_
    have hfound := h e he
    unfold BloomFile.notFound at hfound
    rw [if_neg (Nat.not_lt.mpr (bitId_le mode (md5 e.1)))] at hfound
    simp [binaryGetBit, byteGetBit] at hfound
  · intro h e he
    rw [h] at he
    cases he

theorem keeps_iff (hsees : d.Sees md5) (e : Event) : e.Keeps md5 d ↔ (e.step md5 d).Sees md5 := by
  cases e with
  | open_ mode =>
    by_cases hmode : mode = .disabled
    · refine iff_of_true (.inl hmode) fun h hh => ?_
      rw [Event.step, hmode, d.open_disabled] at hh
      cases hh
      exact ⟨rfl, fun hne => absurd rfl hne⟩
    · have hstep : ((Event.open_ mode).step md5 d).Sees md5 ↔
          (d.filter.getD ⟨bloomFileLen mode, fun _ => 0⟩).len = bloomFileLen mode ∧
            Covers md5 d.records (d.filter.getD ⟨bloomFileLen mode, fun _ => 0⟩) mode := by
        rw [Event.step, d.open_filtered hmode]
        constructor
        · intro h
          obtain ⟨hdb, hcovers⟩ := h _ rfl
          exact ⟨of_decide_eq_true hdb, hcovers hmode _ rfl⟩
        · rintro ⟨hlen, hcovers⟩ _ ⟨⟩
          exact ⟨decide_eq_true hlen, fun _ file hfile => Option.some.inj hfile ▸ hcovers⟩
      rw [hstep, Event.Keeps, or_iff_right hmode]
      cases d.filter with
      | none => simp [covers_new_iff]
      | some file => simp
  | put key val =>
    refine iff_of_true trivial ?_
    rw [Event.step, d.put_eq]
    split_ifs with htakes
    · intro h hh
      obtain ⟨hdb, hcovers⟩ := hsees h hh
      refine ⟨hdb, fun hmode file hfile => ?_⟩
      obtain ⟨file', hfile', rfl⟩ :=
        Option.map_eq_some_iff.mp ((d.filterAfter_of_handle hh hmode key).symm.trans hfile)
      exact (hcovers hmode file' hfile').insert key val
    · exact hsees
  | stoppedPut key val => exact iff_of_true trivial fun _ h => by cases h
  | del key =>
    refine iff_of_true trivial ?_
    rw [Event.step, d.del_eq]
    split_ifs
    · intro h hh
      obtain ⟨hdb, hcovers⟩ := hsees h hh
      exact ⟨hdb, fun hmode file hfile => (hcovers hmode file hfile).erase key⟩
    · exact hsees
  | close => exact iff_of_true trivial fun _ h => by cases h

end Steps

/-! ### Whole histories -/

theorem mirrors_create : Mirrors .create .create := ⟨rfl, rfl, fun _ h => by cases h⟩

theorem sees_create (md5 : Bytes → InnerKey) : Dir.create.Sees md5 := fun _ h => by cases h

/-- At every point of a history every get is answered as without the filter, exactly if every open that uses
the filter finds a new directory or a filter of its own length with the bit of every record. -/
theorem filter_transparent_iff (md5 : Bytes → InnerKey) (events : List Event) :
    (∀ taken, taken <+: events → ∀ key, (Run.exec (Event.step md5) .create taken).get md5 key =
        (Run.exec (Event.step md5) .create (taken.map Event.unfiltered)).get md5 key) ↔
      Run.Guarded (Event.step md5) (Event.Keeps md5) .create events := by
  have hlockstep : Run.Guarded (Event.step md5) (Event.Keeps md5) .create events ↔
      ∀ taken, taken <+: events → ∀ key, (Run.exec (Event.step md5) .create taken).get md5 key =
        (Run.exec (fun u e => Event.step md5 u e.unfiltered) .create taken).get md5 key := by
    refine Run.guarded_iff_lockstep (R := Mirrors) (P := fun d u => ∀ key, d.get md5 key = u.get md5 key)
      _ ?_ ?_ mirrors_create (mirrors_create.get_eq_iff.mpr (sees_create md5))
    · exact fun d u e h hget => h.step (h.get_eq_iff.mp hget) e
    · intro d u e h hget
      have hsees := h.get_eq_iff.mp hget
      rw [keeps_iff hsees, (h.step hsees e).get_eq_iff]
  rw [hlockstep]
  simp only [Run.exec, List.foldl_map]

/-- A key that was put before the filter was in use is not found with it. -/
theorem record_behind_new_filter :
    let events : List Event := [.open_ .disabled, .put (ascii "k") [1], .close, .open_ .small]
    (Run.exec (Event.step Md5.md5) .create events).get Md5.md5 (ascii "k") = (.err .ENOENT, []) ∧
      (Run.exec (Event.step Md5.md5) .create (events.map Event.unfiltered)).get Md5.md5 (ascii "k") = (.ok, [1]) := by
  decide +kernel

end HustStore.Leveldb
