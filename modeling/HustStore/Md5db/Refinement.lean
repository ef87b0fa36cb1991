import HustStore.Md5
import HustStore.Md5db.Contents

/-!
# The store as a map

Seen from outside, the store should be a finite map from addresses to values: `get` returns the value of the
last successful put, as long as no successful deletion followed.
-/

namespace HustStore.Md5db

abbrev ValueMap := Address → Option Bytes

namespace Call

variable (md5 : Bytes → InnerKey)

def track (s : Db × ValueMap) (c : Call) : Db × ValueMap :=
  match c with
  | .put q userKey val version isDup =>
    let (reply, db) := s.1.put md5 q userKey val version isDup
    (db, if reply.r = .ok then Function.update s.2 c.address (some val) else s.2)
  | .del q userKey version isDup =>
    let (reply, db) := s.1.del md5 q userKey version isDup
    (db, if reply.r = .ok then Function.update s.2 c.address none else s.2)
  | .get _ _ => s
  | .exists_ _ _ => s

theorem track_fst (s : Db × ValueMap) (c : Call) : (c.track md5 s).1 = c.step md5 s.1 := by
  cases c <;> rfl

def Plain : Call → Prop
  | .put _ _ _ version isDup | .del _ _ version isDup => version = 0 ∧ isDup = false
  | .get _ _ | .exists_ _ _ => True

instance : (c : Call) → Decidable c.Plain
  | .put _ _ _ version isDup | .del _ _ version isDup =>
    inferInstanceAs (Decidable (version = 0 ∧ isDup = false))
  | .get _ _ | .exists_ _ _ => .isTrue trivial

end Call

namespace Db

variable {md5 : Bytes → InnerKey} {used : Set Address} {db : Db} {dir : Directory}
  {m : ValueMap} {q : Query} {userKey val : Bytes} {a : Address}

def RecordOf (userKey val bytes : Bytes) : Prop :=
  ∃ d : KvDataItem, d.userKeyLen = userKey.length ∧ bytes = recordBytes val userKey d

/-- The cell of an address has its value, whatever its version. -/
def CellOf (a : Address) (cell : Option (Bytes × Nat)) : Option Bytes → Prop
  | none => cell = none
  | some val => checkUserKey a.key ∧ ∃ bytes version, cell = some (bytes, version) ∧ RecordOf a.key val bytes

theorem CellOf.congr {cell cell' : Option (Bytes × Nat)} {o : Option Bytes} (h : CellOf a cell o)
    (hcell : cell'.map Prod.fst = cell.map Prod.fst) : CellOf a cell' o := by
  cases o with
  | none =>
    rw [show cell = none from h, Option.map_none] at hcell
    exact Option.map_eq_none_iff.mp hcell
  | some val =>
    obtain ⟨hcheck, bytes, version, rfl, hrecord⟩ := h
    obtain ⟨⟨bytes', version'⟩, rfl, rfl⟩ := Option.map_eq_some_iff.mp hcell
    exact ⟨hcheck, bytes', version', rfl, hrecord⟩

/-- The store holds the map at the addresses in use. -/
structure Refines (md5 : Bytes → InnerKey) (used : Set Address) (db : Db) (dir : Directory) (m : ValueMap) :
    Prop where
  run : db.RunInv dir
  cells : ∀ a ∈ used, CellOf a (db.view dir (a.digest md5)) (m a)

theorem Refines.answers (h : Refines md5 used db dir m) (ha : ⟨q.table, userKey⟩ ∈ used)
    (huser : checkUserKey userKey) :
    (∀ val, m ⟨q.table, userKey⟩ = some val → (db.get md5 q userKey).r = .ok ∧
      (db.get md5 q userKey).rsp = val ∧ (db.exists_ md5 q userKey).1 = .ok) ∧
    (m ⟨q.table, userKey⟩ = none → (db.get md5 q userKey).r = .err .ENOENT ∧
      (db.get md5 q userKey).rsp = [] ∧ (db.exists_ md5 q userKey).1 = .err .ENOENT) := by
  have hget := h.run.inv.get_eq md5 q huser
  have hexists := h.run.inv.exists_eq md5 q huser
  have hcell := h.cells _ ha
  refine ⟨fun val hm => ?_, fun hm => ?_⟩
  · rw [hm] at hcell
    obtain ⟨-, bytes, version, hview, d, hd, rfl⟩ := hcell
    change db.view dir (innerKeyOf md5 q userKey) = _ at hview
    rw [hview] at hget hexists
    simp only [getOf, parseRecord_recordBytes huser val d hd] at hget
    simp [hget, hexists, existsOf]
  · rw [hm] at hcell
    change db.view dir (innerKeyOf md5 q userKey) = none at hcell
    rw [hcell] at hget hexists
    simp [hget, hexists, getOf, existsOf]

theorem Refines.update (h : Refines md5 used db dir m) {db' : Db} {dir' : Directory}
    (hinj : Set.InjOn (Address.digest md5) used) (ha : a ∈ used) (hrun : db'.RunInv dir') (o : Option Bytes)
    (hself : CellOf a (db'.view dir' (a.digest md5)) o)
    (hother : ∀ k, k ≠ a.digest md5 → (db'.view dir' k).map Prod.fst = (db.view dir k).map Prod.fst) :
    Refines md5 used db' dir' (Function.update m a o) := by
  refine ⟨hrun, fun b hb => ?_⟩
  by_cases heq : b = a
  · subst heq
    rwa [Function.update_self]
  · rw [Function.update_of_ne heq]
    exact (h.cells b hb).congr (hother _ fun hdigest => heq (hinj hb ha hdigest))

theorem Refines.keep (h : Refines md5 used db dir m) {db' : Db} (hrun : db'.RunInv dir)
    (hview : db'.view dir = db.view dir) : Refines md5 used db' dir m :=
  ⟨hrun, fun a ha => hview ▸ h.cells a ha⟩

theorem accepts_zero (fromBinlog : Bool) (version : Nat) : Accepts 0 fromBinlog version := .inl rfl

section

variable (h : Refines md5 used db dir m) (hinj : Set.InjOn (Address.digest md5) used)
  (ha : ⟨q.table, userKey⟩ ∈ used)
include h hinj ha

theorem Refines.put (hplace : db.HasPlace (innerKeyOf md5 q userKey)) :
    ∃ dir', Refines md5 used (db.put md5 q userKey val 0 false).2 dir'
      (if (db.put md5 q userKey val 0 false).1.r = .ok then Function.update m ⟨q.table, userKey⟩ (some val)
        else m) := by
  by_cases hargs : PutArgs userKey val 0 false
  swap
  · rw [put_of_invalid md5 db q hargs]
    exact ⟨dir, h⟩
  obtain ⟨r, version, ctxt, db', dir', houtcome, hput⟩ := h.run.inv.put md5 hargs hplace
  have hrun := h.run.congr (houtcome.inv h.run.inv) houtcome.fileCount
  rw [hput]
  simp only [Bool.false_eq_true, and_false, if_false]
  have hrecord : RecordOf userKey val (recordBytes val userKey (kvDataOf q userKey)) :=
    ⟨_, rfl, rfl⟩
  cases houtcome with
  | failed _ _ hkept _ => exact ⟨dir, h.keep hrun hkept.view_eq⟩
  | refused _ hrefuse _ _ => exact absurd (accepts_zero _ _) hrefuse
  | inserted hins hreported _ _ _ =>
    have hone : version ≠ 0 := by
      rcases hreported with rfl | rfl <;> decide
    rw [if_neg hone, if_pos rfl]
    refine ⟨dir', h.update hinj ha hrun (some val) ⟨hargs.user, _, _, hins.view_self, hrecord⟩ fun k hne => ?_⟩
    rcases hins.view_other hne with heq | heq <;> rw [heq]
    cases db.view dir k <;> rfl
  | updated _ hupdated _ _ _ =>
    rw [if_pos rfl]
    exact ⟨_, h.update hinj ha hrun (some val) ⟨hargs.user, _, _, hupdated.view_self, hrecord⟩
      fun k hne => by rw [hupdated.view_other h.run.inv hne]⟩

theorem Refines.del (hroom : db.contents.Room) (htable : q.table.length + 5 ≤ leveldbKeyMax) :
    ∃ dir', Refines md5 used (db.del md5 q userKey 0 false).2 dir'
      (if (db.del md5 q userKey 0 false).1.r = .ok then Function.update m ⟨q.table, userKey⟩ none else m) := by
  by_cases huser : checkUserKey userKey = true
  swap
  · rw [del_of_invalid md5 db q fun hargs => huser hargs.1]
    exact ⟨dir, h⟩
  obtain ⟨r, version, ctxt, db', dir', houtcome, hdel⟩ :=
    h.run.inv.del md5 huser (Nat.zero_le _) false hroom (h.run.listable htable _)
  have hrun := h.run.congr (houtcome.inv h.run.inv) houtcome.fileCount
  rw [hdel]
  cases houtcome with
  | absent _ => exact ⟨dir, h⟩
  | refused _ hrefuse _ _ _ _ => exact absurd (accepts_zero _ _) hrefuse
  | removed _ hremoved _ _ =>
    rw [if_pos rfl]
    exact ⟨_, h.update hinj ha hrun none (Removed.view_self _)
      fun k hne => by rw [hremoved.view_other h.run.inv hne]⟩

end

theorem Refines.track (h : Refines md5 used db dir m) (hinj : Set.InjOn (Address.digest md5) used) {c : Call}
    (hplain : c.Plain) (ha : c.address ∈ used) (hplaced : c.Placed md5 db) :
    ∃ dir', Refines md5 used (c.track md5 (db, m)).1 dir' (c.track md5 (db, m)).2 := by
  cases c with
  | put q userKey val version isDup =>
    obtain ⟨rfl, rfl⟩ := hplain
    exact h.put hinj ha hplaced
  | del q userKey version isDup =>
    obtain ⟨rfl, rfl⟩ := hplain
    exact h.del hinj ha hplaced.1 hplaced.2
  | get q userKey => exact ⟨dir, h⟩
  | exists_ q userKey => exact ⟨dir, h⟩

end Db

/-! ### Runs -/

section Runs

variable {md5 : Bytes → InnerKey} {used : Set Address} {cfg : Config} {calls : List Call}

theorem refines_run (hcfg : cfg.Valid) (hinj : Set.InjOn (Address.digest md5) used)
    (hcalls : ∀ c ∈ calls, c.Plain ∧ c.address ∈ used)
    (hguard : Run.Guarded (Call.step md5) (Call.Placed md5) (Db.create cfg) calls) :
    ∃ dir, Db.Refines md5 used (Run.exec (Call.step md5) (Db.create cfg) calls) dir
      (Run.exec (Call.track md5) (Db.create cfg, fun _ => none) calls).2 := by
  have hlift := Run.Guarded.lift (f := Prod.fst) (t := (Db.create cfg, fun _ => none))
    (Call.track_fst md5) (hguard.and_forall hcalls)
  have hrun := hlift.invariant (P := fun s => ∃ dir, Db.Refines md5 used s.1 dir s.2)
    (fun s c ⟨dir, h⟩ hc => h.track hinj hc.1.1 hc.1.2 hc.2)
    ⟨_, Db.runInv_create hcfg, fun _ _ => Db.view_none rfl⟩
  rwa [Run.exec_simulates (Call.track_fst md5)] at hrun

/-- Along every guarded run of plain calls, `get` and `exists` answer for a key of any table with its last
successful put, and a call on another address does not change the answer. The version of the answer is
kept as well if the packed field can represent it. -/
theorem get_returns_last_put (hcfg : cfg.Valid) (hinj : Set.InjOn (Address.digest md5) used)
    (hcalls : ∀ c ∈ calls, c.Plain ∧ c.address ∈ used)
    (hguard : Run.Guarded (Call.step md5) (Call.Placed md5) (Db.create cfg) calls)
    {q : Query} {userKey : Bytes} (hused : ⟨q.table, userKey⟩ ∈ used) (huser : Db.checkUserKey userKey) :
    let db := Run.exec (Call.step md5) (Db.create cfg) calls
    let m := (Run.exec (Call.track md5) (Db.create cfg, fun _ => none) calls).2
    (∀ val, m ⟨q.table, userKey⟩ = some val → (db.get md5 q userKey).r = .ok ∧
      (db.get md5 q userKey).rsp = val ∧ (db.exists_ md5 q userKey).1 = .ok) ∧
    (m ⟨q.table, userKey⟩ = none → (db.get md5 q userKey).r = .err .ENOENT ∧
      (db.get md5 q userKey).rsp = [] ∧ (db.exists_ md5 q userKey).1 = .err .ENOENT) ∧
    ∀ c : Call, c.address ∈ used → c.Placed md5 db → c.address ≠ ⟨q.table, userKey⟩ →
      ((c.step md5 db).get md5 q userKey).r = (db.get md5 q userKey).r ∧
      ((c.step md5 db).get md5 q userKey).rsp = (db.get md5 q userKey).rsp ∧
      ((c.step md5 db).exists_ md5 q userKey).1 = (db.exists_ md5 q userKey).1 ∧
      (Representable (db.exists_ md5 q userKey).2 → (c.step md5 db).get md5 q userKey = db.get md5 q userKey ∧
        (c.step md5 db).exists_ md5 q userKey = db.exists_ md5 q userKey) := by
  intro db m
  obtain ⟨dir, h⟩ := refines_run hcfg hinj hcalls hguard
  obtain ⟨hsome, hnone⟩ := h.answers hused huser
  refine ⟨hsome, hnone, fun c hc hplaced hne => ?_⟩
  exact h.run.reads_other hplaced huser fun heq => hne (hinj hc hused heq.symm)

def slotMates : List Bytes :=
  [ "00000000", "00cbpng1", "00gisu3u", "017lo3ug", "01jpvp8r", "01rsvi7c", "01s613jd",
    "02b6ftc5", "02rd3fdi", "02tcrnpe", "03c21alk", "03onkl5q", "04d1177o", "04g9nnpv",
    "04pabad5", "04vm6l3o", "05gs587h", "05hg0nj6", "05jhc4jf", "05m50giv", "06cgn3fm",
    "06g0pit1", "076ros5e", "07o7k8q4", "07pg7pk5", "081ehsea", "083vjj90", "08bqh69i",
    "08jsfpvp", "099piqa0", "09tetqve", "0a3ecnvj", "0a4pkslf", "0ai9798s", "0ap2d6td",
    "0b23tmpf", "0bbl02le", "0c86je63", "0ckea2p1", "0cra805d", "0ct5epdm", "0db5mq2d",
    "0dd77u5o", "0dfn065u", "0dqra8rh", "0dsst6gs", "0f8p6l3h", "0fb0vg5b", "0fem0a31",
    "0ff7f3am", "0fop9r7h", "0fpnun11", "0ft6jvpj", "0g0bt5np", "0g5sh86e", "0g6pd5fu",
    "0gn6oc7l", "0gnlb9v1", "0gp8dhpu", "0grnni7b", "0gvqp0lv", "0h01kfu2", "0h47c21h",
    "0h65lajs", "0hfjo59m", "0hj21jgd", "0htc5p7l", "0i6qh5sg", "0i9o6f58", "0iekh50i",
    "0iuffu3s", "0j8csq55", "0jl54q78", "0jurb3lu", "0k8bg732", "0kaicska", "0kdb3imm",
    "0kr9quj0", "0kv9gnqf", "0l2neera", "0leqjj91", "0lh8v20h"
  ].map ascii

def churn : List Char → Nat → List Call
  | [], _ => []
  | c :: rest, n =>
    if c = '+' then .put (.plain 0) (slotMates.getD n []) [1] 0 false :: churn rest (n + 1)
    else .del (.plain 0) (slotMates.getD (n - 1) []) 0 false :: churn rest (n - 1)

/-- Two tables, each with a run of puts and deletions of keys of one slot. -/
def twoTables : List Call :=
  churn "+++++-+--".toList 0 ++ [.put ⟨ascii "t", 0, 0, 0⟩ (ascii "k") [2] 0 false,
    .put ⟨ascii "t", 0, 0, 0⟩ (ascii "k") [3] 0 false, .del ⟨ascii "t", 0, 0, 0⟩ (ascii "j") 0 false]

def twoTablesUsed : List Address :=
  [⟨ascii "t", ascii "k"⟩, ⟨ascii "t", ascii "j"⟩] ++ (slotMates.take 5).map (Address.mk [])

theorem get_returns_last_put_slotMates :
    Run.Guarded (Call.step Md5.md5) (Call.Placed Md5.md5) (Db.create ⟨4, 2, 1, 1⟩) twoTables ∧
    ((Run.exec (Call.step Md5.md5) (Db.create ⟨4, 2, 1, 1⟩) twoTables).get
      Md5.md5 (.plain 0) (slotMates.getD 1 [])).rsp = [1] ∧
    ((Run.exec (Call.step Md5.md5) (Db.create ⟨4, 2, 1, 1⟩) twoTables).get
      Md5.md5 ⟨ascii "t", 0, 0, 0⟩ (ascii "k")).rsp = [3] := by
  have hguard : Run.Guarded (Call.step Md5.md5) (Call.Placed Md5.md5) (Db.create ⟨4, 2, 1, 1⟩) twoTables := by
    decide +kernel
  have hinj : Set.InjOn (Address.digest Md5.md5) {a | a ∈ twoTablesUsed} :=
    Address.injOn_digest (by decide +kernel)
  have hcalls : ∀ c ∈ twoTables, c.Plain ∧ c.address ∈ twoTablesUsed := by decide +kernel
  have hmap : (Run.exec (Call.track Md5.md5) (Db.create ⟨4, 2, 1, 1⟩, fun _ => none) twoTables).2
      ⟨(Query.plain 0).table, slotMates.getD 1 []⟩ = some [1] := by decide +kernel
  have hmap' : (Run.exec (Call.track Md5.md5) (Db.create ⟨4, 2, 1, 1⟩, fun _ => none) twoTables).2
      ⟨(Query.mk (ascii "t") 0 0 0).table, ascii "k"⟩ = some [3] := by decide +kernel
  have hused : ⟨(Query.plain 0).table, slotMates.getD 1 []⟩ ∈ twoTablesUsed := by decide +kernel
  have hused' : ⟨(Query.mk (ascii "t") 0 0 0).table, ascii "k"⟩ ∈ twoTablesUsed := by decide +kernel
  have huser : Db.checkUserKey (slotMates.getD 1 []) := by decide +kernel
  have h := (get_returns_last_put Config.valid_small hinj hcalls hguard hused huser).1 [1] hmap
  have h' := (get_returns_last_put Config.valid_small hinj hcalls hguard hused' (by decide)).1 [3] hmap'
  exact ⟨hguard, h.2.1, h'.2.1⟩

-- The calls of the counterexample, with the number of the next key evaluated at every call: the kernel keeps it as an
-- unevaluated sum otherwise.

def forced {α : Type} (f : Nat → α) : Nat → α
  | 0 => f 0
  | n + 1 => f (n + 1)

theorem forced_eq {α : Type} (f : Nat → α) (n : Nat) : forced f n = f n := by cases n <;> rfl

def churnForced : List Char → Nat → List Call
  | [], _ => []
  | c :: rest, n =>
    if c = '+' then forced (fun n => .put (.plain 0) (slotMates.getD n []) [1] 0 false) n :: churnForced rest (n + 1)
    else forced (fun n => .del (.plain 0) (slotMates.getD n []) 0 false) (n - 1) :: churnForced rest (n - 1)

theorem churn_eq_forced (l : List Char) (n : Nat) : churn l n = churnForced l n := by
  induction l generalizing n with
  | nil => rfl
  | cons c rest ih => simp only [churn, churnForced, forced_eq, ih]

/-- The count of a conflict slot is not exact from 64 keys on. After these puts and deletions of
keys with different digests, eighty keys are in the store, the slot counts none, and the first key
is not found any more. -/
theorem churn_loses_keys :
    let s := Run.exec (Call.track Md5.md5) (Db.create ⟨4, 2, 1, 1⟩, fun _ => none) (churn
      ("+++++++++++++++++++++++++++++++++++++++++++++++++++++++++++++++++---+++---+-++++---++++" ++
        "----++++----++++----++++----++++----++++----++++----++++----++++----++++----++++----+++" ++
        "----++--++++++++++++++++++++---+++--").toList 0)
    (slotMates.map Md5.md5).Nodup ∧
    (∀ key ∈ slotMates.take 80, s.2 ⟨[], key⟩ = some [1]) ∧
    (s.1.buckets (slotOf (Md5.md5 (slotMates.getD 0 [])))).type = .noData ∧
    (s.1.get Md5.md5 (.plain 0) (slotMates.getD 0 [])).r = .err .ENOENT := by
  -- the digests on their own, so that their evaluation is not kept through that of the run
  refine ⟨by decide +kernel, ?_⟩
  rw [churn_eq_forced]
  decide +kernel

end Runs

end HustStore.Md5db
