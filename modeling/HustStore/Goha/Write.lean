import HustStore.Base
import HustStore.Ha.Write

/-!
# Writes through goha

The second front end of the store.
-/

namespace HustStore.Goha

open Ha (Method)

/-! ### The hash table -/

def ngxHashKey (key : Bytes) : Nat := key.foldl (fun val c => val + c.toNat) 0

def locateHashRegion (key : Bytes) : Nat := ngxHashKey key % 1024

inductive Role
  | master | slave
  deriving DecidableEq, Repr

structure BackendDetail where
  host : Bytes
  alive : Bool
  deriving DecidableEq, Repr

structure BackendInfo where
  backend : Role → BackendDetail

def BackendInfo.host (info : BackendInfo) (role : Role) : Bytes := (info.backend role).host

def BackendInfo.alive (info : BackendInfo) (role : Role) : Bool := (info.backend role).alive

def fetchHustdbPeers (table : Nat → BackendInfo) (key : Bytes) : List Role :=
  [Role.master, .slave].filter (table (locateHashRegion key)).alive

/-! ### The handlers -/

structure HustdbResponse where
  code : Nat
  version : Nat
  backend : Bytes
  deriving DecidableEq, Repr

structure Args where
  key : Option Bytes
  val : Option Bytes
  tb : Option Bytes

structure Binlog where
  backend : Bytes
  host : Bytes
  method : Nat
  val : Bytes
  deriving DecidableEq, Repr

def binlogMethodCode : Method → Nat
  | .put => 1
  | .del => 2
  | .hset => 3
  | .hdel => 4
  | .sadd => 5
  | .srem => 6
  | .zadd => 7
  | .zrem => 8

structure Handler where
  /-- The text that selects the region, and the body of the record; none if an argument is missing. -/
  region : Args → Option (Bytes × Bytes)
  /-- When is a record asked for, by the number of acknowledgements? -/
  needBinlog : Nat → Bool
  /-- Does the answer carry the greatest version? -/
  versions : Bool

def hustdbPut : Handler where
  region args := args.key.bind fun key => args.val.map fun _ => (key, key)
  needBinlog succ := succ = 1
  versions := false

def hustdbDel : Handler where
  region args := args.key.map fun key => (key, key)
  needBinlog succ := succ = 1
  versions := false

def hustdbHset : Handler where
  region args := args.key.bind fun key => args.val.map fun val => (key, val)
  needBinlog succ := succ ≠ 0
  versions := true

def hustdbHdel : Handler where
  region args := args.key.map fun key => (key, [])
  needBinlog succ := succ ≠ 0
  versions := false

def hustdbSadd : Handler where
  region args := args.key.bind fun key => args.tb.map fun _ => (key, key)
  needBinlog succ := succ ≠ 0
  versions := true

def hustdbSrem : Handler := { hustdbSadd with versions := false }

def hustdbZadd : Handler where
  region args := args.tb.bind fun tb => args.key.map fun key => (tb, key)
  needBinlog succ := succ ≠ 0
  versions := true

def hustdbZrem : Handler := { hustdbZadd with versions := false }

def handlerOf : Method → Handler
  | .put => hustdbPut
  | .del => hustdbDel
  | .hset => hustdbHset
  | .hdel => hustdbHdel
  | .sadd => hustdbSadd
  | .srem => hustdbSrem
  | .zadd => hustdbZadd
  | .zrem => hustdbZrem

structure Tally where
  succ : Nat
  code : Nat
  version : Nat
  successBackend : Bytes
  failedBackend : Bytes
  deriving DecidableEq, Repr

def Tally.start : Tally := ⟨0, 0, 0, [], []⟩

def Tally.receive (versions : Bool) (t : Tally) (resp : HustdbResponse) : Tally :=
  if resp.code = 200 then
    { t with succ := t.succ + 1, code := 200, successBackend := resp.backend,
             version := if versions && resp.version > t.version then resp.version else t.version }
  else { t with failedBackend := resp.backend }

structure Answer where
  code : Nat
  version : Nat
  deriving DecidableEq, Repr

structure Result where
  code : Nat
  version : Nat
  binlog : Option Binlog
  deriving DecidableEq, Repr

def handle (table : Nat → BackendInfo) (method : Method) (args : Args) (answer : Role → Answer)
    (swapped : Bool) : Result :=
  match (handlerOf method).region args with
  | none => ⟨0, 0, none⟩
  | some (key, val) =>
    let info := table (locateHashRegion key)
    let backends := fetchHustdbPeers table key
    if backends.length = 0 then ⟨0, 0, none⟩
    else
      let sent := backends.map fun role =>
        (⟨(answer role).code, (answer role).version, info.host role⟩ : HustdbResponse)
      let arrived := if swapped then sent.reverse else sent
      let t := arrived.foldl (Tally.receive (handlerOf method).versions) .start
      let binlog :=
        if (handlerOf method).needBinlog t.succ && t.succ ≠ backends.length then
          some ⟨t.successBackend, t.failedBackend, binlogMethodCode method, val⟩
        else none
      ⟨t.code, t.version, binlog⟩

/-! ### What a 200 means -/

def Acked (info : BackendInfo) (answer : Role → Answer) (role : Role) : Prop :=
  info.alive role = true ∧ (answer role).code = 200

def Handed (info : BackendInfo) (answer : Role → Answer) (binlog : Option Binlog) (role : Role) : Prop :=
  ∃ other b, other ≠ role ∧ Acked info answer other ∧ binlog = some b ∧
    b.backend = info.host other ∧ b.host = info.host role

variable {table : Nat → BackendInfo} {method : Method} {args : Args} (answer : Role → Answer)
  (swapped : Bool) {key val : Bytes}

theorem needBinlog_zero (method : Method) : (handlerOf method).needBinlog 0 = false := by
  cases method <;> rfl

theorem needBinlog_one (method : Method) : (handlerOf method).needBinlog 1 = true := by
  cases method <;> rfl

section

variable (hregion : (handlerOf method).region args = some (key, val))
include hregion

theorem handle_of_dead (hpeers : fetchHustdbPeers table key = []) :
    handle table method args answer swapped = ⟨0, 0, none⟩ := by
  simp only [handle, hregion, hpeers, List.length_nil, if_true]

theorem handle_of_one {role : Role} (hpeers : fetchHustdbPeers table key = [role]) :
    ((handle table method args answer swapped).code = 200 ↔ (answer role).code = 200) ∧
      (handle table method args answer swapped).binlog = none := by
  simp only [handle, hregion, hpeers, List.map_cons, List.map_nil, List.reverse_singleton, ite_self,
    List.foldl_cons, List.foldl_nil, List.length_singleton]
  by_cases hok : (answer role).code = 200
  · simp [Tally.receive, Tally.start, hok]
  · simp [Tally.receive, Tally.start, hok, needBinlog_zero]

theorem handle_of_both (hpeers : fetchHustdbPeers table key = [.master, .slave]) :
    ((handle table method args answer swapped).code = 200 ↔ ∃ role, (answer role).code = 200) ∧
    ∀ role other, other ≠ role → (answer other).code = 200 → (answer role).code ≠ 200 →
      (handle table method args answer swapped).binlog =
        some ⟨(table (locateHashRegion key)).host other, (table (locateHashRegion key)).host role,
          binlogMethodCode method, val⟩ := by
  have hexists : (∃ role, (answer role).code = 200) ↔ (answer .master).code = 200 ∨ (answer .slave).code = 200 := by
    constructor
    · rintro ⟨role, hrole⟩
      cases role with
      | master => exact .inl hrole
      | slave => exact .inr hrole
    · rintro (h | h)
      · exact ⟨_, h⟩
      · exact ⟨_, h⟩
  rw [hexists]
  simp only [handle, hregion, hpeers, List.map_cons, List.map_nil, List.length_cons, List.length_nil]
  constructor
  · cases swapped <;> by_cases hm : (answer .master).code = 200 <;>
      by_cases hs : (answer .slave).code = 200 <;> simp [Tally.receive, Tally.start, hm, hs]
  · intro role other hne hok hfail
    cases role <;> cases other <;> first | exact absurd rfl hne | skip
    all_goals
      cases swapped <;> simp [Tally.receive, Tally.start, hok, hfail, needBinlog_one]

end

theorem fetchHustdbPeers_cases (table : Nat → BackendInfo) (key : Bytes) :
    let info := table (locateHashRegion key)
    ((∀ role, info.alive role = true) ∧ fetchHustdbPeers table key = [.master, .slave]) ∨
    (∃ role other, other ≠ role ∧ info.alive role = true ∧ info.alive other = false ∧
      fetchHustdbPeers table key = [role]) ∨
    ((∀ role, info.alive role = false) ∧ fetchHustdbPeers table key = []) := by
  intro info
  cases hm : info.alive .master with
  | true =>
    cases hs : info.alive .slave with
    | true =>
      refine .inl ⟨fun role => ?_, ?_⟩
      · cases role <;> assumption
      · simp [fetchHustdbPeers, info, hm, hs]
    | false =>
      refine .inr (.inl ⟨.master, .slave, by decide, hm, hs, ?_⟩)
      simp [fetchHustdbPeers, info, hm, hs]
  | false =>
    cases hs : info.alive .slave with
    | true =>
      refine .inr (.inl ⟨.slave, .master, by decide, hs, hm, ?_⟩)
      simp [fetchHustdbPeers, info, hm, hs]
    | false =>
      refine .inr (.inr ⟨fun role => ?_, ?_⟩)
      · cases role <;> assumption
      · simp [fetchHustdbPeers, info, hm, hs]

theorem eq_or_eq_of_ne {role other : Role} (h : other ≠ role) (r : Role) : r = role ∨ r = other := by
  revert h
  cases r <;> cases role <;> cases other <;> decide

def Durable (info : BackendInfo) (answer : Role → Answer) (binlog : Option Binlog) (recorded : Prop)
    (role : Role) : Prop :=
  Acked info answer role ∨ (Handed info answer binlog role ∧ recorded)

theorem durable_of_both (hregion : (handlerOf method).region args = some (key, val))
    (hpeers : fetchHustdbPeers table key = [.master, .slave])
    (halive : ∀ role, (table (locateHashRegion key)).alive role = true) {recorded : Prop}
    (hcode : (handle table method args answer swapped).code = 200) (role : Role)
    (hrecorded : ¬ Acked (table (locateHashRegion key)) answer role → recorded) :
    Durable (table (locateHashRegion key)) answer (handle table method args answer swapped).binlog
      recorded role := by
  have hboth := handle_of_both answer swapped hregion hpeers
  obtain ⟨other, hother⟩ := hboth.1.mp hcode
  by_cases hrole : (answer role).code = 200
  · exact .inl ⟨halive role, hrole⟩
  · have hne : other ≠ role := by
      rintro rfl
      exact hrole hother
    have hbinlog := hboth.2 role other hne hother hrole
    refine .inr ⟨⟨other, _, hne, ⟨halive other, hother⟩, hbinlog, rfl, rfl⟩, hrecorded ?_⟩
    exact fun hacked => hrole hacked.2

theorem not_durable_of_one (hregion : (handlerOf method).region args = some (key, val)) {role other : Role}
    (hpeers : fetchHustdbPeers table key = [role])
    (hother : (table (locateHashRegion key)).alive other = false) (recorded : Prop) :
    ¬ Durable (table (locateHashRegion key)) answer (handle table method args answer swapped).binlog
      recorded other := by
  have hone := handle_of_one answer swapped hregion hpeers
  rintro (⟨halive, -⟩ | ⟨⟨_, b, -, -, hbinlog, -⟩, -⟩)
  · rw [hother] at halive
    cases halive
  · rw [hone.2] at hbinlog
    cases hbinlog

theorem durable_iff (table : Nat → BackendInfo)
    (hregion : (handlerOf method).region args = some (key, val)) (recorded : Prop) :
    ((handle table method args answer swapped).code = 200 → ∀ role, Durable (table (locateHashRegion key)) answer
        (handle table method args answer swapped).binlog recorded role) ↔
    ((∀ role, (table (locateHashRegion key)).alive role = true) ∧
        ((∀ role, Acked (table (locateHashRegion key)) answer role) ∨ recorded)) ∨
      ∀ role, ¬ Acked (table (locateHashRegion key)) answer role := by
  rcases fetchHustdbPeers_cases table key with ⟨halive, hpeers⟩ |
    ⟨role, other, hne, hrole, hother, hpeers⟩ | ⟨hdead, hpeers⟩
  · have hcode := (handle_of_both answer swapped hregion hpeers).1
    constructor
    · intro h
      by_cases hnone : ∀ role, ¬ Acked (table (locateHashRegion key)) answer role
      · exact .inr hnone
      · obtain ⟨role, hrole⟩ := not_forall_not.mp hnone
        have hall := h (hcode.mpr ⟨role, hrole.2⟩)
        refine .inl ⟨halive, ?_⟩
        by_cases hacked : ∀ role, Acked (table (locateHashRegion key)) answer role
        · exact .inl hacked
        · obtain ⟨role, hrole⟩ := not_forall.mp hacked
          exact .inr ((hall role).resolve_left hrole).2
    · rintro (⟨-, hacked | hrecorded⟩ | hnone) h role
      · exact .inl (hacked role)
      · exact durable_of_both answer swapped hregion hpeers halive h role fun _ => hrecorded
      · obtain ⟨role', hrole'⟩ := hcode.mp h
        exact absurd ⟨halive role', hrole'⟩ (hnone role')
  · have hcode := (handle_of_one answer swapped hregion hpeers).1
    have hlost := not_durable_of_one answer swapped hregion hpeers hother recorded
    constructor
    · intro h
      refine .inr fun r hacked => ?_
      rcases eq_or_eq_of_ne hne r with rfl | rfl
      · exact hlost (h (hcode.mpr hacked.2) other)
      · exact hlost (.inl hacked)
    · rintro (⟨halive, -⟩ | hnone) h
      · rw [halive other] at hother
        cases hother
      · exact absurd ⟨hrole, hcode.mp h⟩ (hnone role)
  · rw [handle_of_dead answer swapped hregion hpeers]
    constructor
    · intro _
      refine .inr fun role hacked => ?_
      have halive := hacked.1
      rw [hdead role] at halive
      cases halive
    · rintro - h
      cases h

/-- A 200 means that each backend has acknowledged the write, or that a record for it was handed to the
other one, exactly when both backends are alive or none that is alive acknowledges the write. If the
answer to the record counts as well, it has to be 200 unless both have acknowledged the write. -/
theorem success_is_durable_iff (table : Nat → BackendInfo) (method : Method) (args : Args)
    (answer : Role → Answer) (swapped : Bool) (binlogCode : Nat) (key val : Bytes)
    (hregion : (handlerOf method).region args = some (key, val)) :
    let info := table (locateHashRegion key)
    let result := handle table method args answer swapped
    ((result.code = 200 → ∀ role, Acked info answer role ∨ Handed info answer result.binlog role) ↔
      (∀ role, info.alive role = true) ∨ ∀ role, ¬ Acked info answer role) ∧
    ((result.code = 200 → ∀ role, Acked info answer role ∨
        (Handed info answer result.binlog role ∧ binlogCode = 200)) ↔
      ((∀ role, info.alive role = true) ∧ ((∀ role, Acked info answer role) ∨ binlogCode = 200)) ∨
        ∀ role, ¬ Acked info answer role) := by
  intro info result
  refine ⟨?_, durable_iff answer swapped table hregion (binlogCode = 200)⟩
  have hhanded := durable_iff answer swapped table hregion True
  simpa only [Durable, and_true, or_true] using hhanded

/-- Both backends are alive, the slave fails, and the master is asked to record the write. -/
theorem success_is_durable_put :
    let table : Nat → BackendInfo := fun _ => ⟨fun
      | .master => ⟨[49], true⟩
      | .slave => ⟨[50], true⟩⟩
    let answer : Role → Answer := fun
      | .master => ⟨200, 1⟩
      | .slave => ⟨502, 0⟩
    let result := handle table .put ⟨some [107], some [118], none⟩ answer false
    result = ⟨200, 0, some ⟨[49], [50], 1, [107]⟩⟩ ∧
      ∀ role, Acked (table 107) answer role ∨ Handed (table 107) answer result.binlog role := by
  intro table answer result
  have hresult : result = ⟨200, 0, some ⟨[49], [50], 1, [107]⟩⟩ := by decide
  have halive : ∀ role, (table 107).alive role = true := by
    intro role
    cases role <;> rfl
  have hiff := success_is_durable_iff table .put ⟨some [107], some [118], none⟩ answer false 200 [107] [107] rfl
  exact ⟨hresult, hiff.1.mpr (.inl halive) (congrArg Result.code hresult)⟩

/-- The slave is dead: the master acknowledges the write, the client is told that it succeeded, and
nothing is recorded for the slave. -/
theorem success_while_a_backend_is_dead :
    let table : Nat → BackendInfo := fun _ => ⟨fun
      | .master => ⟨[49], true⟩
      | .slave => ⟨[50], false⟩⟩
    let answer : Role → Answer := fun _ => ⟨200, 1⟩
    let result := handle table .put ⟨some [107], some [118], none⟩ answer false
    result.code = 200 ∧ ¬ ∀ role, Acked (table 107) answer role ∨ Handed (table 107) answer result.binlog role := by
  intro table answer result
  have hresult : result = ⟨200, 0, none⟩ := by decide
  refine ⟨by rw [hresult], fun h => ?_⟩
  rcases h .slave with ⟨halive, -⟩ | ⟨_, _, -, -, hbinlog, -⟩
  · cases halive
  · rw [hresult] at hbinlog
    cases hbinlog

end HustStore.Goha
