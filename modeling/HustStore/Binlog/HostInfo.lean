import HustStore.Base
import HustStore.Lib.SortedMap

/-!
# The hosts of the binlog

The binlog keeps a queue and a status for every host that it delivers to. The queue takes the tasks that the
thread pool has no room for.
-/

namespace HustStore.Binlog

structure HostTask where
  id : Nat
  host : Bytes
  deriving DecidableEq, Repr

structure HostStatus where
  status : Int
  remain : Int
  silence : Int
  deriving DecidableEq, Repr

def HostStatus.create : HostStatus := ⟨0, 0, 0⟩

structure HostInfo where
  queue : SortedMap Bytes (List HostTask)
  status : SortedMap Bytes HostStatus
  cursor : Nat

structure HostConf where
  poolSize : Nat
  queueSize : Nat
  silenceLimit : Int

namespace HostInfo

def create : HostInfo := ⟨.empty, .empty, 0⟩

def hosts (info : HostInfo) : List Bytes := info.queue.entries.map Prod.fst

def hasHost (info : HostInfo) (host : Bytes) : Bool := (info.queue.get? host).isSome

def queueOf (info : HostInfo) (host : Bytes) : List HostTask := (info.queue.get? host).getD []

def statusOf (info : HostInfo) (host : Bytes) : HostStatus := (info.status.get? host).getD .create

def putStatus (info : HostInfo) (host : Bytes) (st : HostStatus) : HostInfo :=
  { info with status := info.status.insert host st }

def putQueue (info : HostInfo) (host : Bytes) (tasks : List HostTask) : HostInfo :=
  { info with queue := info.queue.insert host tasks }

def setStatus (info : HostInfo) (host : Bytes) (status : Int) : HostInfo :=
  info.putStatus host { info.statusOf host with status }

def touch (info : HostInfo) (host : Bytes) : HostInfo := info.putStatus host (info.statusOf host)

def isAlive (info : HostInfo) (host : Bytes) : Bool := (info.statusOf host).status = 1

def increment (info : HostInfo) (host : Bytes) : HostInfo :=
  let st := info.statusOf host
  info.putStatus host { st with remain := st.remain + 1, silence := 0 }

def incrementWithLock (info : HostInfo) (host : Bytes) : HostInfo :=
  if (info.status.get? host).isSome then info.increment host else info

def decrement (info : HostInfo) (host : Bytes) : HostInfo :=
  let st := info.statusOf host
  info.putStatus host { st with remain := st.remain - 1 }

def finishTask (info : HostInfo) (host : Bytes) : HostInfo :=
  if (info.status.get? host).isSome then info.decrement host else info

def findHost (info : HostInfo) (host : Bytes) : Option Bool :=
  if info.hosts.length ≥ 1024 then some false
  else if info.hasHost host then some true
  else none

def newHost (info : HostInfo) (host : Bytes) : HostInfo :=
  { info with queue := info.queue.insert host [], status := info.status.insert host .create }

/-- `add_host`: the two sections with nothing in between. A full map refuses, a registered host stays as it is. -/
def addHost (info : HostInfo) (host : Bytes) : HostInfo :=
  match info.findHost host with
  | some _ => info
  | none => info.newHost host

def removeHost (info : HostInfo) (host : Bytes) : HostInfo :=
  if info.hasHost host then
    { info with queue := info.queue.erase host, status := info.status.erase host }
  else info

def removeHosts (info : HostInfo) (hosts : List Bytes) : HostInfo := hosts.foldl removeHost info

def silentHosts (conf : HostConf) (info : HostInfo) : List Bytes :=
  info.hosts.filter fun host => (info.statusOf host).silence ≥ conf.silenceLimit

def checkSilenceAndRemoveHost (conf : HostConf) (info : HostInfo) : HostInfo :=
  info.removeHosts (info.silentHosts conf)

def round (info : HostInfo) : Option (List Bytes × Nat) :=
  if info.hosts = [] then some ([], 0)
  else if info.cursor > info.hosts.length then none
  else
    let ahead := info.hosts.drop info.cursor
    let size := min ahead.length 5
    let remain := 5 - size
    if remain ≠ 0 then
      some (ahead.take size ++ info.hosts.take remain, min remain info.hosts.length)
    else some (ahead.take size, info.cursor + size)

def checkDb (answers : Bytes → Bool) (info : HostInfo) : Option HostInfo :=
  info.round.map fun (probed, cursor) =>
    let info := probed.foldl (fun info host => info.setStatus host (if answers host then 1 else 0)) info
    { info with cursor }

/-! ### What the operations do to a host and leave alone -/

section

variable (info : HostInfo) (host other : Bytes) (st : HostStatus) (tasks : List HostTask)

@[simp] theorem hosts_putStatus : (info.putStatus host st).hosts = info.hosts := rfl

@[simp] theorem hasHost_putStatus : (info.putStatus host st).hasHost other = info.hasHost other := rfl

@[simp] theorem queueOf_putStatus : (info.putStatus host st).queueOf other = info.queueOf other := rfl

@[simp] theorem statusOf_putQueue : (info.putQueue host tasks).statusOf other = info.statusOf other :=
  rfl

@[simp] theorem isAlive_putQueue : (info.putQueue host tasks).isAlive other = info.isAlive other :=
  rfl

@[simp] theorem status_putQueue : (info.putQueue host tasks).status = info.status := rfl

theorem statusOf_putStatus :
    (info.putStatus host st).statusOf other = if other = host then st else info.statusOf other := by
  rw [statusOf, putStatus, SortedMap.get?_insert]
  split_ifs <;> rfl

theorem queueOf_putQueue :
    (info.putQueue host tasks).queueOf other = if other = host then tasks else info.queueOf other := by
  rw [queueOf, putQueue, SortedMap.get?_insert]
  split_ifs <;> rfl

theorem hasHost_putQueue :
    (info.putQueue host tasks).hasHost other = (decide (other = host) || info.hasHost other) := by
  rw [hasHost, putQueue, SortedMap.get?_insert]
  split_ifs with h <;> simp [h, hasHost]

theorem hasHost_newHost : (info.newHost host).hasHost other = (decide (other = host) || info.hasHost other) :=
  hasHost_putQueue info host other []

theorem queueOf_newHost : (info.newHost host).queueOf other = if other = host then [] else info.queueOf other :=
  queueOf_putQueue info host other []

theorem statusOf_newHost :
    (info.newHost host).statusOf other = if other = host then .create else info.statusOf other :=
  statusOf_putStatus info host other .create

end

variable {info : HostInfo} {host : Bytes}

theorem mem_hosts : host ∈ info.hosts ↔ info.hasHost host = true := by
  rw [hasHost, Option.isSome_iff_exists, hosts, List.mem_map]
  constructor
  · rintro ⟨⟨_, tasks⟩, he, rfl⟩
    exact ⟨tasks, SortedMap.mem_entries.mp he⟩
  · rintro ⟨tasks, h⟩
    exact ⟨(host, tasks), SortedMap.mem_entries.mpr h, rfl⟩

theorem queueOf_of_not_hasHost (h : info.hasHost host = false) : info.queueOf host = [] := by
  rw [hasHost, Option.isSome_eq_false_iff, Option.isNone_iff_eq_none] at h
  rw [queueOf, h]
  rfl

theorem hasHost_of_queueOf (h : info.queueOf host ≠ []) : info.hasHost host = true := by
  by_contra hnot
  exact h (queueOf_of_not_hasHost (Bool.eq_false_iff.mpr hnot))

/-! ### Removals -/

theorem hasHost_removeHosts (info : HostInfo) (gone : List Bytes) (host : Bytes) :
    (info.removeHosts gone).hasHost host = (info.hasHost host && decide (host ∉ gone)) := by
  induction gone generalizing info with
  | nil => simp [removeHosts]
  | cons first gone ih =>
    have hfirst : (info.removeHost first).hasHost host = (info.hasHost host && decide (host ≠ first)) := by
      unfold removeHost
      split_ifs with hhas
      · by_cases hne : host = first
        · simp [hasHost, hne]
        · simp [hasHost, hne, SortedMap.get?_erase_of_ne _ hne]
      · by_cases hne : host = first
        · simp [hne, hhas]
        · simp [hne]
    rw [removeHosts, List.foldl_cons]
    refine (ih _).trans ?_
    rw [hfirst, Bool.and_assoc]
    simp

variable {gone : List Bytes}

theorem removeHosts_frame {β : Type} (f : HostInfo → β)
    (hstep : ∀ (info : HostInfo) (first : Bytes), host ≠ first → f (info.removeHost first) = f info)
    (h : host ∉ gone) : f (info.removeHosts gone) = f info := by
  induction gone generalizing info with
  | nil => rfl
  | cons first gone ih =>
    rw [List.mem_cons, not_or] at h
    exact (ih h.2).trans (hstep info first h.1)

theorem queueOf_removeHosts (h : host ∉ gone) : (info.removeHosts gone).queueOf host = info.queueOf host := by
  refine removeHosts_frame (fun info => info.queueOf host) (fun info first hne => ?_) h
  unfold removeHost
  split_ifs
  · simp [queueOf, SortedMap.get?_erase_of_ne _ hne]
  · rfl

theorem status_removeHosts (h : host ∉ gone) : (info.removeHosts gone).status.get? host = info.status.get? host := by
  refine removeHosts_frame (fun info => info.status.get? host) (fun info first hne => ?_) h
  unfold removeHost
  split_ifs
  · exact SortedMap.get?_erase_of_ne _ hne
  · rfl

theorem hasHost_of_isAlive_removeHosts (gone : List Bytes)
    (h : ∀ host, info.isAlive host = true → info.hasHost host = true) (host : Bytes)
    (halive : (info.removeHosts gone).isAlive host = true) :
    (info.removeHosts gone).hasHost host = true := by
  induction gone generalizing info with
  | nil => exact h host halive
  | cons first gone ih =>
    refine ih (fun other hother => ?_) halive
    unfold removeHost at hother ⊢
    split_ifs at hother ⊢ with hhas
    · by_cases hne : other = first
      · simp [isAlive, statusOf, hne, HostStatus.create] at hother
      · simp only [isAlive, statusOf, hasHost, SortedMap.get?_erase_of_ne _ hne] at hother ⊢
        exact h other hother
    · exact h other hother

end HostInfo

end HustStore.Binlog
