import HustStore.Binlog.HostInfo
import HustStore.Lib.Run
import HustStore.Lib.Threads

/-!
# Calls on the hosts of the binlog

A task goes from the caller of `add_task` to the thread pool or, if there is no room, to the queue of its host.
-/

namespace HustStore.Binlog

structure HostWorld where
  info : HostInfo
  pool : List HostTask
  finished : List HostTask

namespace HostWorld

def create : HostWorld := ⟨.create, [], []⟩

def mapInfo (s : HostWorld) (f : HostInfo → HostInfo) : HostWorld := { s with info := f s.info }

end HostWorld

def isFull (size : Nat) (queue : List HostTask) : Bool := size > 0 && queue.length ≥ size

/-! ### The sections of `binlog_t::add_task` -/

inductive AddPhase
  | lookUp
  | checkAlive
  | offer
  | count
  | backUp
  | countBackedUp
  | accepted
  | refused
  deriving DecidableEq, Repr

def AddPhase.isTaken : AddPhase → Bool
  | .count | .countBackedUp | .accepted => true
  | .lookUp | .checkAlive | .offer | .backUp | .refused => false

def AddPhase.advance (conf : HostConf) (s : HostWorld) (t : HostTask) : AddPhase → HostWorld × AddPhase
  | .lookUp => (s, if s.info.hasHost t.host then .checkAlive else .refused)
  | .checkAlive =>
    (s.mapInfo (·.touch t.host), if s.info.isAlive t.host then .offer else .refused)
  | .offer =>
    if isFull conf.poolSize s.pool then (s, .backUp) else ({ s with pool := s.pool ++ [t] }, .count)
  | .count => (s.mapInfo (·.incrementWithLock t.host), .accepted)
  | .backUp =>
    if s.info.hasHost t.host then
      if s.info.isAlive t.host ∧ !isFull conf.queueSize (s.info.queueOf t.host) then
        (s.mapInfo fun info => info.putQueue t.host (info.queueOf t.host ++ [t]), .countBackedUp)
      else (s, .refused)
    else (s, .refused)
  | .countBackedUp => (s.mapInfo (·.increment t.host), .accepted)
  | .accepted => (s, .accepted)
  | .refused => (s, .refused)

/-! ### The sections of a worker -/

inductive Outcome
  | success
  | overtime
  | failure
  deriving DecidableEq, Repr

inductive WorkPhase
  | take
  | running (t : HostTask)
  | finish (t : HostTask)
  | failed (t : HostTask)
  | putBack (t : HostTask)
  | idle
  deriving DecidableEq, Repr

def WorkPhase.held : WorkPhase → Option HostTask
  | .running t | .finish t | .failed t | .putBack t => some t
  | .take | .idle => none

def WorkPhase.advance (outcome : Outcome) (s : HostWorld) : WorkPhase → HostWorld × WorkPhase
  | .take =>
    match s.pool with
    | [] => (s, .take)
    | t :: pool => ({ s with pool }, .running t)
  | .running t => (s, if outcome = .failure then .failed t else .finish t)
  | .finish t =>
    ({ s with info := s.info.finishTask t.host, finished := t :: s.finished }, .idle)
  | .failed t => (s, if s.info.hasHost t.host then .putBack t else .idle)
  | .putBack t =>
    if s.info.hasHost t.host then
      (s.mapInfo fun info => info.putQueue t.host (info.queueOf t.host ++ [t]), .idle)
    else (s, .idle)
  | .idle => (s, .idle)

/-! ### The sections of a redelivery -/

inductive Redelivery
  | start
  | visit (hosts : List Bytes)
  | deliver (host : Bytes) (left : Nat) (hosts : List Bytes)
  | handOver (t : HostTask) (host : Bytes) (left : Nat) (hosts : List Bytes)
  | handBack (t : HostTask) (host : Bytes) (hosts : List Bytes)
  | ended
  deriving DecidableEq, Repr

def redeliverSize : Nat := 500

def Redelivery.held : Redelivery → Option HostTask
  | .handOver t _ _ _ | .handBack t _ _ => some t
  | .start | .visit _ | .deliver _ _ _ | .ended => none

def Redelivery.Filed : Redelivery → Prop
  | .handOver t host _ _ | .handBack t host _ => t.host = host
  | .start | .visit _ | .deliver _ _ _ | .ended => True

def Redelivery.reads : Redelivery → Bool
  | .visit _ | .deliver _ _ _ | .handOver _ _ _ _ | .handBack _ _ _ => true
  | .start | .ended => false

def Redelivery.advance (conf : HostConf) (s : HostWorld) : Redelivery → HostWorld × Redelivery
  | .start => (s, .visit s.info.hosts)
  | .visit [] => (s, .ended)
  | .visit (host :: hosts) =>
    if (s.info.statusOf host).remain = 0 then
      (s.mapInfo fun info => info.putStatus host
        { info.statusOf host with silence := (info.statusOf host).silence + 1 }, .visit hosts)
    else if s.info.isAlive host then (s, .deliver host redeliverSize hosts)
    else (s, .visit hosts)
  | .deliver _ 0 hosts => (s, .visit hosts)
  | .deliver host (left + 1) hosts =>
    match s.info.queueOf host with
    | [] => (s, .visit hosts)
    | t :: tasks => (s.mapInfo (·.putQueue host tasks), .handOver t host left hosts)
  | .handOver t host left hosts =>
    if isFull conf.poolSize s.pool then (s, .handBack t host hosts)
    else ({ s with pool := s.pool ++ [t] }, .deliver host left hosts)
  | .handBack t host hosts =>
    (s.mapInfo fun info => info.putQueue host (info.queueOf host ++ [t]), .visit hosts)
  | .ended => (s, .ended)

/-! ### Threads -/

inductive HostCall
  | addTask (t : HostTask) (phase : AddPhase)
  | work (phase : WorkPhase)
  | redeliver (phase : Redelivery)
  | findHost (host : Bytes)
  | newHost (host : Bytes)
  | removeHost (host : Bytes)
  | removeSilent
  | done
  deriving DecidableEq, Repr

namespace HostCall

def advance (conf : HostConf) (outcome : Outcome) (s : HostWorld) : HostCall → HostWorld × HostCall
  | .addTask t phase => ((phase.advance conf s t).1, .addTask t (phase.advance conf s t).2)
  | .work phase => ((phase.advance outcome s).1, .work (phase.advance outcome s).2)
  | .redeliver phase => ((phase.advance conf s).1, .redeliver (phase.advance conf s).2)
  | .findHost host => (s, if s.info.findHost host = none then .newHost host else .done)
  | .newHost host => (s.mapInfo (·.newHost host), .done)
  | .removeHost host => (s.mapInfo (·.removeHost host), .done)
  | .removeSilent => (s.mapInfo (·.checkSilenceAndRemoveHost conf), .done)
  | .done => (s, .done)

def writes : HostCall → Bool
  | .newHost _ | .removeHost _ | .removeSilent => true
  | .addTask _ _ | .work _ | .redeliver _ | .findHost _ | .done => false

def reads : HostCall → Bool
  | .addTask _ .countBackedUp => true
  | .redeliver phase => phase.reads
  | _ => false

def held : HostCall → Option HostTask
  | .work phase => phase.held
  | .redeliver phase => phase.held
  | _ => none

def taken : HostCall → Option HostTask
  | .addTask t phase => if phase.isTaken then some t else none
  | _ => none

def uncounted : HostCall → Option HostTask
  | .addTask t .count | .addTask t .countBackedUp => some t
  | _ => none

def counted : HostCall → Option HostTask
  | .addTask t .accepted => some t
  | _ => none

def uses : HostCall → Option HostTask
  | .addTask t .offer | .addTask t .count | .addTask t .countBackedUp => some t
  | .work phase => phase.held
  | .redeliver phase => phase.held
  | _ => none

def Filed : HostCall → Prop
  | .redeliver phase => phase.Filed
  | _ => True

end HostCall

def tally (P : HostTask → Bool) (o : Option HostTask) : ℤ := if o.any P then 1 else 0

open Threads

abbrev HostPool := Pool HostWorld HostCall

inductive HostEvent
  | addTask (host : Bytes)
  | work
  | redeliver
  | addHost (host : Bytes)
  | removeHost (host : Bytes)
  | removeSilent
  | probe (host : Bytes) (answers : Bool)
  | run (i : Nat) (outcome : Outcome)
  deriving DecidableEq, Repr

namespace HostPool

def start : HostPool := ⟨.create, []⟩

def blocked (p : HostPool) (c : HostCall) : Bool := c.writes && p.threads.any HostCall.reads

def step (conf : HostConf) (p : HostPool) : HostEvent → HostPool
  | .addTask host => p.spawn (.addTask ⟨p.threads.length, host⟩ .lookUp)
  | .work => p.spawn (.work .take)
  | .redeliver => p.spawn (.redeliver .start)
  | .addHost host => p.spawn (.findHost host)
  | .removeHost host => p.spawn (.removeHost host)
  | .removeSilent => p.spawn .removeSilent
  | .probe host answers =>
    if p.shared.info.hasHost host then
      { p with shared := p.shared.mapInfo (·.setStatus host (if answers then 1 else 0)) }
    else p
  | .run i outcome =>
    if p.threads[i]?.any p.blocked then p else p.run (HostCall.advance conf outcome) i

/-! ### Accounts -/

def located (p : HostPool) (host : Bytes) (P : HostTask → Bool) : ℤ :=
  p.shared.pool.countP P + (p.shared.info.queueOf host).countP P + p.total fun c => tally P c.held

def outstanding (p : HostPool) (host : Bytes) : ℤ := p.located host (·.host = host)

def between (p : HostPool) (host : Bytes) : ℤ :=
  p.total fun c => tally (·.host = host) c.uncounted

def places (p : HostPool) (t : HostTask) : ℤ := p.located t.host (· = t)

def Unused (p : HostPool) (host : Bytes) : Prop :=
  (∀ t ∈ p.shared.pool, t.host ≠ host) ∧ p.shared.info.queueOf host = [] ∧
    ∀ c ∈ p.threads, ∀ t ∈ c.uses, t.host ≠ host

instance (p : HostPool) (host : Bytes) : Decidable (p.Unused host) :=
  inferInstanceAs (Decidable (_ ∧ _ ∧ _))

def Allows (conf : HostConf) (p : HostPool) : HostCall → Prop
  | .newHost host => p.shared.info.hasHost host = false
  | .removeHost host => p.Unused host
  | .removeSilent => ∀ host ∈ p.shared.info.silentHosts conf, p.Unused host
  | .addTask _ _ | .work _ | .redeliver _ | .findHost _ | .done => True

instance (conf : HostConf) (p : HostPool) (c : HostCall) : Decidable (p.Allows conf c) := by
  unfold Allows
  cases c <;> infer_instance

def Settled (conf : HostConf) (p : HostPool) : HostEvent → Prop
  | .run i _ => ∀ c ∈ p.threads[i]?, p.Allows conf c
  | .addTask _ | .work | .redeliver | .addHost _ | .removeHost _ | .removeSilent | .probe _ _ => True

instance (conf : HostConf) (p : HostPool) : (e : HostEvent) → Decidable (p.Settled conf e)
  | .run i _ => inferInstanceAs (Decidable (∀ c ∈ p.threads[i]?, p.Allows conf c))
  | .addTask _ | .work | .redeliver | .addHost _ | .removeHost _ | .removeSilent | .probe _ _ =>
    .isTrue trivial

end HostPool

end HustStore.Binlog
