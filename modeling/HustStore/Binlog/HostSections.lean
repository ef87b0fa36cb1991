import HustStore.Binlog.HostCalls
import Mathlib.Tactic.Ring

/-!
# What a section keeps

A section without the write lock leaves the set of hosts as it is. It moves a task from one place to
another, or brings one in, or finishes one; and it moves the counter of a host by what it counts and
finishes.
-/

namespace HustStore.Binlog

/-! ### The hosts -/

/-- The hosts are the same, and as alive as they were. -/
structure HostInfo.SameHosts (info info' : HostInfo) : Prop where
  hasHost : ∀ host, info'.hasHost host = info.hasHost host
  isAlive : ∀ host, info'.isAlive host = info.isAlive host
  status : ∀ host, (info.status.get? host).isSome → (info'.status.get? host).isSome

namespace HostInfo.SameHosts

variable {info : HostInfo} {host : Bytes}

theorem refl (info : HostInfo) : info.SameHosts info := ⟨fun _ => rfl, fun _ => rfl, fun _ h => h⟩

theorem putStatus {st : HostStatus} (h : st.status = (info.statusOf host).status) :
    info.SameHosts (info.putStatus host st) where
  hasHost _ := rfl
  isAlive other := by
    rw [HostInfo.isAlive, HostInfo.isAlive, statusOf_putStatus]
    split_ifs with heq
    · rw [h, heq]
    · rfl
  status other hsome := by
    rw [HostInfo.putStatus, SortedMap.get?_insert]
    split_ifs
    · rfl
    · exact hsome

theorem putQueue (h : info.hasHost host = true) (tasks : List HostTask) :
    info.SameHosts (info.putQueue host tasks) where
  hasHost other := by
    rw [hasHost_putQueue]
    by_cases heq : other = host
    · simp [heq, h]
    · simp [heq]
  isAlive _ := rfl
  status _ hsome := hsome

end HostInfo.SameHosts

/-- Every host has a status, every task that waits is for a host that is there, and is in the queue of its own
host. -/
structure HostWorld.Inv (s : HostWorld) : Prop where
  status : ∀ host, s.info.hasHost host = true → (s.info.status.get? host).isSome
  alive : ∀ host, s.info.isAlive host = true → s.info.hasHost host = true
  pooled : ∀ t ∈ s.pool, s.info.hasHost t.host = true
  filed : ∀ host, ∀ t ∈ s.info.queueOf host, t.host = host

/-- What a call carries along fits the hosts: the hosts of its tasks are there. -/
structure HostCall.Good (s : HostWorld) (c : HostCall) : Prop where
  uses : ∀ t ∈ c.uses, s.info.hasHost t.host = true
  filed : c.Filed

theorem HostCall.Good.mono {s s' : HostWorld} {c : HostCall} (h : c.Good s)
    (hhosts : ∀ t ∈ c.uses, s.info.hasHost t.host = true → s'.info.hasHost t.host = true) :
    c.Good s' :=
  ⟨fun t ht => hhosts t ht (h.uses t ht), h.filed⟩

namespace HostWorld.Inv

variable {s : HostWorld}

theorem of_sameHosts (h : s.Inv) {s' : HostWorld} (hsame : s.info.SameHosts s'.info)
    (hpool : ∀ t ∈ s'.pool, t ∈ s.pool ∨ s.info.hasHost t.host = true)
    (hqueue : ∀ host, ∀ t ∈ s'.info.queueOf host, t ∈ s.info.queueOf host ∨ t.host = host) :
    s'.Inv where
  status host hhas := hsame.status host (h.status host (hsame.hasHost host ▸ hhas))
  alive host halive := by
    rw [hsame.hasHost]
    exact h.alive host (hsame.isAlive host ▸ halive)
  pooled t ht := by
    rw [hsame.hasHost]
    exact (hpool t ht).elim (h.pooled t) id
  filed host t ht := (hqueue host t ht).elim (h.filed host t) id

end HostWorld.Inv

structure HostCall.Keeps (s : HostWorld) (out : HostWorld × HostCall) : Prop where
  same : s.info.SameHosts out.1.info
  inv : out.1.Inv
  good : out.2.Good out.1

namespace HostCall.Keeps

variable {conf : HostConf} {s s' : HostWorld} {c : HostCall}

theorem of_sameHosts (h : s.Inv) (hsame : s.info.SameHosts s'.info)
    (hpool : ∀ t ∈ s'.pool, t ∈ s.pool ∨ s.info.hasHost t.host = true)
    (hqueue : ∀ host, ∀ t ∈ s'.info.queueOf host, t ∈ s.info.queueOf host ∨ t.host = host)
    (huses : ∀ t ∈ c.uses, s.info.hasHost t.host = true) (hfiled : c.Filed) :
    HostCall.Keeps s (s', c) where
  same := hsame
  inv := h.of_sameHosts hsame hpool hqueue
  good := ⟨fun t ht => (hsame.hasHost t.host).trans (huses t ht), hfiled⟩

theorem of_eq (h : s.Inv) (huses : ∀ t ∈ c.uses, s.info.hasHost t.host = true) (hfiled : c.Filed) :
    HostCall.Keeps s (s, c) :=
  of_sameHosts h (.refl _) (fun _ ht => .inl ht) (fun _ _ ht => .inl ht) huses hfiled

theorem of_putStatus (h : s.Inv) {host : Bytes} {st : HostStatus} (hst : st.status = (s.info.statusOf host).status)
    (huses : ∀ t ∈ c.uses, s.info.hasHost t.host = true) (hfiled : c.Filed) :
    HostCall.Keeps s (s.mapInfo (·.putStatus host st), c) :=
  of_sameHosts h (.putStatus hst) (fun _ ht => .inl ht) (fun _ _ ht => .inl ht) huses hfiled

section

variable (h : s.Inv) {t : HostTask} (hhas : s.info.hasHost t.host = true)
  (huses : ∀ t ∈ c.uses, s.info.hasHost t.host = true) (hfiled : c.Filed)
include h hhas huses hfiled

theorem of_putQueue :
    HostCall.Keeps s (s.mapInfo fun info => info.putQueue t.host (info.queueOf t.host ++ [t]), c) := by
  refine of_sameHosts h (.putQueue hhas _) (fun _ ht => .inl ht) (fun host u hu => ?_) huses hfiled
  rw [HostWorld.mapInfo, HostInfo.queueOf_putQueue] at hu
  split_ifs at hu with heq
  · obtain hu | hu := List.mem_append.mp hu
    · exact .inl (heq ▸ hu)
    · exact .inr (by rw [List.mem_singleton.mp hu, heq])
  · exact .inl hu

theorem of_pool :
    HostCall.Keeps s ({ s with pool := s.pool ++ [t] }, c) := by
  refine of_sameHosts h (.refl _) (fun u hu => ?_) (fun _ _ ht => .inl ht) huses hfiled
  obtain hu | hu := List.mem_append.mp hu
  · exact .inl hu
  · exact .inr (by rwa [List.mem_singleton.mp hu])

end

end HostCall.Keeps

open HostCall (Keeps)

variable {conf : HostConf} {outcome : Outcome} {s : HostWorld} {c : HostCall} {t : HostTask}

theorem keeps_addTask (h : s.Inv) {phase : AddPhase} (hc : (HostCall.addTask t phase).Good s) :
    Keeps s (HostCall.advance conf outcome s (.addTask t phase)) := by
  cases phase with
  | lookUp =>
    refine .of_eq h ?_ trivial
    simp only [AddPhase.advance]
    split_ifs <;> simp [HostCall.uses]
  | checkAlive =>
    refine .of_putStatus h rfl ?_ trivial
    simp only [AddPhase.advance]
    split_ifs with halive
    · simpa [HostCall.uses] using h.alive _ halive
    · simp [HostCall.uses]
  | offer =>
    have hhas : s.info.hasHost t.host = true := hc.uses t rfl
    simp only [HostCall.advance, AddPhase.advance]
    split_ifs
    · exact .of_eq h (by simp [HostCall.uses]) trivial
    · exact .of_pool h hhas (by simpa [HostCall.uses] using hhas) trivial
  | count =>
    simp only [HostCall.advance, AddPhase.advance, HostWorld.mapInfo, HostInfo.incrementWithLock]
    split_ifs
    · exact .of_putStatus h rfl (by simp [HostCall.uses]) trivial
    · exact .of_eq h (by simp [HostCall.uses]) trivial
  | backUp =>
    simp only [HostCall.advance, AddPhase.advance]
    split_ifs with hhas hroom
    · exact .of_putQueue h hhas (by simpa [HostCall.uses] using hhas) trivial
    · exact .of_eq h (by simp [HostCall.uses]) trivial
    · exact .of_eq h (by simp [HostCall.uses]) trivial
  | countBackedUp => exact .of_putStatus h rfl (by simp [HostCall.uses, AddPhase.advance]) trivial
  | accepted => exact .of_eq h (by simp [HostCall.uses, AddPhase.advance]) trivial
  | refused => exact .of_eq h (by simp [HostCall.uses, AddPhase.advance]) trivial

variable {phase : WorkPhase}

theorem keeps_work (h : s.Inv) (hc : (HostCall.work phase).Good s) :
    Keeps s (HostCall.advance conf outcome s (.work phase)) := by
  cases phase with
  | take =>
    simp only [HostCall.advance, WorkPhase.advance]
    split
    · exact .of_eq h (by simp [HostCall.uses, WorkPhase.held]) trivial
    · rename_i t pool hpool
      refine .of_sameHosts h (.refl _) (fun u hu => .inl ?_) (fun _ _ ht => .inl ht) ?_ trivial
      · exact hpool ▸ List.mem_cons_of_mem _ hu
      · simpa [HostCall.uses, WorkPhase.held] using h.pooled t (hpool ▸ List.mem_cons_self)
  | running t =>
    have hhas : s.info.hasHost t.host = true := hc.uses t rfl
    refine .of_eq h ?_ trivial
    simp only [WorkPhase.advance]
    split_ifs <;> simpa [HostCall.uses, WorkPhase.held] using hhas
  | finish t =>
    simp only [HostCall.advance, WorkPhase.advance, HostInfo.finishTask]
    split_ifs
    · exact .of_sameHosts h (.putStatus rfl) (fun _ ht => .inl ht) (fun _ _ ht => .inl ht)
        (by simp [HostCall.uses, WorkPhase.held]) trivial
    · exact .of_sameHosts h (.refl _) (fun _ ht => .inl ht) (fun _ _ ht => .inl ht)
        (by simp [HostCall.uses, WorkPhase.held]) trivial
  | failed t =>
    have hhas : s.info.hasHost t.host = true := hc.uses t rfl
    refine .of_eq h ?_ trivial
    simp only [WorkPhase.advance, hhas, if_true]
    simpa [HostCall.uses, WorkPhase.held] using hhas
  | putBack t =>
    have hhas : s.info.hasHost t.host = true := hc.uses t rfl
    simp only [HostCall.advance, WorkPhase.advance, hhas, if_true]
    exact .of_putQueue h hhas (by simp [HostCall.uses, WorkPhase.held]) trivial
  | idle => exact .of_eq h (by simp [HostCall.uses, WorkPhase.held, WorkPhase.advance]) trivial

theorem keeps_redeliver (h : s.Inv) {phase : Redelivery} (hc : (HostCall.redeliver phase).Good s) :
    Keeps s (HostCall.advance conf outcome s (.redeliver phase)) := by
  cases phase with
  | start => exact .of_eq h (by simp [HostCall.uses, Redelivery.held, Redelivery.advance]) trivial
  | visit hosts =>
    cases hosts with
    | nil => exact .of_eq h (by simp [HostCall.uses, Redelivery.held, Redelivery.advance]) trivial
    | cons host hosts =>
      simp only [HostCall.advance, Redelivery.advance]
      split_ifs
      · exact .of_putStatus h rfl (by simp [HostCall.uses, Redelivery.held]) trivial
      · exact .of_eq h (by simp [HostCall.uses, Redelivery.held]) trivial
      · exact .of_eq h (by simp [HostCall.uses, Redelivery.held]) trivial
  | deliver host left hosts =>
    cases left with
    | zero => exact .of_eq h (by simp [HostCall.uses, Redelivery.held, Redelivery.advance]) trivial
    | succ left =>
      simp only [HostCall.advance, Redelivery.advance]
      split
      · exact .of_eq h (by simp [HostCall.uses, Redelivery.held]) trivial
      · rename_i t tasks hqueue
        have hhas : s.info.hasHost host = true := HostInfo.hasHost_of_queueOf (by simp [hqueue])
        have hhost : t.host = host := h.filed host t (hqueue ▸ List.mem_cons_self)
        refine .of_sameHosts h (.putQueue hhas _) (fun _ ht => .inl ht) (fun other u hu => .inl ?_)
          (by simpa [HostCall.uses, Redelivery.held, hhost] using hhas) hhost
        rw [HostWorld.mapInfo, HostInfo.queueOf_putQueue] at hu
        split_ifs at hu with heq
        · rw [heq, hqueue]
          exact List.mem_cons_of_mem _ hu
        · exact hu
  | handOver t host left hosts =>
    have hhas : s.info.hasHost t.host = true := hc.uses t rfl
    simp only [HostCall.advance, Redelivery.advance]
    split_ifs
    · exact .of_eq h (by simpa [HostCall.uses, Redelivery.held] using hhas) hc.filed
    · exact .of_pool h hhas (by simp [HostCall.uses, Redelivery.held]) trivial
  | handBack t host hosts =>
    have hhas : s.info.hasHost t.host = true := hc.uses t rfl
    obtain rfl : t.host = host := hc.filed
    exact .of_putQueue h hhas (by simp [HostCall.uses, Redelivery.held, Redelivery.advance]) trivial
  | ended => exact .of_eq h (by simp [HostCall.uses, Redelivery.held, Redelivery.advance]) trivial

theorem keeps_advance (h : s.Inv) (hc : c.Good s) (hwrites : c.writes = false) :
    Keeps s (c.advance conf outcome s) := by
  cases c with
  | addTask t phase => exact keeps_addTask h hc
  | work phase => exact keeps_work h hc
  | redeliver phase => exact keeps_redeliver h hc
  | findHost host =>
    simp only [HostCall.advance]
    refine .of_eq h ?_ ?_
    · split_ifs <;> simp [HostCall.uses]
    · split_ifs <;> trivial
  | newHost host => cases hwrites
  | removeHost host => cases hwrites
  | removeSilent => cases hwrites
  | done => exact .of_eq h (by simp [HostCall.uses]) trivial

/-! ### Where the tasks are -/

section

variable (P : HostTask → Bool)

@[simp] theorem tally_none : tally P none = 0 := rfl

theorem tally_some (t : HostTask) : tally P (some t) = if P t then 1 else 0 := rfl

theorem countP_concat (l : List HostTask) (t : HostTask) :
    ((l ++ [t]).countP P : ℤ) = l.countP P + tally P (some t) := by
  rw [List.countP_append, List.countP_singleton, tally_some]
  split_ifs <;> simp

theorem countP_cons_tally (t : HostTask) (l : List HostTask) :
    ((t :: l).countP P : ℤ) = l.countP P + tally P (some t) := by
  rw [List.countP_cons, tally_some]
  split_ifs <;> simp

end

/-- The tasks of a kind in the pool, in the queue of a host and among the finished ones. -/
def HostWorld.amount (s : HostWorld) (host : Bytes) (P : HostTask → Bool) : ℤ :=
  s.pool.countP P + (s.info.queueOf host).countP P + s.finished.countP P

def HostCall.weight (P : HostTask → Bool) (c : HostCall) : ℤ := tally P c.held - tally P c.taken

variable {P : HostTask → Bool} {host : Bytes}

theorem amount_putQueue (hP : ∀ t, P t = true → t.host = host) (s : HostWorld) (t : HostTask) :
    (s.mapInfo fun info => info.putQueue t.host (info.queueOf t.host ++ [t])).amount host P =
      s.amount host P + tally P (some t) := by
  simp only [HostWorld.amount, HostWorld.mapInfo, HostInfo.queueOf_putQueue]
  split_ifs with heq
  · rw [countP_concat, heq]
    ring
  · have hnot : P t = false := Bool.eq_false_iff.mpr fun hp => heq (hP t hp).symm
    simp [tally_some, hnot]

theorem amount_takeQueue (hP : ∀ t, P t = true → t.host = host)
    {s : HostWorld} {tasks : List HostTask} (hqueue : s.info.queueOf t.host = t :: tasks) :
    (s.mapInfo (·.putQueue t.host tasks)).amount host P + tally P (some t) = s.amount host P := by
  simp only [HostWorld.amount, HostWorld.mapInfo, HostInfo.queueOf_putQueue]
  split_ifs with heq
  · rw [heq, hqueue, countP_cons_tally]
    ring
  · have hnot : P t = false := Bool.eq_false_iff.mpr fun hp => heq (hP t hp).symm
    simp [tally_some, hnot]

theorem amount_pool (P : HostTask → Bool) (host : Bytes) (s : HostWorld) (t : HostTask) :
    HostWorld.amount { s with pool := s.pool ++ [t] } host P = s.amount host P + tally P (some t) := by
  simp only [HostWorld.amount, countP_concat]
  ring

section

variable (conf outcome) (hP : ∀ t, P t = true → t.host = host)
include hP

theorem addTask_conserves (t : HostTask) (phase : AddPhase) :
    ((HostCall.addTask t phase).advance conf outcome s).1.amount host P +
        ((HostCall.addTask t phase).advance conf outcome s).2.weight P =
      s.amount host P + (HostCall.addTask t phase).weight P := by
  cases phase with
  | lookUp =>
    simp only [HostCall.advance, AddPhase.advance]
    split_ifs <;> rfl
  | checkAlive =>
    simp only [HostCall.advance, AddPhase.advance]
    split_ifs <;> rfl
  | offer =>
    simp only [HostCall.advance, AddPhase.advance]
    split_ifs
    · rfl
    · rw [amount_pool]
      simp [HostCall.weight, HostCall.held, HostCall.taken, AddPhase.isTaken]
  | count =>
    simp only [HostCall.advance, AddPhase.advance, HostWorld.mapInfo, HostInfo.incrementWithLock]
    split_ifs <;> rfl
  | backUp =>
    simp only [HostCall.advance, AddPhase.advance]
    split_ifs
    · rw [amount_putQueue hP]
      simp [HostCall.weight, HostCall.held, HostCall.taken, AddPhase.isTaken]
    · rfl
    · rfl
  | countBackedUp => rfl
  | accepted => rfl
  | refused => rfl

theorem work_conserves (hc : (HostCall.work phase).Good s) :
    ((HostCall.work phase).advance conf outcome s).1.amount host P +
        ((HostCall.work phase).advance conf outcome s).2.weight P =
      s.amount host P + (HostCall.work phase).weight P := by
  cases phase with
  | take =>
    simp only [HostCall.advance, WorkPhase.advance]
    split
    · rfl
    · rename_i t pool hpool
      simp only [HostWorld.amount, HostCall.weight, HostCall.held, WorkPhase.held, HostCall.taken,
        hpool, countP_cons_tally, tally_none]
      ring
  | running t =>
    simp only [HostCall.advance, WorkPhase.advance]
    split_ifs <;> rfl
  | finish t =>
    have hqueue : (s.info.finishTask t.host).queueOf host = s.info.queueOf host := by
      unfold HostInfo.finishTask
      split_ifs <;> rfl
    simp only [HostCall.advance, WorkPhase.advance, HostWorld.amount, HostCall.weight,
      HostCall.held, WorkPhase.held, HostCall.taken, hqueue, countP_cons_tally, tally_none]
    ring
  | failed t =>
    have hhas : s.info.hasHost t.host = true := hc.uses t rfl
    simp only [HostCall.advance, WorkPhase.advance, hhas, if_true]
    rfl
  | putBack t =>
    have hhas : s.info.hasHost t.host = true := hc.uses t rfl
    simp only [HostCall.advance, WorkPhase.advance, hhas, if_true]
    rw [amount_putQueue hP]
    simp [HostCall.weight, HostCall.held, WorkPhase.held, HostCall.taken]
  | idle => rfl

theorem redeliver_conserves (h : s.Inv) {phase : Redelivery} (hc : (HostCall.redeliver phase).Good s) :
    ((HostCall.redeliver phase).advance conf outcome s).1.amount host P +
        ((HostCall.redeliver phase).advance conf outcome s).2.weight P =
      s.amount host P + (HostCall.redeliver phase).weight P := by
  cases phase with
  | start => rfl
  | visit hosts =>
    cases hosts with
    | nil => rfl
    | cons first hosts =>
      simp only [HostCall.advance, Redelivery.advance]
      split_ifs <;> rfl
  | deliver first left hosts =>
    cases left with
    | zero => rfl
    | succ left =>
      simp only [HostCall.advance, Redelivery.advance]
      split
      · rfl
      · rename_i t tasks hqueue
        obtain rfl : t.host = first := h.filed first t (hqueue ▸ List.mem_cons_self)
        rw [← amount_takeQueue hP hqueue]
        simp [HostCall.weight, HostCall.held, Redelivery.held, HostCall.taken]
  | handOver t first left hosts =>
    simp only [HostCall.advance, Redelivery.advance]
    split_ifs
    · rfl
    · rw [amount_pool]
      simp [HostCall.weight, HostCall.held, Redelivery.held, HostCall.taken]
  | handBack t first hosts =>
    obtain rfl : t.host = first := hc.filed
    simp only [HostCall.advance, Redelivery.advance]
    rw [amount_putQueue hP]
    simp [HostCall.weight, HostCall.held, Redelivery.held, HostCall.taken]
  | ended => rfl

theorem advance_conserves (h : s.Inv) (hc : c.Good s) (hwrites : c.writes = false) :
    (c.advance conf outcome s).1.amount host P + (c.advance conf outcome s).2.weight P =
      s.amount host P + c.weight P := by
  cases c with
  | addTask t phase => exact addTask_conserves conf outcome hP t phase
  | work phase => exact work_conserves conf outcome hP hc
  | redeliver phase => exact redeliver_conserves conf outcome hP h hc
  | findHost first =>
    simp only [HostCall.advance]
    split_ifs <;> rfl
  | newHost first => cases hwrites
  | removeHost first => cases hwrites
  | removeSilent => cases hwrites
  | done => rfl

end

/-! ### The counters -/

/-- The counter of a host with the tasks that have been finished for it. -/
def HostWorld.due (s : HostWorld) (host : Bytes) : ℤ :=
  (s.info.statusOf host).remain + s.finished.countP (·.host = host)

theorem due_increment (s : HostWorld) (t : HostTask) (host : Bytes) :
    (s.mapInfo (·.increment t.host)).due host = s.due host + tally (·.host = host) (some t) := by
  simp only [HostWorld.due, HostWorld.mapInfo, HostInfo.increment, HostInfo.statusOf_putStatus, tally_some,
    eq_comm (a := host), decide_eq_true_eq]
  split_ifs with heq
  · rw [heq]
    ring
  · ring

theorem due_finish {s : HostWorld} (hsome : (s.info.status.get? t.host).isSome) (host : Bytes) :
    HostWorld.due { s with info := s.info.finishTask t.host, finished := t :: s.finished } host =
      s.due host := by
  simp only [HostWorld.due, HostInfo.finishTask, hsome, if_true, HostInfo.decrement,
    HostInfo.statusOf_putStatus, countP_cons_tally, tally_some, eq_comm (a := host), decide_eq_true_eq]
  split_ifs with heq
  · rw [heq]
    ring
  · ring

theorem due_mapInfo {s : HostWorld} {f : HostInfo → HostInfo}
    (h : ((f s.info).statusOf host).remain = (s.info.statusOf host).remain) :
    (s.mapInfo f).due host = s.due host := by
  simp only [HostWorld.due, HostWorld.mapInfo, h]

theorem remain_putStatus {info : HostInfo} {host other : Bytes} {st : HostStatus}
    (h : st.remain = (info.statusOf host).remain) :
    ((info.putStatus host st).statusOf other).remain = (info.statusOf other).remain := by
  rw [HostInfo.statusOf_putStatus]
  split_ifs with heq
  · rw [h, heq]
  · rfl

section

variable (conf outcome)

theorem addTask_due (h : s.Inv) {phase : AddPhase} (hc : (HostCall.addTask t phase).Good s) (host : Bytes) :
    ((HostCall.addTask t phase).advance conf outcome s).1.due host -
        tally (·.host = host) ((HostCall.addTask t phase).advance conf outcome s).2.counted =
      s.due host - tally (·.host = host) (HostCall.addTask t phase).counted := by
  cases phase with
  | lookUp =>
    simp only [HostCall.advance, AddPhase.advance]
    split_ifs <;> rfl
  | checkAlive =>
    simp only [HostCall.advance, AddPhase.advance]
    rw [due_mapInfo (f := (·.touch t.host)) (remain_putStatus rfl)]
    split_ifs <;> rfl
  | offer =>
    simp only [HostCall.advance, AddPhase.advance]
    split_ifs <;> rfl
  | count =>
    have hsome := h.status _ (hc.uses t rfl)
    have hincrement : s.info.incrementWithLock t.host = s.info.increment t.host := by
      rw [HostInfo.incrementWithLock, if_pos hsome]
    have hdue := due_increment s t host
    simp only [HostWorld.mapInfo] at hdue
    simp only [HostCall.advance, AddPhase.advance, HostWorld.mapInfo, hincrement, hdue, HostCall.counted, tally_none]
    ring
  | backUp =>
    simp only [HostCall.advance, AddPhase.advance]
    split_ifs <;> rfl
  | countBackedUp =>
    have hdue := due_increment s t host
    simp only [HostCall.advance, AddPhase.advance, hdue, HostCall.counted, tally_none]
    ring
  | accepted => rfl
  | refused => rfl

theorem work_due (h : s.Inv) (hc : (HostCall.work phase).Good s) (host : Bytes) :
    ((HostCall.work phase).advance conf outcome s).1.due host -
        tally (·.host = host) ((HostCall.work phase).advance conf outcome s).2.counted =
      s.due host - tally (·.host = host) (HostCall.work phase).counted := by
  cases phase with
  | take =>
    simp only [HostCall.advance, WorkPhase.advance]
    split <;> rfl
  | running t => rfl
  | finish t =>
    have hsome := h.status _ (hc.uses t rfl)
    simp only [HostCall.advance, WorkPhase.advance, due_finish hsome]
    rfl
  | failed t => rfl
  | putBack t =>
    simp only [HostCall.advance, WorkPhase.advance]
    split_ifs <;> rfl
  | idle => rfl

theorem redeliver_due (phase : Redelivery) (host : Bytes) :
    ((HostCall.redeliver phase).advance conf outcome s).1.due host -
        tally (·.host = host) ((HostCall.redeliver phase).advance conf outcome s).2.counted =
      s.due host - tally (·.host = host) (HostCall.redeliver phase).counted := by
  cases phase with
  | start => rfl
  | visit hosts =>
    cases hosts with
    | nil => rfl
    | cons first hosts =>
      simp only [HostCall.advance, Redelivery.advance]
      split_ifs
      · rw [due_mapInfo (by exact remain_putStatus rfl)]
        rfl
      · rfl
      · rfl
  | deliver first left hosts =>
    cases left with
    | zero => rfl
    | succ left =>
      simp only [HostCall.advance, Redelivery.advance]
      split <;> rfl
  | handOver t first left hosts =>
    simp only [HostCall.advance, Redelivery.advance]
    split_ifs <;> rfl
  | handBack t first hosts => rfl
  | ended => rfl

theorem advance_due (h : s.Inv) (hc : c.Good s) (hwrites : c.writes = false) (host : Bytes) :
    (c.advance conf outcome s).1.due host - tally (·.host = host) (c.advance conf outcome s).2.counted =
      s.due host - tally (·.host = host) c.counted := by
  cases c with
  | addTask t phase => exact addTask_due conf outcome h hc host
  | work phase => exact work_due conf outcome h hc host
  | redeliver phase => exact redeliver_due conf outcome phase host
  | findHost first =>
    simp only [HostCall.advance]
    split_ifs <;> rfl
  | newHost first => cases hwrites
  | removeHost first => cases hwrites
  | removeSilent => cases hwrites
  | done => rfl

end

end HustStore.Binlog
