import HustStore.Binlog.HostSections

/-!
# Accounts of the tasks of a host

The counter of a host says how many tasks it has as long as a host is not removed while it has some, and not added
twice at a time, and apart from the tasks that are handed over and not yet counted. The code does not see to that.
-/

namespace HustStore.Binlog

open Threads

open HostCall (Keeps)

variable {conf : HostConf} {outcome : Outcome}

/-! ### Runs -/

structure HostPool.Inv (p : HostPool) : Prop where
  world : p.shared.Inv
  good : ∀ i c, p.At i c → c.Good p.shared
  ids : ∀ i t phase, p.At i (.addTask t phase) → t.id = i
  conserved : ∀ host P, (∀ t, P t = true → t.host = host) → p.shared.amount host P + p.total (HostCall.weight P) = 0
  remain : ∀ host, p.shared.info.hasHost host = true →
    p.shared.due host = p.total fun c => tally (·.host = host) c.counted

namespace HostPool.Inv

variable {p : HostPool} {i : Nat} {host : Bytes}

theorem start : HostPool.start.Inv where
  world := ⟨fun _ h => (nomatch h), fun _ h => (nomatch h), by simp [HostPool.start, HostWorld.create],
    by simp [HostPool.start, HostWorld.create, HostInfo.create, HostInfo.queueOf]⟩
  good i c h := by simp [Pool.At, HostPool.start] at h
  ids i t phase h := by simp [Pool.At, HostPool.start] at h
  conserved _ _ _ := rfl
  remain _ h := nomatch h

variable {c : HostCall}

theorem spawn (h : p.Inv) (huses : c.uses = none) (hfiled : c.Filed)
    (hheld : c.held = none) (htaken : c.taken = none) (hcounted : c.counted = none)
    (hid : ∀ t phase, c = .addTask t phase → t.id = p.threads.length) : HostPool.Inv (p.spawn c) where
  world := h.world
  good i u hu := by
    obtain hu | ⟨-, rfl⟩ := Pool.at_spawn.mp hu
    · exact h.good i u hu
    · exact ⟨by simp [huses], hfiled⟩
  ids i t phase hu := by
    obtain hold | ⟨rfl, hnew⟩ := Pool.at_spawn.mp hu
    · exact h.ids i t phase hold
    · exact hid t phase hnew.symm
  conserved host P hP := by
    rw [Pool.total_spawn, HostCall.weight, hheld, htaken, tally_none, sub_zero, add_zero]
    exact h.conserved host P hP
  remain host hhas := by
    rw [Pool.total_spawn, hcounted, tally_none, add_zero]
    exact h.remain host hhas

theorem probe (h : p.Inv) (hhas : p.shared.info.hasHost host = true) (status : Int) :
    HostPool.Inv { p with shared := p.shared.mapInfo (·.setStatus host status) } where
  world :=
    { status := fun other hother => by
        simp only [HostWorld.mapInfo, HostInfo.setStatus, HostInfo.putStatus, SortedMap.get?_insert]
        split_ifs
        · rfl
        · exact h.world.status other hother
      alive := fun other hother => by
        by_cases heq : other = host
        · exact heq ▸ hhas
        · refine h.world.alive other ?_
          simpa only [HostWorld.mapInfo, HostInfo.isAlive, HostInfo.setStatus,
            HostInfo.statusOf_putStatus, if_neg heq] using hother
      pooled := h.world.pooled
      filed := h.world.filed }
  good i c hc := ⟨(h.good i c hc).uses, (h.good i c hc).filed⟩
  ids := h.ids
  conserved := h.conserved
  remain other hother := by
    have hdue : (p.shared.mapInfo (·.setStatus host status)).due other = p.shared.due other :=
      due_mapInfo (remain_putStatus rfl)
    exact hdue.trans (h.remain other hother)

theorem ids_run (h : p.Inv) (hc : p.At i c) :
    ∀ j t phase, (p.run (HostCall.advance conf outcome) i).At j (.addTask t phase) → t.id = j := by
  intro j t phase hj
  obtain ⟨rfl, heq⟩ | ⟨-, hj⟩ := (Pool.at_run hc).mp hj
  · cases c with
    | addTask u before =>
      obtain ⟨rfl, -⟩ := HostCall.addTask.inj heq
      exact h.ids j t before hc
    | work phase => cases heq
    | redeliver phase => cases heq
    | findHost host =>
      simp only [HostCall.advance] at heq
      split_ifs at heq
    | newHost host => cases heq
    | removeHost host => cases heq
    | removeSilent => cases heq
    | done => cases heq
  · exact h.ids j t phase hj

theorem run (h : p.Inv) (hc : p.At i c) (hwrites : c.writes = false) :
    HostPool.Inv (p.run (HostCall.advance conf outcome) i) := by
  have hgood := h.good i c hc
  have hkeeps : Keeps p.shared (c.advance conf outcome p.shared) :=
    keeps_advance h.world hgood hwrites
  refine ⟨?_, ?_, h.ids_run hc, fun host P hP => ?_, fun host hhas => ?_⟩
  · rw [Pool.shared_run hc]
    exact hkeeps.inv
  · rw [Pool.shared_run hc]
    refine Pool.forall_run hc h.good hkeeps.good fun j u _ _ hu => ?_
    exact hu.mono fun t _ ht => (hkeeps.same.hasHost t.host).trans ht
  · have hsection := advance_conserves conf outcome hP h.world hgood hwrites
    have hold := h.conserved host P hP
    rw [Pool.shared_run hc, Pool.total_run hc]
    omega
  · rw [Pool.shared_run hc, hkeeps.same.hasHost] at hhas
    have hsection := advance_due conf outcome h.world hgood hwrites host
    have hold := h.remain host hhas
    rw [Pool.shared_run hc, Pool.total_run hc]
    omega

/-! #### The sections under the write lock -/

theorem located_add_finished (h : p.Inv) (host : Bytes) (P : HostTask → Bool) (hP : ∀ t, P t = true → t.host = host) :
    p.located host P + p.shared.finished.countP P =
      p.total (fun c => tally P c.uncounted) + p.total fun c => tally P c.counted := by
  have htaken : (fun c : HostCall => tally P c.taken) = fun c => tally P c.uncounted + tally P c.counted := by
    funext c
    cases c with
    | addTask t phase =>
      cases phase <;> simp [HostCall.taken, HostCall.uncounted, HostCall.counted, AddPhase.isTaken]
    | work phase => rfl
    | redeliver phase => rfl
    | findHost host => rfl
    | newHost host => rfl
    | removeHost host => rfl
    | removeSilent => rfl
    | done => rfl
  have hconserved := h.conserved host P hP
  rw [show HostCall.weight P = fun c => tally P c.held - tally P c.taken from rfl, Pool.total_sub, htaken,
    Pool.total_add, HostWorld.amount] at hconserved
  rw [HostPool.located]
  omega

theorem tally_eq_zero {o : Option HostTask} (h : ∀ t ∈ o, t.host ≠ host) : tally (·.host = host) o = 0 := by
  cases o with
  | none => rfl
  | some t => simp [tally_some, h t rfl]

variable {t : HostTask}

theorem held_subset_uses (h : t ∈ c.held) : t ∈ c.uses := by
  cases c with
  | work phase => exact h
  | redeliver phase => exact h
  | _ => cases h

theorem uncounted_subset_uses (h : t ∈ c.uncounted) : t ∈ c.uses := by
  cases c with
  | addTask u phase =>
    cases phase with
    | count => exact h
    | countBackedUp => exact h
    | _ => cases h
  | _ => cases h

theorem counted_eq_finished (h : p.Inv) (hunused : p.Unused host) :
    p.total (fun c => tally (·.host = host) c.counted) = p.shared.finished.countP (·.host = host) := by
  obtain ⟨hpool, hqueue, hthreads⟩ := hunused
  have huses : ∀ j c, p.At j c → ∀ t ∈ c.uses, t.host ≠ host := fun j c hc =>
    hthreads c (List.mem_of_getElem? hc)
  have hnone : p.shared.pool.countP (·.host = host) = 0 := by
    simpa [List.countP_eq_zero] using hpool
  have hheld : p.total (fun c => tally (·.host = host) c.held) = 0 :=
    Pool.total_eq_zero fun j c hc => tally_eq_zero fun t ht => huses j c hc t (held_subset_uses ht)
  have huncounted : p.total (fun c => tally (·.host = host) c.uncounted) = 0 :=
    Pool.total_eq_zero fun j c hc => tally_eq_zero fun t ht =>
      huses j c hc t (uncounted_subset_uses ht)
  have hbalance := h.located_add_finished host (·.host = host) (by simp)
  rw [HostPool.located, hnone, hqueue, hheld, huncounted] at hbalance
  simpa using hbalance.symm

theorem unused_of_not_hasHost (h : p.Inv) (hnot : p.shared.info.hasHost host = false) :
    p.Unused host := by
  have hne : ∀ t : HostTask, p.shared.info.hasHost t.host = true → t.host ≠ host := by
    intro t ht heq
    rw [heq, hnot] at ht
    cases ht
  refine ⟨fun t ht => hne t (h.world.pooled t ht), HostInfo.queueOf_of_not_hasHost hnot, ?_⟩
  intro c hc t ht
  obtain ⟨j, hj⟩ := List.mem_iff_getElem?.mp hc
  exact hne t ((h.good j c hj).uses t ht)

theorem write (h : p.Inv) (hc : p.At i c) (hwrites : c.writes = true)
    {f : HostInfo → HostInfo} (hadvance : c.advance conf outcome p.shared = (p.shared.mapInfo f, .done))
    (hworld : (p.shared.mapInfo f).Inv)
    (hgood : ∀ j u, p.At j u → ∀ t ∈ u.uses, (f p.shared.info).hasHost t.host = true)
    (hqueue : ∀ host, (f p.shared.info).queueOf host = p.shared.info.queueOf host)
    (hremain : ∀ host, (f p.shared.info).hasHost host = true →
      (p.shared.mapInfo f).due host = p.total fun c => tally (·.host = host) c.counted) :
    HostPool.Inv (p.run (HostCall.advance conf outcome) i) := by
  have hweight : ∀ P, c.weight P = 0 ∧ c.counted = none := by
    intro P
    cases c with
    | newHost host => exact ⟨rfl, rfl⟩
    | removeHost host => exact ⟨rfl, rfl⟩
    | removeSilent => exact ⟨rfl, rfl⟩
    | _ => cases hwrites
  refine ⟨?_, ?_, h.ids_run hc, fun host P hP => ?_, fun host hhas => ?_⟩
  · rwa [Pool.shared_run hc, hadvance]
  · rw [Pool.shared_run hc, hadvance]
    intro j u hu
    obtain ⟨-, rfl⟩ | ⟨-, hu⟩ := (Pool.at_run hc).mp hu
    · rw [hadvance]
      exact ⟨by simp [HostCall.uses], trivial⟩
    · exact ⟨hgood j u hu, (h.good j u hu).filed⟩
  · have hamount : (p.shared.mapInfo f).amount host P = p.shared.amount host P := by
      simp only [HostWorld.amount, HostWorld.mapInfo, hqueue]
    have hdone : HostCall.done.weight P = 0 := rfl
    have hold := h.conserved host P hP
    rw [Pool.shared_run hc, Pool.total_run hc, hadvance, (hweight P).1, hdone, hamount]
    omega
  · rw [Pool.shared_run hc, hadvance] at hhas
    have hdone : HostCall.done.counted = none := rfl
    have hold := hremain host hhas
    rw [Pool.shared_run hc, Pool.total_run hc, hadvance, (hweight fun _ => true).2, hdone, tally_none,
      sub_zero, add_zero]
    exact hold

theorem newHost (h : p.Inv) (hc : p.At i (.newHost host)) (hnot : p.shared.info.hasHost host = false) :
    HostPool.Inv (p.run (HostCall.advance conf outcome) i) := by
  have hhas : ∀ other, p.shared.info.hasHost other = true → (p.shared.info.newHost host).hasHost other = true := by
    intro other hother
    rw [HostInfo.hasHost_newHost, hother, Bool.or_true]
  have hqueue : ∀ other, (p.shared.info.newHost host).queueOf other = p.shared.info.queueOf other := by
    intro other
    rw [HostInfo.queueOf_newHost]
    split_ifs with heq
    · rw [heq, HostInfo.queueOf_of_not_hasHost hnot]
    · rfl
  refine h.write hc rfl rfl ⟨?_, ?_, ?_, ?_⟩ (fun j u hu t ht => hhas _ ((h.good j u hu).uses t ht)) hqueue ?_
  · intro other hother
    simp only [HostWorld.mapInfo, HostInfo.newHost, SortedMap.get?_insert]
    split_ifs with heq
    · rfl
    · refine h.world.status other ?_
      simpa [HostWorld.mapInfo, HostInfo.hasHost_newHost, heq] using hother
  · intro other hother
    by_cases heq : other = host
    · simp [HostWorld.mapInfo, HostInfo.hasHost_newHost, heq]
    · refine hhas other (h.world.alive other ?_)
      simpa [HostWorld.mapInfo, HostInfo.isAlive, HostInfo.statusOf_newHost, heq] using hother
  · exact fun t ht => hhas _ (h.world.pooled t ht)
  · intro other t ht
    simp only [HostWorld.mapInfo, hqueue] at ht
    exact h.world.filed other t ht
  · intro other hother
    by_cases heq : other = host
    · rw [h.counted_eq_finished (heq ▸ h.unused_of_not_hasHost hnot)]
      simp [HostWorld.due, HostWorld.mapInfo, HostInfo.statusOf_newHost, heq, HostStatus.create]
    · rw [HostInfo.hasHost_newHost, decide_eq_false heq, Bool.false_or] at hother
      rw [← h.remain other hother]
      refine due_mapInfo ?_
      rw [HostInfo.statusOf_newHost, if_neg heq]

theorem removeHosts (h : p.Inv) (hc : p.At i c) (hwrites : c.writes = true)
    {gone : List Bytes} (hunused : ∀ host ∈ gone, p.Unused host)
    (hadvance : c.advance conf outcome p.shared = (p.shared.mapInfo (·.removeHosts gone), .done)) :
    HostPool.Inv (p.run (HostCall.advance conf outcome) i) := by
  have hstay : ∀ t : HostTask, p.shared.info.hasHost t.host = true → t.host ∉ gone →
      (p.shared.info.removeHosts gone).hasHost t.host = true := by
    intro t ht hgone
    simp [HostInfo.hasHost_removeHosts, ht, hgone]
  have hleft : ∀ host, (p.shared.info.removeHosts gone).hasHost host = true →
      p.shared.info.hasHost host = true ∧ host ∉ gone := by
    intro host hhost
    simpa [HostInfo.hasHost_removeHosts] using hhost
  have hqueue : ∀ host, (p.shared.info.removeHosts gone).queueOf host = p.shared.info.queueOf host := by
    intro host
    by_cases hgone : host ∈ gone
    · rw [(hunused host hgone).2.1]
      apply HostInfo.queueOf_of_not_hasHost
      simp [HostInfo.hasHost_removeHosts, hgone]
    · exact HostInfo.queueOf_removeHosts hgone
  refine h.write hc hwrites hadvance ⟨?_, ?_, ?_, ?_⟩ ?_ hqueue ?_
  · intro host hhost
    obtain ⟨hhas, hgone⟩ := hleft host hhost
    simp only [HostWorld.mapInfo, HostInfo.status_removeHosts hgone]
    exact h.world.status host hhas
  · exact HostInfo.hasHost_of_isAlive_removeHosts gone h.world.alive
  · intro t ht
    exact hstay t (h.world.pooled t ht) fun hgone => (hunused _ hgone).1 t ht rfl
  · intro host t ht
    simp only [HostWorld.mapInfo, hqueue] at ht
    exact h.world.filed host t ht
  · intro j u hu t ht
    exact hstay t ((h.good j u hu).uses t ht) fun hgone =>
      (hunused _ hgone).2.2 u (List.mem_of_getElem? hu) t ht rfl
  · intro host hhost
    obtain ⟨hhas, hgone⟩ := hleft host hhost
    rw [← h.remain host hhas]
    refine due_mapInfo ?_
    rw [HostInfo.statusOf, HostInfo.statusOf, HostInfo.status_removeHosts hgone]

theorem step (h : p.Inv) {e : HostEvent} (hsettled : p.Settled conf e) :
    HostPool.Inv (p.step conf e) := by
  cases e with
  | addTask host =>
    refine h.spawn rfl trivial rfl rfl rfl fun t phase heq => ?_
    obtain ⟨rfl, -⟩ := HostCall.addTask.inj heq
    rfl
  | work => exact h.spawn rfl trivial rfl rfl rfl (by simp)
  | redeliver => exact h.spawn rfl trivial rfl rfl rfl (by simp)
  | addHost host => exact h.spawn rfl trivial rfl rfl rfl (by simp)
  | removeHost host => exact h.spawn rfl trivial rfl rfl rfl (by simp)
  | removeSilent => exact h.spawn rfl trivial rfl rfl rfl (by simp)
  | probe host answers =>
    rw [HostPool.step]
    split_ifs with hhas
    · exact h.probe hhas _
    · exact h.probe hhas _
    · exact h
  | run i outcome =>
    rw [HostPool.step]
    split_ifs with hblocked
    · exact h
    · cases hc : p.threads[i]? with
      | none =>
        rw [Pool.run, hc]
        exact h
      | some c =>
        have hsettled := hsettled c hc
        cases c with
        | newHost host => exact h.newHost hc hsettled
        | removeHost host =>
          have hunused : ∀ other ∈ [host], p.Unused other := by
            simpa [HostPool.Allows] using hsettled
          exact h.removeHosts hc rfl hunused rfl
        | removeSilent => exact h.removeHosts hc rfl hsettled rfl
        | addTask t phase => exact h.run hc rfl
        | work phase => exact h.run hc rfl
        | redeliver phase => exact h.run hc rfl
        | findHost host => exact h.run hc rfl
        | done => exact h.run hc rfl

theorem places_add_finished (h : p.Inv) {phase : AddPhase}
    (hc : p.At i (.addTask t phase)) (htaken : phase.isTaken = true) :
    p.places t + p.shared.finished.countP (· = t) = 1 := by
  have hbalance := h.located_add_finished t.host (· = t) (by simp)
  rw [← Pool.total_add, Pool.total_eq_of_at hc] at hbalance
  · rw [HostPool.places, hbalance]
    cases phase with
    | count => simp [HostCall.uncounted, HostCall.counted, tally_some]
    | countBackedUp => simp [HostCall.uncounted, HostCall.counted, tally_some]
    | accepted => simp [HostCall.uncounted, HostCall.counted, tally_some]
    | _ => cases htaken
  · -- Another thread has another task.
    intro j c hne hj
    cases c with
    | addTask u other =>
      have hu : u ≠ t := fun heq => hne ((h.ids j u other hj).symm.trans (heq ▸ h.ids i t phase hc))
      cases other <;> simp [HostCall.uncounted, HostCall.counted, tally_some, hu]
    | _ => rfl

end HostPool.Inv

/-- The counter of a registered host is short of its tasks that are queued, backed up or running by the calls of
`add_task` that have handed theirs over and not counted it yet. It says how many there are exactly where there is no
such call. A task that was taken is finished or in one place, the queue of its own host being the only one it can be
in. -/
structure HostPool.Balanced (p : HostPool) : Prop where
  remain : ∀ host, p.shared.info.hasHost host = true →
    (p.shared.info.statusOf host).remain + p.between host = p.outstanding host
  exact_iff : ∀ host, p.shared.info.hasHost host = true →
    ((p.shared.info.statusOf host).remain = p.outstanding host ↔ p.between host = 0)
  nonneg : ∀ host, p.shared.info.hasHost host = true → p.between host = 0 →
    0 ≤ (p.shared.info.statusOf host).remain ∧
      (p.outstanding host = 0 → (p.shared.info.statusOf host).remain = 0)
  owned : ∀ i t phase, p.At i (.addTask t phase) → phase.isTaken = true →
    p.places t + p.shared.finished.countP (· = t) = 1
  filed : ∀ host, ∀ t ∈ p.shared.info.queueOf host, t.host = host

theorem HostPool.outstanding_nonneg (p : HostPool) (host : Bytes) : 0 ≤ p.outstanding host := by
  have hheld : 0 ≤ p.total fun c => tally (·.host = host) c.held := by
    refine Pool.total_nonneg fun c => ?_
    unfold tally
    split_ifs <;> decide
  rw [HostPool.outstanding, HostPool.located]
  omega

theorem HostPool.Inv.balanced {p : HostPool} (h : p.Inv) : p.Balanced := by
  have hremain : ∀ host, p.shared.info.hasHost host = true →
      (p.shared.info.statusOf host).remain + p.between host = p.outstanding host := by
    intro host hhas
    have hbalance := h.located_add_finished host (·.host = host) (by simp)
    have hdue := h.remain host hhas
    rw [HostWorld.due] at hdue
    rw [HostPool.between, HostPool.outstanding]
    omega
  refine ⟨hremain, fun host hhas => ?_, fun host hhas hbetween => ?_, fun i t phase => h.places_add_finished,
    h.world.filed⟩
  · have hcount := hremain host hhas
    omega
  · have hcount := hremain host hhas
    have hnonneg := p.outstanding_nonneg host
    exact ⟨by omega, by omega⟩

/-- In every run without a removal of a host in use, and without an addition of a host that is there, the accounts are
as `Balanced` says in every state. -/
theorem host_accounts_balance {conf : HostConf} {events : List HostEvent}
    (h : Run.Guarded (HostPool.step conf) (HostPool.Settled conf) .start events) :
    (Run.exec (HostPool.step conf) .start events).Balanced :=
  (h.invariant (fun _ _ hinv hsettled => hinv.step hsettled) HostPool.Inv.start).balanced

/-! ### Two runs -/

def openConf : HostConf := ⟨0, 0, 3600⟩

def taskUnderWay : List HostEvent :=
  [.addHost [1], .run 0 .success, .run 0 .success, .probe [1] true,
    .addTask [1], .run 1 .success, .run 1 .success, .run 1 .success, .run 1 .success,
    .work, .run 2 .success]

/-- The accounts are right while the worker has the task. -/
theorem host_accounts_balance_small :
    Run.Guarded (HostPool.step openConf) (HostPool.Settled openConf) .start taskUnderWay ∧
      (Run.exec (HostPool.step openConf) .start taskUnderWay).Balanced :=
  have hguarded : Run.Guarded (HostPool.step openConf) (HostPool.Settled openConf) .start taskUnderWay := by
    decide
  ⟨hguarded, host_accounts_balance hguarded⟩

def hostComesAndGoes : List HostEvent :=
  taskUnderWay ++ [.removeHost [1], .run 3 .success, .addHost [1], .run 4 .success, .run 4 .success,
    .run 2 .success, .run 2 .success]

/-- The worker is done with the task before `add_task` has counted it. -/
def finishedUncounted : List HostEvent :=
  [.addHost [1], .run 0 .success, .run 0 .success, .probe [1] true,
    .addTask [1], .run 1 .success, .run 1 .success, .run 1 .success,
    .work, .run 2 .success, .run 2 .success, .run 2 .success]

/-- No call is under way and no task is left, and the counter is -1 for good. It is -1 for a while where a task is
finished before it is counted, in a run in which no host is removed. -/
theorem remain_is_negative :
    let s := Run.exec (HostPool.step openConf) .start hostComesAndGoes
    let s' := Run.exec (HostPool.step openConf) .start finishedUncounted
    (s.shared.info.hasHost [1] = true ∧ s.outstanding [1] = 0 ∧ s.between [1] = 0 ∧
      (s.shared.info.statusOf [1]).remain = -1) ∧
    Run.Guarded (HostPool.step openConf) (HostPool.Settled openConf) .start finishedUncounted ∧
    s'.shared.info.hasHost [1] = true ∧ s'.outstanding [1] = 0 ∧ s'.between [1] = 1 ∧
    (s'.shared.info.statusOf [1]).remain = -1 := by
  decide

end HustStore.Binlog
