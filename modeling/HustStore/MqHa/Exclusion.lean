import HustStore.Base
import HustStore.Lib.Run

/-!
# One publish at a time

A publish is let in if the reference count of its queue is 0, and the count goes up only when its body has been
read. A timeout resets the count while the publish is still running.
-/

namespace HustStore.MqHa

/-- The body is being read; subrequests are running, and whether the time is up; the request is over. -/
inductive Stage
  | reading
  | running (timeout : Bool)
  | ended
  deriving DecidableEq

def Stage.isRunning : Stage → Bool
  | .running _ => true
  | .reading | .ended => false

def Stage.inTime : Stage → Bool
  | .running timeout => !timeout
  | .reading | .ended => false

structure PublishCtx where
  queue : Bytes
  stage : Stage
  peers : Nat
  deriving DecidableEq

/-- The counts of `g_pub_ref_dict` and the requests that were let in. -/
structure Publishes where
  refCount : Bytes → Nat
  requests : List PublishCtx

/-- A request with what its other checks say and its number of peers behind the first; its body has been read, and
whether the first subrequest was sent; a subrequest has returned, and whether the next could be sent; its timer. -/
inductive PublishEvent
  | first (queue : Bytes) (passes : Bool) (peers : Nat)
  | postBody (i : Nat) (sent : Bool)
  | subrequest (i : Nat) (sent : Bool)
  | timeout (i : Nat)

namespace Publishes

def init : Publishes := ⟨fun _ => 0, []⟩

def setRef (s : Publishes) (queue : Bytes) (n : Nat) : Publishes :=
  { s with refCount := Function.update s.refCount queue n }

def setRequest (s : Publishes) (i : Nat) (ctx : PublishCtx) : Publishes := { s with requests := s.requests.set i ctx }

def firstPublishHandler (s : Publishes) (queue : Bytes) (passes : Bool) (peers : Nat) : Publishes :=
  if s.refCount queue > 0 ∨ !passes then s else { s with requests := s.requests ++ [⟨queue, .reading, peers⟩] }

def postBodyHandler (s : Publishes) (i : Nat) (ctx : PublishCtx) (sent : Bool) : Publishes :=
  if sent then (s.setRequest i { ctx with stage := .running false }).setRef ctx.queue (s.refCount ctx.queue + 1)
  else s.setRequest i { ctx with stage := .ended }

/-- `hustmq_ha_publish_handler` for a request that has a context. -/
def publishHandler (s : Publishes) (i : Nat) (ctx : PublishCtx) (timeout sent : Bool) : Publishes :=
  if !timeout ∧ ctx.peers > 0 ∧ sent then s.setRequest i { ctx with peers := ctx.peers - 1 }
  else (s.setRequest i { ctx with stage := .ended }).setRef ctx.queue (s.refCount ctx.queue - 1)

def publishTimeoutHandler (s : Publishes) (i : Nat) (ctx : PublishCtx) : Publishes :=
  (s.setRequest i { ctx with stage := .running true }).setRef ctx.queue 0

def handle (s : Publishes) (i : Nat) (ctx : PublishCtx) : PublishEvent → Publishes
  | .postBody _ sent => match ctx.stage with
    | .reading => s.postBodyHandler i ctx sent
    | .running _ | .ended => s
  | .subrequest _ sent => match ctx.stage with
    | .running timeout => s.publishHandler i ctx timeout sent
    | .reading | .ended => s
  | .timeout _ => match ctx.stage with
    | .running false => s.publishTimeoutHandler i ctx
    | .running true | .reading | .ended => s
  | .first _ _ _ => s

def step (s : Publishes) (event : PublishEvent) : Publishes :=
  match event with
  | .first queue passes peers => s.firstPublishHandler queue passes peers
  | .postBody i _ | .subrequest i _ | .timeout i => match s.requests[i]? with
    | some ctx => s.handle i ctx event
    | none => s

/-- The running requests of a queue that `p` holds of. -/
def count (p : Stage → Bool) (s : Publishes) (queue : Bytes) : Nat :=
  s.requests.countP fun ctx => decide (ctx.queue = queue) && p ctx.stage

def inFlight (s : Publishes) (queue : Bytes) : Nat := s.count Stage.isRunning queue

/-- At most one publish of a queue is running, the count is 0 or 1, and 0 if none is running. -/
def Exclusive (s : Publishes) : Prop :=
  ∀ queue, s.inFlight queue ≤ 1 ∧ s.refCount queue ≤ 1 ∧ (s.inFlight queue = 0 → s.refCount queue = 0)

/-- A publish that starts to run is the only one of its queue. -/
def Alone (s : Publishes) : PublishEvent → Prop
  | .postBody i sent => ∀ ctx, s.requests[i]? = some ctx → ctx.stage = .reading → sent → s.inFlight ctx.queue = 0
  | .first _ _ _ | .subrequest _ _ | .timeout _ => True

/-! ### What the count counts -/

def Counted (s : Publishes) : Prop := ∀ queue, s.refCount queue = s.count Stage.inTime queue

variable {s : Publishes} {i : Nat} {ctx : PublishCtx} {p : Stage → Bool}

theorem count_setRequest (h : s.requests[i]? = some ctx) (new : PublishCtx) (hnew : new.queue = ctx.queue)
    (p : Stage → Bool) (queue : Bytes) : (s.setRequest i new).count p queue +
      (if ctx.queue = queue then (p ctx.stage).toNat else 0) =
      s.count p queue + if ctx.queue = queue then (p new.stage).toNat else 0 := by
  obtain ⟨hi, rfl⟩ := List.getElem?_eq_some_iff.mp h
  unfold count setRequest
  rw [List.countP_set hi, hnew]
  by_cases hq : s.requests[i].queue = queue
  · have hpos : p s.requests[i].stage = true →
        0 < s.requests.countP fun ctx => decide (ctx.queue = queue) && p ctx.stage :=
      fun hp => List.countP_pos_iff.mpr ⟨_, List.getElem_mem hi, by simp [hq, hp]⟩
    cases hp : p s.requests[i].stage <;> cases hn : p new.stage <;> simp_all
  · simp [hq]

theorem count_first (hp : p .reading = false) (queue : Bytes) (passes : Bool) (peers : Nat) (queue' : Bytes) :
    (s.firstPublishHandler queue passes peers).count p queue' = s.count p queue' := by
  unfold firstPublishHandler
  split
  · rfl
  · simp [count, hp]

theorem inTime_le (s : Publishes) (queue : Bytes) : s.count Stage.inTime queue ≤ s.count Stage.isRunning queue :=
  List.countP_mono_left fun ctx _ h => by
    cases hstage : ctx.stage <;> simp_all [Stage.inTime, Stage.isRunning]

theorem Counted.exclusive_iff (h : s.Counted) : s.Exclusive ↔ ∀ queue, s.count Stage.isRunning queue ≤ 1 := by
  refine forall_congr' fun queue => ?_
  have := s.inTime_le queue
  rw [h queue, inFlight]
  omega

theorem setRef_self (s : Publishes) (queue : Bytes) : s.setRef queue (s.refCount queue) = s := by
  rw [setRef, Function.update_eq_self]

theorem Counted.set (h : s.Counted) (hle : ∀ queue, s.count Stage.isRunning queue ≤ 1)
    (hi : s.requests[i]? = some ctx) (new : PublishCtx) (hnew : new.queue = ctx.queue) {n : Nat}
    (hn : n + ctx.stage.inTime.toNat = s.count Stage.inTime ctx.queue + new.stage.inTime.toNat) :
    ((s.setRequest i new).setRef ctx.queue n).Counted ∧
      ((∀ queue, ((s.setRequest i new).setRef ctx.queue n).count Stage.isRunning queue ≤ 1) ↔
        s.count Stage.isRunning ctx.queue + new.stage.isRunning.toNat ≤ 1 + ctx.stage.isRunning.toNat) := by
  constructor
  · intro queue
    have htime := count_setRequest hi new hnew Stage.inTime queue
    by_cases hq : queue = ctx.queue
    · subst hq
      rw [if_pos rfl, if_pos rfl] at htime
      refine (Function.update_self ..).trans (?_ : n = (s.setRequest i new).count Stage.inTime ctx.queue)
      omega
    · rw [if_neg (Ne.symm hq), if_neg (Ne.symm hq)] at htime
      exact ((Function.update_of_ne hq ..).trans (h queue)).trans htime.symm
  · show (∀ queue, (s.setRequest i new).count Stage.isRunning queue ≤ 1) ↔ _
    constructor
    · intro hall
      have hflight := count_setRequest hi new hnew Stage.isRunning ctx.queue
      have := hall ctx.queue
      rw [if_pos rfl, if_pos rfl] at hflight
      omega
    · intro hone queue
      have hflight := count_setRequest hi new hnew Stage.isRunning queue
      have := hle queue
      split_ifs at hflight with hq
      · subst hq
        omega
      · omega

section

variable (h : s.Counted) (hle : ∀ queue, s.count Stage.isRunning queue ≤ 1) (hi : s.requests[i]? = some ctx)

include h hle hi

theorem Counted.postBody (hstage : ctx.stage = .reading) (sent : Bool) : (s.postBodyHandler i ctx sent).Counted ∧
    ((∀ queue, (s.postBodyHandler i ctx sent).count Stage.isRunning queue ≤ 1) ↔
      (sent → s.inFlight ctx.queue = 0)) := by
  have hcount := h ctx.queue
  cases sent with
  | false =>
    have hset := h.set hle hi { ctx with stage := .ended } rfl (n := s.refCount ctx.queue)
      (by simp [hstage, Stage.inTime, hcount])
    rw [show s.refCount = (s.setRequest i { ctx with stage := .ended }).refCount from rfl, setRef_self] at hset
    exact hset.imp_right fun h => h.trans (by simp [hstage, Stage.isRunning, hle ctx.queue])
  | true =>
    have hset := h.set hle hi { ctx with stage := .running false } rfl (n := s.refCount ctx.queue + 1)
      (by simp [hstage, Stage.inTime, hcount])
    exact hset.imp_right fun h => h.trans (by simp [hstage, Stage.isRunning, inFlight])

theorem Counted.subrequest {timeout : Bool} (hstage : ctx.stage = .running timeout) (sent : Bool) :
    (s.publishHandler i ctx timeout sent).Counted ∧
      ∀ queue, (s.publishHandler i ctx timeout sent).count Stage.isRunning queue ≤ 1 := by
  have hcount := h ctx.queue
  have hone := hle ctx.queue
  unfold publishHandler
  split
  · have hset := h.set hle hi { ctx with peers := ctx.peers - 1 } rfl (n := s.refCount ctx.queue)
      (by simp [hcount])
    rw [show s.refCount = (s.setRequest i { ctx with peers := ctx.peers - 1 }).refCount from rfl, setRef_self] at hset
    exact hset.imp_right fun h => h.mpr (Nat.add_le_add_right hone _)
  · -- without this request, at least the others in time are running
    have hrunning := count_setRequest hi { ctx with stage := .ended } rfl Stage.isRunning ctx.queue
    have htime := count_setRequest hi { ctx with stage := .ended } rfl Stage.inTime ctx.queue
    have hrest := inTime_le (s.setRequest i { ctx with stage := .ended }) ctx.queue
    simp only [hstage, Stage.isRunning, Stage.inTime, if_true, Bool.toNat_true, Bool.toNat_false] at hrunning htime
    have hset := h.set hle hi { ctx with stage := .ended } rfl (n := s.refCount ctx.queue - 1) (by
      cases timeout <;> simp [hstage, Stage.inTime] at htime ⊢ <;> omega)
    exact hset.imp_right fun h => h.mpr (by simp [hstage, Stage.isRunning]; omega)

theorem Counted.timeout (hstage : ctx.stage = .running false) : (s.publishTimeoutHandler i ctx).Counted ∧
    ∀ queue, (s.publishTimeoutHandler i ctx).count Stage.isRunning queue ≤ 1 := by
  have hone := hle ctx.queue
  have htime := count_setRequest hi { ctx with stage := .ended } rfl Stage.inTime ctx.queue
  have hrest := s.inTime_le ctx.queue
  simp only [hstage, Stage.inTime, if_true, Bool.not_false, Bool.toNat_true, Bool.toNat_false] at htime
  have hset := h.set hle hi { ctx with stage := .running true } rfl (n := 0)
    (by simp [hstage, Stage.inTime]; omega)
  exact hset.imp_right fun h => h.mpr (by simp [hstage, Stage.isRunning]; omega)

theorem Counted.handle (event : PublishEvent) : (s.handle i ctx event).Counted ∧
    ((∀ queue, (s.handle i ctx event).count Stage.isRunning queue ≤ 1) ↔
      ∀ j, event = .postBody j true → ctx.stage = .reading → s.inFlight ctx.queue = 0) := by
  cases event with
  | first queue passes peers => exact ⟨h, iff_of_true hle (by simp)⟩
  | postBody j sent =>
    cases hstage : ctx.stage with
    | running timeout | ended => simpa [Publishes.handle, hstage] using ⟨h, hle⟩
    | reading => simpa [Publishes.handle, hstage] using h.postBody hle hi hstage sent
  | subrequest j sent =>
    cases hstage : ctx.stage with
    | reading | ended => simpa [Publishes.handle, hstage] using ⟨h, hle⟩
    | running timeout => simpa [Publishes.handle, hstage] using h.subrequest hle hi hstage sent
  | timeout j =>
    cases hstage : ctx.stage with
    | reading | ended => simpa [Publishes.handle, hstage] using ⟨h, hle⟩
    | running timeout =>
      cases timeout with
      | true => simpa [Publishes.handle, hstage] using ⟨h, hle⟩
      | false => simpa [Publishes.handle, hstage] using h.timeout hle hi hstage

end

theorem Counted.first (h : s.Counted) (hle : ∀ queue, s.count Stage.isRunning queue ≤ 1) (queue : Bytes) (passes : Bool)
    (peers : Nat) : (s.firstPublishHandler queue passes peers).Counted ∧
      ∀ queue', (s.firstPublishHandler queue passes peers).count Stage.isRunning queue' ≤ 1 := by
  have href : (s.firstPublishHandler queue passes peers).refCount = s.refCount := by
    unfold firstPublishHandler
    split <;> rfl
  refine ⟨fun queue' => ?_, fun queue' => (count_first rfl queue passes peers queue').trans_le (hle queue')⟩
  rw [href, count_first rfl]
  exact h queue'

theorem Counted.request (h : s.Counted) (hle : ∀ queue, s.count Stage.isRunning queue ≤ 1) (i : Nat)
    {event : PublishEvent}
    (hstep : s.step event = match s.requests[i]? with
      | some ctx => s.handle i ctx event
      | none => s)
    (hAlone : s.Alone event ↔ ∀ ctx, s.requests[i]? = some ctx → ∀ j, event = .postBody j true →
      ctx.stage = .reading → s.inFlight ctx.queue = 0) :
    (s.step event).Counted ∧ ((∀ queue, (s.step event).count Stage.isRunning queue ≤ 1) ↔ s.Alone event) := by
  rw [hstep, hAlone]
  cases hi : s.requests[i]? with
  | none => exact ⟨h, iff_of_true hle (by simp)⟩
  | some ctx =>
    obtain ⟨hcounted, hone⟩ := h.handle hle hi event
    exact ⟨hcounted, hone.trans ⟨fun h _ hctx => Option.some.inj hctx ▸ h, fun h => h ctx rfl⟩⟩

theorem Counted.step (h : s.Counted) (hexclusive : s.Exclusive) (event : PublishEvent) :
    (s.step event).Counted ∧ ((∀ queue, (s.step event).count Stage.isRunning queue ≤ 1) ↔ s.Alone event) := by
  have hle := h.exclusive_iff.mp hexclusive
  cases event with
  | first queue passes peers =>
    obtain ⟨hcounted, hone⟩ := h.first hle queue passes peers
    exact ⟨hcounted, iff_of_true hone trivial⟩
  | postBody i sent =>
    refine h.request hle i rfl ⟨fun h ctx hctx j hj hstage => ?_, fun h ctx hctx hstage hsent => ?_⟩
    · cases hj
      exact h ctx hctx hstage rfl
    · exact h ctx hctx i (hsent ▸ rfl) hstage
  | subrequest i sent | timeout i => exact h.request hle i rfl (iff_of_true trivial (by simp))

/-- In every state of a run at most one publish of a queue is running and the count says so, exactly if every publish
whose body has been read finds no other one of its queue running. -/
theorem publish_exclusive_iff (events : List PublishEvent) :
    (∀ taken, taken <+: events → (Run.exec step init taken).Exclusive) ↔ Run.Guarded step Alone init events := by
  refine (Run.guarded_iff_lockstep (fun (_ : Unit) _ => ()) (R := fun s _ => Counted s) (P := fun s _ => Exclusive s)
    (t := ()) (fun s _ event h hP => (h.step hP event).1) (fun s _ event h hP => ?_) ?_ ?_).symm
  · rw [(h.step hP event).1.exclusive_iff, (h.step hP event).2]
  · exact fun queue => rfl
  · exact fun queue => ⟨Nat.zero_le _, Nat.zero_le _, fun _ => rfl⟩

/-- Two requests are let in while their bodies are read, and both run. -/
theorem two_publishes_run :
    let events := [.first (ascii "q") true 0, .first (ascii "q") true 0, .postBody 0 true, .postBody 1 true]
    (Run.exec step init events).inFlight (ascii "q") = 2 ∧ (Run.exec step init events).refCount (ascii "q") = 2 := by
  decide

end Publishes

end HustStore.MqHa
