import HustStore.Lib.Run
import HustStore.Mq.Server

/-!
# The steps of one queue

What each call does to the queue it is about and to the storage, said once for each call. A queue that is not in
the index counts as a fresh one: the next put creates it so.
-/

namespace HustStore

namespace Mq

variable {σ : Type} {kv : Kv σ} {conf : MqConf} {queue : Bytes} {s : Mq σ}

def queueOf (conf : MqConf) (queue : Bytes) (s : Mq σ) : Queue :=
  (s.queues.get? queue).getD (.fresh conf .queueTb)

@[ext]
structure View (σ : Type) where
  queue : Queue
  storage : σ
  now : Nat

def view (conf : MqConf) (queue : Bytes) (s : Mq σ) : View σ := ⟨s.queueOf conf queue, s.storage, s.now⟩

@[simp] theorem view_queue : (s.view conf queue).queue = s.queueOf conf queue := rfl

@[simp] theorem view_storage : (s.view conf queue).storage = s.storage := rfl

@[simp] theorem view_now : (s.view conf queue).now = s.now := rfl

@[simp] theorem view_setQueue (q : Queue) : (s.setQueue queue q).view conf queue = ⟨q, s.storage, s.now⟩ := by
  simp [view, queueOf, setQueue]

theorem queueOf_some {q : Queue} (h : s.queues.get? queue = some q) : s.queueOf conf queue = q := by
  rw [queueOf, h, Option.getD_some]

/-! ### Finding the queue -/

variable {found : Option Queue}

theorem findQueue_create {type : QueueType} {s' : Mq σ}
    (htype : ((s.queues.get? queue).getD (.fresh conf type)).stat.type = type)
    (h : s.findQueue conf queue true type = (found, s')) :
    s'.storage = s.storage ∧ s'.now = s.now ∧
    (s'.queues.get? queue).getD (.fresh conf type) = (s.queues.get? queue).getD (.fresh conf type) ∧
    ∀ q, found = some q → q = (s.queues.get? queue).getD (.fresh conf type) := by
  unfold findQueue at h
  cases hget : s.queues.get? queue with
  | some q =>
    rw [hget, Option.getD_some] at htype
    simp only [hget, htype, if_true, Prod.mk.injEq] at h
    obtain ⟨rfl, rfl⟩ := h
    rw [hget, Option.getD_some]
    exact ⟨rfl, rfl, rfl, fun q' hq' => (Option.some.inj hq').symm⟩
  | none =>
    simp only [hget] at h
    split_ifs at h with hroom
    · cases h
      refine ⟨rfl, rfl, ?_, fun q hq => (Option.some.inj hq).symm⟩
      rw [SortedMap.get?_insert_self, Option.getD_some, Option.getD_none]
    · cases h
      rw [hget]
      exact ⟨rfl, rfl, rfl, fun q hq => by cases hq⟩

theorem findQueue_true {s' : Mq σ} (htype : (s.queueOf conf queue).stat.type = .queueTb)
    (h : s.findQueue conf queue true .queueTb = (found, s')) :
    s'.view conf queue = s.view conf queue ∧ ∀ q, found = some q → q = s.queueOf conf queue := by
  obtain ⟨hstorage, hnow, hqueue, hfound⟩ := findQueue_create htype h
  exact ⟨View.ext hqueue hstorage hnow, hfound⟩

theorem findQueue_cases (s : Mq σ) (conf : MqConf) (queue : Bytes) (type : QueueType) :
    s.findQueue conf queue false type = (none, s) ∨
      s.findQueue conf queue false type = (some (s.queueOf conf queue), s) := by
  unfold findQueue queueOf
  cases s.queues.get? queue with
  | none => exact .inl (by simp)
  | some q => by_cases htype : q.stat.type = type <;> simp [htype]

/-! ### The cases of each call -/

def putBody (kv : Kv σ) (queue : Bytes) (v : View σ) (item : Bytes) (p : Fin 3) : Rc × σ :=
  kv.put v.storage v.now 0 (queueKey queue p (nextTag (v.queue.window p).ep)) item

inductive PutCases (kv : Kv σ) (queue : Bytes) (v : View σ) (item : Bytes) (priori : Nat) : Rc → View σ → Prop
  | refused (e : Errno) : PutCases kv queue v item priori (.err e) v
  | failed (p : Fin 3) (e : Errno) (hput : (putBody kv queue v item p).1 = .err e) :
      PutCases kv queue v item priori (.err e) { v with storage := (putBody kv queue v item p).2 }
  | accepted (p : Fin 3) (hp : priori = p) (hname : tbNameCheck queue)
      (hroom : v.queue.full = false) (hput : (putBody kv queue v item p).1 = .ok) :
      PutCases kv queue v item priori .ok ⟨v.queue.push p, (putBody kv queue v item p).2, v.now⟩

theorem putInto_cases (hname : tbNameCheck queue) (item : Bytes) (p : Fin 3) :
    PutCases kv queue (s.view conf queue) item p (s.putInto kv queue (s.queueOf conf queue) item p).1
      ((s.putInto kv queue (s.queueOf conf queue) item p).2.view conf queue) := by
  unfold putInto
  split_ifs with hfull
  · exact .refused _
  · have hroom : (s.view conf queue).queue.full = false := by simpa using hfull
    have hbody : putBody kv queue (s.view conf queue) item p = kv.put s.storage s.now 0
      (queueKey queue p (nextTag ((s.queueOf conf queue).window p).ep)) item := rfl
    rcases hput : kv.put s.storage s.now 0
      (queueKey queue p (nextTag ((s.queueOf conf queue).window p).ep)) item with ⟨_ | e, storage⟩
    · have haccepted : PutCases kv queue (s.view conf queue) item p .ok _ :=
        .accepted p rfl hname hroom (by rw [hbody, hput])
      rw [hbody, hput] at haccepted
      simp only [hput, view_setQueue]
      exact haccepted
    · have hfailed : PutCases kv queue (s.view conf queue) item p (.err e) _ :=
        .failed p e (by rw [hbody, hput])
      rw [hbody, hput] at hfailed
      simp only [hput]
      exact hfailed

theorem putCases (kv : Kv σ) (htype : (s.queueOf conf queue).stat.type = .queueTb) (item : Bytes) (priori : Nat) :
    PutCases kv queue (s.view conf queue) item priori (s.hustmqPut kv conf queue item priori).1
      ((s.hustmqPut kv conf queue item priori).2.view conf queue) := by
  unfold hustmqPut
  split_ifs with hargs hover
  · exact .refused _
  · rcases hfind : s.findQueue conf queue true .queueTb with ⟨_ | q, s'⟩
    · rw [← (findQueue_true htype hfind).1]
      exact .refused _
    · obtain ⟨hview, hq⟩ := findQueue_true htype hfind
      have hsame : q = s'.queueOf conf queue := (hq q rfl).trans (congrArg View.queue hview).symm
      rw [← hview, hsame]
      exact putInto_cases hargs.1 item ⟨priori, hargs.2.2⟩
  · exact .refused _

inductive GetCases (kv : Kv σ) (queue : Bytes) (v : View σ) (isAck : Bool) : GetReply → View σ → Prop
  | idle (e : Errno) : GetCases kv queue v isAck ⟨.err e, [], [], []⟩ v
  | failed (tag : Bytes) (q : Queue) (e : Errno) (hname : tbNameCheck queue)
      (htake : v.queue.take v.now = some (tag, q))
      (hget : (kv.get v.storage (tagKey queue tag)).1 = .err e) :
      GetCases kv queue v isAck ⟨.err e, tagKey queue tag, [], []⟩ { v with queue := q }
  | done (tag : Bytes) (q : Queue) (body : Body) (hname : tbNameCheck queue)
      (htake : v.queue.take v.now = some (tag, q))
      (hget : kv.body v.storage (tagKey queue tag) = some body) (hack : isAck = true) :
      GetCases kv queue v isAck ⟨.ok, tagKey queue tag, [], body.val⟩ { v with queue := q }
  | delivered (tag : Bytes) (q : Queue) (body : Body) (hname : tbNameCheck queue)
      (htake : v.queue.take v.now = some (tag, q))
      (hget : kv.body v.storage (tagKey queue tag) = some body) (hack : isAck = false) :
      GetCases kv queue v isAck ⟨.ok, tagKey queue tag, tag, body.val⟩ { v with queue := q.delivered v.now tag }

theorem getCases (kv : Kv σ) (worker : Bytes) (isAck : Bool) :
    GetCases kv queue (s.view conf queue) isAck (s.hustmqGet kv conf queue worker isAck).1
      ((s.hustmqGet kv conf queue worker isAck).2.view conf queue) := by
  unfold hustmqGet
  split_ifs with hargs
  · exact .idle _
  have hname : tbNameCheck queue := by
    rw [not_or, Bool.not_eq_true', Bool.not_eq_false] at hargs
    exact hargs.1
  rcases s.findQueue_cases conf queue .queueTb with hfind | hfind
  · simp only [hfind]
    exact .idle _
  rcases htake : (s.queueOf conf queue).take s.now with _ | ⟨tag, q⟩
  · simp only [hfind, htake]
    exact .idle _
  simp only [hfind, htake, deliver]
  rcases hget : kv.get s.storage (tagKey queue tag) with ⟨_ | e, body⟩
  · have hbody : kv.body (s.view conf queue).storage (tagKey queue tag) = some body := by
      rw [view_storage, Kv.body, hget]
    simp only
    cases isAck with
    | true =>
      simp only [if_true, view_setQueue]
      exact .done tag q body hname htake hbody rfl
    | false =>
      simp only [Bool.false_eq_true, if_false, view_setQueue]
      exact .delivered tag q body hname htake hbody rfl
  · simp only [view_setQueue]
    exact .failed tag q e hname htake (by rw [view_storage, hget])

inductive AckCases (queue : Bytes) (v : View σ) (ack : Bytes) : Except Errno Bytes → View σ → Prop
  | idle (e : Errno) : AckCases queue v ack (.error e) v
  | taken (time : Nat) (hname : tbNameCheck queue) (hunacked : v.queue.unacked.get? ack = some time) :
      AckCases queue v ack (.ok (tagKey queue ack)) { v with queue := v.queue.acked ack time }

theorem ackCases (ack : Bytes) : AckCases queue (s.view conf queue) ack (s.ackLocked conf queue ack).1
      ((s.ackLocked conf queue ack).2.view conf queue) := by
  unfold ackLocked
  split_ifs with hargs
  · exact .idle _
  rcases s.findQueue_cases conf queue .queueTb with hfind | hfind
  · simp only [hfind]
    exact .idle _
  cases hunacked : (s.queueOf conf queue).unacked.get? ack with
  | none =>
    simp only [hfind, hunacked]
    exact .idle _
  | some time =>
    simp only [hfind, hunacked, view_setQueue]
    rw [not_or, Bool.not_eq_true', Bool.not_eq_false] at hargs
    exact .taken time hargs.1 hunacked

inductive PurgeCases (kv : Kv σ) (conf : MqConf) (queue : Bytes) (v : View σ) (priori : Nat) : Rc → View σ → Prop
  | idle (e : Errno) : PurgeCases kv conf queue v priori (.err e) v
  | removed (p : Fin 3) (hp : priori = p) (hname : tbNameCheck queue) (hleft : v.queue.left p = 0) :
      PurgeCases kv conf queue v priori .ok ⟨.fresh conf .queueTb,
        purgeBodies kv v.storage queue p (Queue.purgeTags (v.queue.window p)), v.now⟩
  | emptied (p : Fin 3) (hp : priori = p) (hname : tbNameCheck queue) (hleft : v.queue.left p ≠ 0) :
      PurgeCases kv conf queue v priori .ok ⟨v.queue.setWindow p ⟨0, 0⟩,
        purgeBodies kv v.storage queue p (Queue.purgeTags (v.queue.window p)), v.now⟩

theorem purgeCases (kv : Kv σ) (priori : Nat) :
    PurgeCases kv conf queue (s.view conf queue) priori (s.hustmqPurge kv conf queue priori).1
      ((s.hustmqPurge kv conf queue priori).2.view conf queue) := by
  unfold hustmqPurge
  split_ifs with hargs
  · rcases s.findQueue_cases conf queue .queueTb with hfind | hfind
    · simp only [hfind]
      exact .idle _
    simp only [hfind]
    split_ifs with hleft
    · have hremoved : PurgeCases kv conf queue (s.view conf queue) priori .ok _ :=
        .removed ⟨priori, hargs.2⟩ rfl hargs.1 hleft
      simpa [view, queueOf] using hremoved
    · have hemptied : PurgeCases kv conf queue (s.view conf queue) priori .ok _ :=
        .emptied ⟨priori, hargs.2⟩ rfl hargs.1 hleft
      rw [view_setQueue]
      exact hemptied
  · exact .idle _

structure SameDeliveries (q q' : Queue) : Prop where
  window : q'.stat.window = q.stat.window
  type : q'.stat.type = q.stat.type
  unacked : q'.unacked = q.unacked
  redelivery : q'.redelivery = q.redelivery

theorem setStat_cases {valid : Bool} {set : QueueStat → QueueStat}
    (hwindow : ∀ stat, (set stat).window = stat.window) (htype : ∀ stat, (set stat).type = stat.type) :
    ∃ q, SameDeliveries (s.queueOf conf queue) q ∧
      (s.setStat conf queue valid set).2.view conf queue = { s.view conf queue with queue := q } := by
  unfold setStat
  split_ifs with hargs
  · exact ⟨_, ⟨rfl, rfl, rfl, rfl⟩, rfl⟩
  rcases s.findQueue_cases conf queue .queueTb with hfind | hfind
  · rw [hfind]
    exact ⟨_, ⟨rfl, rfl, rfl, rfl⟩, rfl⟩
  · rw [hfind]
    exact ⟨{ s.queueOf conf queue with stat := set (s.queueOf conf queue).stat }, ⟨hwindow _, htype _, rfl, rfl⟩,
      view_setQueue _⟩

end Mq

/-! ### Runs -/

structure MqRun (σ : Type) where
  server : Mq σ
  pending : List Bytes

inductive MqOp
  | put (item : Bytes) (priori : Nat)
  | get (worker : Bytes) (isAck : Bool)
  | ack (token : Bytes)
  | finish (i : Nat)
  | purge (priori : Nat)
  | max (n : Nat)
  | lock (n : Nat)
  | timeout (n : Nat)
  | tick (now : Nat)
  | threshold (exceeded : Bool)
  deriving DecidableEq

inductive MqReply
  | rc (r : Rc)
  | message (reply : Mq.GetReply)
  | token (key : Except Errno Bytes)
  | none

namespace MqOp

variable {σ : Type} (kv : Kv σ) (conf : MqConf) (queue : Bytes)

def call (s : MqRun σ) : MqOp → MqReply × MqRun σ
  | put item priori =>
    let (r, server) := s.server.hustmqPut kv conf queue item priori
    (.rc r, { s with server })
  | get worker isAck =>
    let (reply, server) := s.server.hustmqGet kv conf queue worker isAck
    (.message reply, ⟨server, if isAck ∧ reply.r = .ok then s.pending ++ [reply.ack] else s.pending⟩)
  | ack token => match s.server.ackLocked conf queue token with
    | (.error e, server) => (.token (.error e), { s with server })
    | (.ok key, server) => (.token (.ok key), ⟨server, s.pending ++ [key]⟩)
  | finish i => match s.pending[i]? with
    | none => (.none, s)
    | some key =>
      let (r, server) := s.server.hustmqAckInner kv key
      (.rc r, ⟨server, s.pending.eraseIdx i⟩)
  | purge priori =>
    let (r, server) := s.server.hustmqPurge kv conf queue priori
    (.rc r, { s with server })
  | max n =>
    let (r, server) := s.server.hustmqMax conf queue n
    (.rc r, { s with server })
  | lock n =>
    let (r, server) := s.server.hustmqLock conf queue n
    (.rc r, { s with server })
  | timeout n =>
    let (r, server) := s.server.hustmqTimeout conf queue n
    (.rc r, { s with server })
  | tick now => (.none, { s with server.now := now })
  | threshold exceeded => (.none, { s with server.overThreshold := exceeded })

def step (s : MqRun σ) (op : MqOp) : MqRun σ := (op.call kv conf queue s).2

def isSetting : MqOp → Bool
  | max _ | lock _ | timeout _ => true
  | _ => false

variable {kv conf queue}

open Mq in
inductive Cases (kv : Kv σ) (conf : MqConf) (queue : Bytes) (v : View σ) (pending : List Bytes) :
    MqOp → MqReply → View σ → List Bytes → Prop
  | put {item priori r v'} (h : PutCases kv queue v item priori r v') :
      Cases kv conf queue v pending (.put item priori) (.rc r) v' pending
  | get {worker isAck reply v'} (h : GetCases kv queue v isAck reply v') :
      Cases kv conf queue v pending (.get worker isAck) (.message reply) v'
        (if isAck ∧ reply.r = .ok then pending ++ [reply.ack] else pending)
  | notAcked {token} (e : Errno) : Cases kv conf queue v pending (.ack token) (.token (.error e)) v pending
  | acked {token time} (hname : tbNameCheck queue) (hunacked : v.queue.unacked.get? token = some time) :
      Cases kv conf queue v pending (.ack token) (.token (.ok (tagKey queue token)))
        { v with queue := v.queue.acked token time } (pending ++ [tagKey queue token])
  | finish {i key} (hkey : pending[i]? = some key) :
      Cases kv conf queue v pending (.finish i) (.rc (kv.del v.storage key).1)
        { v with storage := (kv.del v.storage key).2 } (pending.eraseIdx i)
  | idle {i} (hkey : pending[i]? = none) : Cases kv conf queue v pending (.finish i) .none v pending
  | purge {priori r v'} (h : PurgeCases kv conf queue v priori r v') :
      Cases kv conf queue v pending (.purge priori) (.rc r) v' pending
  | set {op r q} (hop : op.isSetting) (h : SameDeliveries v.queue q) :
      Cases kv conf queue v pending op (.rc r) { v with queue := q } pending
  | tick (now : Nat) : Cases kv conf queue v pending (.tick now) .none { v with now } pending
  | threshold (exceeded : Bool) : Cases kv conf queue v pending (.threshold exceeded) .none v pending

theorem cases (s : MqRun σ) (htype : (s.server.queueOf conf queue).stat.type = .queueTb) (op : MqOp) :
    Cases kv conf queue (s.server.view conf queue) s.pending op (op.call kv conf queue s).1
      ((op.step kv conf queue s).server.view conf queue) (op.step kv conf queue s).pending := by
  have hset {op : MqOp} (hop : op.isSetting) {valid : Bool} {set : QueueStat → QueueStat}
      (hwindow : ∀ stat, (set stat).window = stat.window)
      (htype : ∀ stat, (set stat).type = stat.type) :
      Cases kv conf queue (s.server.view conf queue) s.pending op (.rc (s.server.setStat conf queue valid set).1)
        ((s.server.setStat conf queue valid set).2.view conf queue) s.pending := by
    obtain ⟨q, hsame, hview⟩ := Mq.setStat_cases (s := s.server) hwindow htype
    rw [hview]
    exact .set hop hsame
  cases op with
  | put item priori => exact .put (Mq.putCases kv htype item priori)
  | get worker isAck => exact .get (Mq.getCases kv worker isAck)
  | ack token =>
    have hcases : Mq.AckCases queue (s.server.view conf queue) token _ _ := Mq.ackCases token
    simp only [step, call]
    generalize s.server.ackLocked conf queue token = out at hcases ⊢
    obtain ⟨key, server⟩ := out
    cases key with
    | error e =>
      simp only at hcases ⊢
      generalize server.view conf queue = v at hcases ⊢
      cases hcases
      exact .notAcked e
    | ok key =>
      simp only at hcases ⊢
      generalize server.view conf queue = v at hcases ⊢
      cases hcases with
      | taken time hname hunacked => exact .acked hname hunacked
  | finish i =>
    simp only [step, call]
    cases hkey : s.pending[i]? with
    | none => exact .idle hkey
    | some key => exact .finish hkey
  | purge priori => exact .purge (Mq.purgeCases kv priori)
  | max n =>
    simp only [step, call, Mq.hustmqMax]
    apply hset
    all_goals intros; rfl
  | lock n =>
    simp only [step, call, Mq.hustmqLock]
    apply hset
    all_goals intros; rfl
  | timeout n =>
    simp only [step, call, Mq.hustmqTimeout]
    apply hset
    all_goals intros; rfl
  | tick now => exact .tick now
  | threshold exceeded => exact .threshold exceeded

end MqOp

end HustStore
