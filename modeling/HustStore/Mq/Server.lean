import HustStore.Hustdb.Queue
import HustStore.Lib.Multimap
import HustStore.Lib.Ring
import HustStore.Mq.Storage

/-!
# The work queues

`hustmq_put`, `hustmq_get`, `hustmq_ack`, `hustmq_purge` and the settings of a queue. A queue has one window of
tags for each priority: the messages that wait are those with a tag in `(sp, ep]`, cyclically.
-/

namespace HustStore

def maxQueueItemNum : Nat := 5000000

def minWorkerLen : Nat := 4

def maxWorkerLen : Nat := 32

def clacRealItem (start end_ : Nat) : Nat :=
  if start ≤ end_ then end_ - start
  else if start > maxQueueItemNum then (cycleQueueItemNum + 2 ^ 32 - start + end_) % 2 ^ 32
  else 0

def nextTag (tag : Nat) : Nat := (tag + 1) % 2 ^ 32 % cycleQueueItemNum

def ackTag (priori tag : Nat) : Bytes :=
  Decimal.print 10 priori ++ ascii ":" ++ Decimal.print 10 tag

def tagKey (queue tag : Bytes) : Bytes := queue ++ ascii "|" ++ tag

inductive QueueType
  | queueTb
  | pushqTb
  deriving DecidableEq, Repr

structure Window where
  sp : Nat
  ep : Nat
  deriving DecidableEq, Repr

structure QueueStat where
  window : Fin 3 → Window
  lock : Bool
  type : QueueType
  timeout : Nat
  max : Nat

structure Queue where
  stat : QueueStat
  unacked : SortedMap Bytes Nat
  redelivery : Multimap Nat Bytes

structure MqConf where
  queueMaximum : Nat
  redeliveryTimeout : Nat
  ttlMaximum : Nat
  deriving DecidableEq, Repr

structure Mq (σ : Type) where
  storage : σ
  queues : SortedMap Bytes Queue
  now : Nat
  overThreshold : Bool

instance neZeroPriorities : NeZero 3 := ⟨by decide⟩

namespace Queue

def fresh (conf : MqConf) (type : QueueType) : Queue where
  stat := ⟨fun _ => ⟨0, 0⟩, false, type, conf.redeliveryTimeout % 2 ^ 8, 0⟩
  unacked := .empty
  redelivery := .empty

variable (q : Queue)

def window (p : Fin 3) : Window := q.stat.window p

def ready (p : Fin 3) : Nat := clacRealItem (q.window p).sp (q.window p).ep

def real : Nat := (q.ready 0 + q.ready 1 + q.ready 2) % 2 ^ 32

def full : Bool := q.stat.lock || 0 < q.stat.max && q.stat.max ≤ q.real || maxQueueItemNum ≤ q.real

def setWindow (p : Fin 3) (w : Window) : Queue :=
  { q with stat.window := assign q.stat.window p w }

def push (p : Fin 3) : Queue := q.setWindow p ⟨(q.window p).sp, nextTag (q.window p).ep⟩

def pop (p : Fin 3) : Queue := q.setWindow p ⟨nextTag (q.window p).sp, (q.window p).ep⟩

def due (now : Nat) : Option Bytes :=
  match q.redelivery.entries with
  | (time, tag) :: _ => if time + q.stat.timeout * 60 ≤ now then some tag else none
  | [] => none

def highest : Option (Fin 3) :=
  if 0 < q.ready 2 then some 2
  else if 0 < q.ready 1 then some 1
  else if 0 < q.ready 0 then some 0
  else none

def take (now : Nat) : Option (Bytes × Queue) :=
  match q.due now with
  | some tag => some (tag, { q with redelivery := q.redelivery.tail })
  | none => q.highest.map fun p : Fin 3 => (ackTag p (nextTag (q.window p).sp), q.pop p)

def delivered (now : Nat) (tag : Bytes) : Queue :=
  { q with
    unacked := if (q.unacked.get? tag).isSome then q.unacked else q.unacked.insert tag (now % 2 ^ 32)
    redelivery := q.redelivery.insert (now % 2 ^ 32) tag }

def acked (ack : Bytes) (time : Nat) : Queue :=
  { q with unacked := q.unacked.erase ack, redelivery := q.redelivery.erase time ack }

def lastTag (w : Window) : Nat :=
  if w.sp > w.ep ∧ w.sp > maxQueueItemNum then w.ep + cycleQueueItemNum else w.ep

def purgeTags (w : Window) : List Nat :=
  (List.range' (w.sp + 1) (lastTag w - w.sp)).map (· % cycleQueueItemNum)

def left (p : Fin 3) : Nat :=
  (q.real + 2 ^ 32 - clacRealItem (q.window p).sp (lastTag (q.window p))) % 2 ^ 32

end Queue

namespace Mq

variable {σ : Type} (kv : Kv σ) (conf : MqConf)

def findQueue (s : Mq σ) (queue : Bytes) (create : Bool) (type : QueueType) : Option Queue × Mq σ :=
  match s.queues.get? queue with
  | some q => (if q.stat.type = type then some q else none, s)
  | none =>
    if create ∧ s.queues.entries.length < conf.queueMaximum then
      let q := Queue.fresh conf type
      (some q, { s with queues := s.queues.insert queue q })
    else (none, s)

def setQueue (s : Mq σ) (queue : Bytes) (q : Queue) : Mq σ :=
  { s with queues := s.queues.insert queue q }

def putInto (s : Mq σ) (queue : Bytes) (q : Queue) (item : Bytes) (p : Fin 3) : Rc × Mq σ :=
  let tag := nextTag (q.window p).ep
  if q.full then (.err .EINVAL, s)
  else match kv.put s.storage s.now 0 (queueKey queue p tag) item with
    | (.ok, storage) => (.ok, { s with storage }.setQueue queue (q.push p))
    | (.err e, storage) => (.err e, { s with storage })

def hustmqPut (s : Mq σ) (queue item : Bytes) (priori : Nat) : Rc × Mq σ :=
  if h : tbNameCheck queue ∧ item ≠ [] ∧ priori < 3 then
    if s.overThreshold then (.err .ENOMEM, s)
    else match s.findQueue conf queue true .queueTb with
      | (none, s) => (.err .EPERM, s)
      | (some q, s) => s.putInto kv queue q item ⟨priori, h.2.2⟩
  else (.err .EKEYREJECTED, s)

structure GetReply where
  r : Rc
  ack : Bytes
  unacked : Bytes
  rsp : Bytes
  deriving DecidableEq, Repr

/-- The part of `hustmq_get` that has taken a message from its queue. The counters and the multimap
are changed before the body is read, and an error does not undo this. -/
def deliver (s : Mq σ) (queue tag : Bytes) (q : Queue) (isAck : Bool) : GetReply × Mq σ :=
  let key := tagKey queue tag
  match kv.get s.storage key with
  | (.ok, body) =>
    if isAck then (⟨.ok, key, [], body.val⟩, s.setQueue queue q)
    else (⟨.ok, key, tag, body.val⟩, s.setQueue queue (q.delivered s.now tag))
  | (.err e, _) => (⟨.err e, key, [], []⟩, s.setQueue queue q)

def hustmqGet (s : Mq σ) (queue worker : Bytes) (isAck : Bool) : GetReply × Mq σ :=
  if !tbNameCheck queue ∨ worker.length ≤ minWorkerLen ∨ worker.length > maxWorkerLen then
    (⟨.err .EKEYREJECTED, [], [], []⟩, s)
  else match s.findQueue conf queue false .queueTb with
    | (none, s) => (⟨.err .EPERM, [], [], []⟩, s)
    | (some q, s) => match q.take s.now with
      | none => (⟨.err .ENOENT, [], [], []⟩, s)
      | some (tag, q) => s.deliver kv queue tag q isAck

def hustmqAckInner (s : Mq σ) (key : Bytes) : Rc × Mq σ :=
  let (r, storage) := kv.del s.storage key
  (r, { s with storage })

def ackLocked (s : Mq σ) (queue ack : Bytes) : Except Errno Bytes × Mq σ :=
  if !tbNameCheck queue ∨ !tbNameCheck ack then (.error .EKEYREJECTED, s)
  else match s.findQueue conf queue false .queueTb with
    | (none, s) => (.error .EPERM, s)
    | (some q, s) => match q.unacked.get? ack with
      | none => (.error .EPERM, s)
      | some time => (.ok (tagKey queue ack), s.setQueue queue (q.acked ack time))

def hustmqAck (s : Mq σ) (queue ack : Bytes) : Rc × Mq σ :=
  match s.ackLocked conf queue ack with
  | (.error e, s) => (.err e, s)
  | (.ok key, s) => s.hustmqAckInner kv key

def purgeBodies (storage : σ) (queue : Bytes) (p : Fin 3) (tags : List Nat) : σ :=
  tags.foldl (fun storage tag => (kv.del storage (queueKey queue p tag)).2) storage

def hustmqPurge (s : Mq σ) (queue : Bytes) (priori : Nat) : Rc × Mq σ :=
  if h : tbNameCheck queue ∧ priori < 3 then
    match s.findQueue conf queue false .queueTb with
    | (none, s) => (.err .EPERM, s)
    | (some q, s) =>
      let p : Fin 3 := ⟨priori, h.2⟩
      let s := { s with storage := purgeBodies kv s.storage queue p (Queue.purgeTags (q.window p)) }
      if q.left p = 0 then (.ok, { s with queues := s.queues.erase queue })
      else (.ok, s.setQueue queue (q.setWindow p ⟨0, 0⟩))
  else (.err .EKEYREJECTED, s)

def setStat (s : Mq σ) (queue : Bytes) (valid : Bool) (set : QueueStat → QueueStat) : Rc × Mq σ :=
  if !tbNameCheck queue ∨ !valid then (.err .EKEYREJECTED, s)
  else match s.findQueue conf queue false .queueTb with
    | (none, s) => (.err .EPERM, s)
    | (some q, s) => (.ok, s.setQueue queue { q with stat := set q.stat })

def hustmqMax (s : Mq σ) (queue : Bytes) (max : Nat) : Rc × Mq σ :=
  s.setStat conf queue (max ≤ maxQueueItemNum) fun stat => { stat with max }

def hustmqLock (s : Mq σ) (queue : Bytes) (lock : Nat) : Rc × Mq σ :=
  s.setStat conf queue (lock = 0 ∨ lock = 1) fun stat => { stat with lock := lock = 1 }

def hustmqTimeout (s : Mq σ) (queue : Bytes) (timeout : Nat) : Rc × Mq σ :=
  s.setStat conf queue (0 < timeout ∧ timeout ≤ 255) fun stat => { stat with timeout }

end Mq

end HustStore
