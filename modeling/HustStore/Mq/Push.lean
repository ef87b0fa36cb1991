import HustStore.Mq.Counters

/-!
# The push queues

`hustmq_pub`, `hustmq_sub`, and the filter of the HA module. A push queue has one window of tags. Nothing is
taken out of it by its subscribers: each of them names the index it wants next.
-/

namespace HustStore

def idxAhead (tag idx : Nat) : Prop := idx < cycleQueueItemNum ∧ 0 < clacRealItem tag idx

instance (tag idx : Nat) : Decidable (idxAhead tag idx) := inferInstanceAs (Decidable (_ ∧ _))

def prevTag (idx : Nat) : Nat := (idx + cycleQueueItemNum - 1) % cycleQueueItemNum

def pubWindow (stag ep idx : Nat) : Window :=
  if idxAhead ep idx then ⟨prevTag idx, idx⟩ else ⟨stag, nextTag ep⟩

structure SubReply where
  r : Rc
  sp : Nat
  ep : Nat
  rsp : Bytes
  deriving DecidableEq, Repr

namespace Mq

variable {σ : Type} (kv : Kv σ) (conf : MqConf)

def pubLoop (queue : Bytes) (idx now : Nat) : (n stag : Nat) → σ → Nat × σ
  | 0, stag, storage => (stag, storage)
  | n + 1, stag, storage =>
    let tag := nextTag stag
    let key := queueKey queue 0 tag
    if idxAhead tag idx then pubLoop queue idx now n tag (kv.del storage key).2
    else match kv.get storage key with
      | (.err _, _) => pubLoop queue idx now n tag storage
      | (.ok, body) =>
        if body.ttl ≤ now then pubLoop queue idx now n tag (kv.del storage key).2
        else ((tag + 2 ^ 32 - 1) % 2 ^ 32, storage)

def pubInto (s : Mq σ) (queue : Bytes) (q : Queue) (item : Bytes) (idx wttl : Nat) : Rc × Mq σ :=
  let real := q.ready 0
  if q.stat.lock ∨ (q.stat.max > 0 ∧ real ≥ q.stat.max) ∨ real ≥ maxQueueItemNum then
    (.err .EINVAL, s)
  else
    let (stag, storage) := pubLoop kv queue idx s.now real (q.window 0).sp s.storage
    let w := pubWindow stag (q.window 0).ep idx
    match kv.put storage s.now (s.now + wttl) (queueKey queue 0 w.ep) item with
    | (.ok, storage) => (.ok, { s with storage }.setQueue queue (q.setWindow 0 w))
    | (.err e, storage) => (.err e, { s with storage })

def hustmqPub (s : Mq σ) (queue item : Bytes) (idx wttl : Nat) : Rc × Mq σ :=
  if !tbNameCheck queue ∨ item = [] ∨ wttl = 0 ∨ wttl > conf.ttlMaximum then
    (.err .EKEYREJECTED, s)
  else if s.overThreshold then (.err .ENOMEM, s)
  else match s.findQueue conf queue true .pushqTb with
    | (none, s) => (.err .EPERM, s)
    | (some q, s) => s.pubInto kv queue q item idx wttl

def hustmqSub (s : Mq σ) (queue : Bytes) (idx : Nat) : SubReply × Mq σ :=
  if !tbNameCheck queue ∨ idx ≥ cycleQueueItemNum then (⟨.err .EKEYREJECTED, 0, 0, []⟩, s)
  else match s.findQueue conf queue false .pushqTb with
    | (none, s) => (⟨.err .EPERM, 0, 0, []⟩, s)
    | (some q, s) =>
      let w := q.window 0
      if clacRealItem w.sp w.ep = 0 then (⟨.err .ENOENT, 0, 0, []⟩, s)
      else if clacRealItem w.sp idx = 0 ∨ clacRealItem (prevTag idx) w.ep = 0 then
        (⟨.err .EINVAL, w.sp, w.ep, []⟩, s)
      else match kv.get s.storage (queueKey queue 0 idx) with
        | (.err e, _) => (⟨.err e, 0, 0, []⟩, s)
        | (.ok, body) =>
          if body.ttl ≤ s.now then
            (⟨.err .ENOENT, 0, 0, []⟩, { s with storage := (kv.del s.storage (queueKey queue 0 idx)).2 })
          else (⟨.ok, 0, 0, body.val⟩, s)

end Mq

/-! ### The index of a subscriber -/

def hustmqHaGetIdxCycle (start end_ : Nat) : Nat :=
  if start ≤ end_ then end_ - start
  else if start > end_ ∧ start > maxQueueItemNum then
    (cycleQueueItemNum + 2 ^ 32 - start + end_) % 2 ^ 32
  else 0

def hustmqHaIdxCheck (idx si ci : Nat) : Bool :=
  if hustmqHaGetIdxCycle si ci = 0 then false
  else if hustmqHaGetIdxCycle si idx = 0 then false
  else if hustmqHaGetIdxCycle (prevTag idx) ci = 0 then false
  else true

theorem hustmqHaGetIdxCycle_eq (start end_ : Nat) : hustmqHaGetIdxCycle start end_ = clacRealItem start end_ := by
  unfold hustmqHaGetIdxCycle clacRealItem
  split_ifs <;> omega

theorem prevTag_eq {idx : Nat} (h : idx < cycleQueueItemNum) :
    prevTag idx = if idx = 0 then cycleQueueItemNum - 1 else idx - 1 := by
  unfold prevTag
  split
  · rename_i hzero
    rw [hzero, Nat.zero_add, Nat.mod_eq_of_lt (by decide)]
  · have hsplit : idx + cycleQueueItemNum - 1 = idx - 1 + cycleQueueItemNum := by omega
    rw [hsplit, Nat.add_mod_right, Nat.mod_eq_of_lt (by omega)]

theorem prevTag_lt (idx : Nat) : prevTag idx < cycleQueueItemNum := Nat.mod_lt _ cycle_pos

theorem clacRealItem_pos {start end_ : Nat} (hstart : start < cycleQueueItemNum) (hend : end_ < cycleQueueItemNum) :
    0 < clacRealItem start end_ ↔ start < end_ ∨ end_ < start ∧ maxQueueItemNum < start := by
  unfold clacRealItem
  unfold cycleQueueItemNum maxQueueItemNum at *
  split_ifs <;> omega

/-- Where the two distances tell whether an index lies in the window `(sp, ep]`. An index before a
window that starts beyond the capacity is taken to be in it, and so is an index beyond the capacity that
comes after the window. -/
def SubExact (sp ep idx : Nat) : Prop :=
  (idx < sp ∧ sp < ep → sp ≤ maxQueueItemNum ∨ idx = 0 ∧ ep + 1 = cycleQueueItemNum) ∧
  (ep + 1 < idx ∧ (ep < sp → idx < sp) → idx ≤ maxQueueItemNum + 1)

instance (sp ep idx : Nat) : Decidable (SubExact sp ep idx) := inferInstanceAs (Decidable (_ ∧ _))

theorem Mq.hustmqSub_refused {σ : Type} (kv : Kv σ) (conf : MqConf) {queue : Bytes} {s : Mq σ}
    {q : Queue} {idx : Nat} (hname : tbNameCheck queue = true)
    (hq : s.queues.get? queue = some q) (htype : q.stat.type = .pushqTb)
    (hidx : idx < cycleQueueItemNum) (hne : clacRealItem (q.window 0).sp (q.window 0).ep ≠ 0) :
    (s.hustmqSub kv conf queue idx).1 = ⟨.err .EINVAL, (q.window 0).sp, (q.window 0).ep, []⟩ ↔
      ¬ (0 < clacRealItem (q.window 0).sp idx ∧ 0 < clacRealItem (prevTag idx) (q.window 0).ep) := by
  have hargs : ¬ ((!tbNameCheck queue) = true ∨ idx ≥ cycleQueueItemNum) := by
    simp only [hname, Bool.not_true, Bool.false_eq_true, false_or]
    omega
  have hzero : ¬ ((q.window 0).sp = 0 ∧ (q.window 0).ep = 0) := by
    rintro ⟨hsp, hep⟩
    rw [hsp, hep] at hne
    exact hne rfl
  simp only [hustmqSub, if_neg hargs, findQueue, hq, htype, if_true, if_neg hne]
  by_cases hcheck : clacRealItem (q.window 0).sp idx = 0 ∨ clacRealItem (prevTag idx) (q.window 0).ep = 0
  · rw [if_pos hcheck]
    refine iff_of_true rfl ?_
    omega
  · rw [if_neg hcheck]
    refine iff_of_false (fun hreply => ?_) (by omega)
    -- Past the check the reply has no window, and the window is not that of the two zeros.
    split at hreply
    · simp only [SubReply.mk.injEq] at hreply
      exact hzero ⟨hreply.2.1.symm, hreply.2.2.1.symm⟩
    · split_ifs at hreply
      · simp only [SubReply.mk.injEq] at hreply
        exact hzero ⟨hreply.2.1.symm, hreply.2.2.1.symm⟩
      · simp only [SubReply.mk.injEq] at hreply
        exact hzero ⟨hreply.2.1.symm, hreply.2.2.1.symm⟩

theorem passes_iff_mem {sp ep idx : Nat} (hsp : sp < cycleQueueItemNum) (hep : ep < cycleQueueItemNum)
    (hpos : 0 < Ring.dist cycleQueueItemNum sp ep)
    (hle : Ring.dist cycleQueueItemNum sp ep ≤ maxQueueItemNum) (hidx : idx < cycleQueueItemNum) :
    ((0 < clacRealItem sp idx ∧ 0 < clacRealItem (prevTag idx) ep) ↔
      Ring.Mem cycleQueueItemNum sp ep idx) ↔ SubExact sp ep idx := by
  rw [clacRealItem_pos hsp hidx, clacRealItem_pos (prevTag_lt idx) hep, prevTag_eq hidx, Ring.Mem,
    Ring.dist_eq hsp hidx]
  rw [Ring.dist_eq hsp hep] at hpos hle ⊢
  unfold SubExact
  unfold cycleQueueItemNum maxQueueItemNum at *
  split_ifs at * <;> omega

/-- For a push queue within the capacity, the index check of `hustmq_sub` lets an index of the ring past
exactly if the filter of the HA module does, and this tells the window `(sp, ep]` exactly under
`SubExact`. -/
theorem subscribe_index_exact {σ : Type} (kv : Kv σ) (conf : MqConf) {queue : Bytes}
    (hname : tbNameCheck queue = true) (s : Mq σ) {q : Queue} (hq : s.queues.get? queue = some q)
    (htype : q.stat.type = .pushqTb) {sp ep idx : Nat} (hwindow : q.window 0 = ⟨sp, ep⟩)
    (hsp : sp < cycleQueueItemNum) (hep : ep < cycleQueueItemNum)
    (hpos : 0 < Ring.dist cycleQueueItemNum sp ep)
    (hle : Ring.dist cycleQueueItemNum sp ep ≤ maxQueueItemNum) (hidx : idx < cycleQueueItemNum) :
    let passes := (s.hustmqSub kv conf queue idx).1 ≠ ⟨.err .EINVAL, sp, ep, []⟩
    (hustmqHaIdxCheck idx sp ep = true ↔ passes) ∧
      ((passes ↔ Ring.Mem cycleQueueItemNum sp ep idx) ↔ SubExact sp ep idx) := by
  intro passes
  have hne : clacRealItem sp ep ≠ 0 := by
    rw [clacRealItem_eq hsp hep hle]
    omega
  have hpasses : passes ↔ 0 < clacRealItem sp idx ∧ 0 < clacRealItem (prevTag idx) ep := by
    have hrefused := Mq.hustmqSub_refused kv conf hname hq htype hidx (by rw [hwindow]; exact hne)
    rw [hwindow] at hrefused
    exact (not_congr hrefused).trans not_not
  constructor
  · rw [hpasses, hustmqHaIdxCheck, hustmqHaGetIdxCycle_eq, hustmqHaGetIdxCycle_eq, hustmqHaGetIdxCycle_eq, if_neg hne]
    split_ifs <;> simp only [false_iff, true_iff] <;> omega
  · rw [hpasses]
    exact passes_iff_mem hsp hep hpos hle hidx

def onePub : Mq (Bytes → Option Body) :=
  (smallMq.server.hustmqPub Kv.memory smallMqConf (ascii "p") (ascii "a") cycleQueueItemNum 100).2

theorem subscribe_index_exact_one_pub :
    ((onePub.hustmqSub Kv.memory smallMqConf (ascii "p") 1).1 ≠ ⟨.err .EINVAL, 0, 1, []⟩ ↔
      Ring.Mem cycleQueueItemNum 0 1 1) :=
  (subscribe_index_exact Kv.memory smallMqConf (by decide) onePub
    (q := (Queue.fresh smallMqConf .pushqTb).setWindow 0 ⟨0, 1⟩) rfl rfl rfl (by decide) (by decide)
    (by decide) (by decide) (by decide)).2.mpr (by decide)

/-- An index beyond the capacity that is not in the window passes both checks. -/
theorem subscribe_passes_outside :
    (onePub.hustmqSub Kv.memory smallMqConf (ascii "p") 5000002).1 = ⟨.err .ENOENT, 0, 0, []⟩ ∧
      hustmqHaIdxCheck 5000002 0 1 = true ∧
      (onePub.queues.get? (ascii "p")).map (·.window 0) = some ⟨0, 1⟩ ∧
      ¬ Ring.Mem cycleQueueItemNum 0 1 5000002 := by
  decide +kernel

end HustStore
