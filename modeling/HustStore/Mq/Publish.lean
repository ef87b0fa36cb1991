import HustStore.Mq.Ledger
import HustStore.Mq.Push

/-!
# The window of a push queue

What a publish leaves of the window and of the bodies. The loop of `hustmq_pub` drops messages at the start of
the window up to the first one it keeps, so that what is left is a window again. Two things can go wrong.
-/

namespace HustStore

variable {σ : Type} {kv : Kv σ} {conf : MqConf} {queue : Bytes}

theorem queueKey_inj {t t' : Nat} (ht : t < cycleQueueItemNum) (ht' : t' < cycleQueueItemNum)
    (h : queueKey queue 0 t = queueKey queue 0 t') : t = t' := by
  unfold cycleQueueItemNum at ht ht'
  rw [queueKey_eq, queueKey_eq] at h
  exact (ackTag_inj (by decide) (by decide) (by omega) (by omega) (tagKey_inj h)).2

def Kv.Unexpired (kv : Kv σ) (queue : Bytes) (now : Nat) (storage : σ) (tag : Nat) : Prop :=
  ((kv.body storage (queueKey queue 0 tag)).any (now < ·.ttl)) = true

instance (now : Nat) (storage : σ) (tag : Nat) : Decidable (kv.Unexpired queue now storage tag) :=
  inferInstanceAs (Decidable (_ = true))

def Kv.Keeps (kv : Kv σ) (queue : Bytes) (idx now : Nat) (storage : σ) (tag : Nat) : Prop :=
  ¬ idxAhead tag idx ∧ kv.Unexpired queue now storage tag

instance (idx now : Nat) (storage : σ) (tag : Nat) : Decidable (kv.Keeps queue idx now storage tag) :=
  inferInstanceAs (Decidable (_ ∧ _))

theorem Kv.unexpired_congr {now tag : Nat} {storage storage' : σ}
    (h : kv.body storage' (queueKey queue 0 tag) = kv.body storage (queueKey queue 0 tag)) :
    kv.Unexpired queue now storage' tag ↔ kv.Unexpired queue now storage tag := by
  rw [Unexpired, Unexpired, h]

/-- A window is what the loop of a publish leaves of the window `(a, b]`: the messages `pre` at its start
are dropped, and the next one is kept. -/
structure Mq.PubLeft (kv : Kv σ) (queue : Bytes) (idx now a b : Nat) (storage : σ) (out : Nat × σ)
    (start : Nat) (pre : List Nat) : Prop where
  start_lt : start < cycleQueueItemNum
  window : Ring.window cycleQueueItemNum a b = pre ++ Ring.window cycleQueueItemNum start b
  dropped : ∀ t ∈ pre, ¬ kv.Keeps queue idx now storage t
  kept : ∀ t, (Ring.window cycleQueueItemNum start b).head? = some t → kv.Keeps queue idx now storage t
  stag : out.1 =
    if (Ring.window cycleQueueItemNum start b).head? = some 0 then 2 ^ 32 - 1 else start
  bodies : ∀ key, kv.body out.2 key = kv.body storage key ∨
    kv.body out.2 key = none ∧ ∃ t ∈ pre, key = queueKey queue 0 t

namespace Mq

variable {idx now a b : Nat} {storage : σ}

theorem PubLeft.cons (ha : a < cycleQueueItemNum) (hb : b < cycleQueueItemNum)
    (hpos : 0 < Ring.dist cycleQueueItemNum a b)
    (hdrop : ¬ kv.Keeps queue idx now storage (nextTag a)) {storage' : σ}
    (hbody : ∀ key, kv.body storage' key = kv.body storage key ∨
      kv.body storage' key = none ∧ key = queueKey queue 0 (nextTag a))
    {out : Nat × σ} {start : Nat} {pre : List Nat}
    (h : PubLeft kv queue idx now (nextTag a) b storage' out start pre) :
    PubLeft kv queue idx now a b storage out start (nextTag a :: pre) := by
  have hwindow : Ring.window cycleQueueItemNum a b = nextTag a :: Ring.window cycleQueueItemNum (nextTag a) b := by
    rw [nextTag_eq ha]
    exact Ring.window_pop ha hb hpos
  have hnodup : (Ring.window cycleQueueItemNum a b).Nodup := Ring.nodup_window ha
  rw [hwindow, List.nodup_cons] at hnodup
  -- The messages that are left have other keys than the one that was dropped.
  have hsame {t : Nat} (ht : t ∈ Ring.window cycleQueueItemNum (nextTag a) b) :
      kv.Keeps queue idx now storage' t ↔ kv.Keeps queue idx now storage t := by
    have hlt := Ring.lt_of_mem_window (nextTag_lt a) ht
    rw [Kv.Keeps, Kv.Keeps, Kv.unexpired_congr]
    rcases hbody (queueKey queue 0 t) with heq | ⟨-, hkey⟩
    · exact heq
    · rw [queueKey_inj hlt (nextTag_lt a) hkey] at ht
      exact absurd ht hnodup.1
  refine ⟨h.start_lt, ?_, fun t ht => ?_, fun t ht => ?_, h.stag, fun key => ?_⟩
  · rw [hwindow, h.window, List.cons_append]
  · rcases List.mem_cons.mp ht with rfl | ht
    · exact hdrop
    · rw [← hsame (by rw [h.window]; exact List.mem_append_left _ ht)]
      exact h.dropped t ht
  · rw [← hsame (by rw [h.window]; exact List.mem_append_right _ (List.mem_of_head? ht))]
    exact h.kept t ht
  · rcases h.bodies key with heq | ⟨hnone, t, ht, hkey⟩
    · rw [heq]
      exact (hbody key).imp id fun ⟨hnone, hkey⟩ => ⟨hnone, _, List.mem_cons_self, hkey⟩
    · exact .inr ⟨hnone, t, List.mem_cons_of_mem _ ht, hkey⟩

theorem step_back (ha : a < cycleQueueItemNum) :
    (nextTag a + 2 ^ 32 - 1) % 2 ^ 32 = if nextTag a = 0 then 2 ^ 32 - 1 else a := by
  have hword : a < 2 ^ 32 := ha.trans (by decide)
  rw [nextTag_eq ha, Ring.next_eq ha]
  by_cases hlast : a + 1 < cycleQueueItemNum
  · have hback : a + 1 + 2 ^ 32 - 1 = a + 2 ^ 32 := by omega
    rw [if_pos hlast, if_neg (Nat.succ_ne_zero a), hback, Nat.add_mod_right, Nat.mod_eq_of_lt hword]
  · rw [if_neg hlast, if_pos rfl]
    norm_num

theorem pubLoop_left (hkv : kv.Lawful) (ha : a < cycleQueueItemNum) (hb : b < cycleQueueItemNum)
    (storage : σ) : ∃ start pre, PubLeft kv queue idx now a b storage
      (pubLoop kv queue idx now (Ring.dist cycleQueueItemNum a b) a storage) start pre := by
  induction hn : Ring.dist cycleQueueItemNum a b generalizing a storage with
  | zero =>
    have hempty : Ring.window cycleQueueItemNum a b = [] := by rw [Ring.window, hn, Ring.places]
    refine ⟨a, [], ha, (List.nil_append _).symm, fun t ht => (List.not_mem_nil ht).elim,
      fun t ht => ?_, ?_, fun key => ?_⟩
    · rw [hempty] at ht
      cases ht
    · rw [hempty, pubLoop, List.head?_nil, if_neg (Option.some_ne_none _).symm]
    · rw [pubLoop]
      exact .inl rfl
  | succ n ih =>
    have hpos : 0 < Ring.dist cycleQueueItemNum a b := by omega
    have hrest : Ring.dist cycleQueueItemNum (nextTag a) b = n := by
      have hstep := Ring.dist_from_next ha hb hpos
      rw [nextTag_eq ha]
      omega
    have hdel (key : Bytes) : kv.body (kv.del storage (queueKey queue 0 (nextTag a))).2 key =
        kv.body storage key ∨ kv.body (kv.del storage (queueKey queue 0 (nextTag a))).2 key = none ∧
          key = queueKey queue 0 (nextTag a) := by
      rw [hkv.del]
      by_cases hkey : key = queueKey queue 0 (nextTag a)
      · exact .inr ⟨if_pos hkey, hkey⟩
      · exact .inl (if_neg hkey)
    rw [pubLoop]
    split_ifs with hahead
    · obtain ⟨start, pre, h⟩ := ih (nextTag_lt a) (kv.del storage (queueKey queue 0 (nextTag a))).2 hrest
      exact ⟨start, _, h.cons ha hb hpos (fun hkeeps => hkeeps.1 hahead) hdel⟩
    · split
      · rename_i e body hget
        have hbody : kv.body storage (queueKey queue 0 (nextTag a)) = none := by rw [Kv.body, hget]
        obtain ⟨start, pre, h⟩ := ih (nextTag_lt a) storage hrest
        refine ⟨start, _, h.cons ha hb hpos (fun hkeeps => ?_) fun key => .inl rfl⟩
        have hsome := hkeeps.2
        rw [Kv.Unexpired, hbody] at hsome
        cases hsome
      · rename_i body hget
        have hbody : kv.body storage (queueKey queue 0 (nextTag a)) = some body := by
          rw [Kv.body, hget]
        have hunexpired : kv.Unexpired queue now storage (nextTag a) ↔ now < body.ttl := by
          rw [Kv.Unexpired, hbody, Option.any_some, decide_eq_true_eq]
        split_ifs with httl
        · obtain ⟨start, pre, h⟩ :=
            ih (nextTag_lt a) (kv.del storage (queueKey queue 0 (nextTag a))).2 hrest
          refine ⟨start, _, h.cons ha hb hpos (fun hkeeps => ?_) hdel⟩
          have hlt := hunexpired.mp hkeeps.2
          omega
        · have hwindow : Ring.window cycleQueueItemNum a b =
              nextTag a :: Ring.window cycleQueueItemNum (nextTag a) b := by
            rw [nextTag_eq ha]
            exact Ring.window_pop ha hb hpos
          refine ⟨a, [], ha, (List.nil_append _).symm, fun t ht => (List.not_mem_nil ht).elim,
            fun t ht => ?_, ?_, fun key => .inl rfl⟩
          · rw [hwindow, List.head?_cons, Option.some.injEq] at ht
            subst ht
            exact ⟨hahead, hunexpired.mpr (by omega)⟩
          · rw [hwindow, List.head?_cons, step_back ha]
            simp only [Option.some.injEq]

/-! ### One publish -/

def pushOf (conf : MqConf) (queue : Bytes) (s : Mq σ) : Queue :=
  (s.queues.get? queue).getD (.fresh conf .pushqTb)

def pushView (conf : MqConf) (queue : Bytes) (s : Mq σ) : View σ :=
  ⟨s.pushOf conf queue, s.storage, s.now⟩

def View.pubLoop (kv : Kv σ) (queue : Bytes) (idx : Nat) (v : View σ) : Nat × σ :=
  Mq.pubLoop kv queue idx v.now (v.queue.ready 0) (v.queue.window 0).sp v.storage

def View.pubWindow (kv : Kv σ) (queue : Bytes) (idx : Nat) (v : View σ) : Window :=
  HustStore.pubWindow (v.pubLoop kv queue idx).1 (v.queue.window 0).ep idx

def View.pubBody (kv : Kv σ) (queue item : Bytes) (idx wttl : Nat) (v : View σ) : Rc × σ :=
  kv.put (v.pubLoop kv queue idx).2 v.now (v.now + wttl) (queueKey queue 0 (v.pubWindow kv queue idx).ep) item

inductive PubCases (kv : Kv σ) (queue : Bytes) (v : View σ) (item : Bytes) (idx wttl : Nat) : Rc → View σ → Prop
  | refused (e : Errno) : PubCases kv queue v item idx wttl (.err e) v
  | failed (e : Errno) (hroom : v.queue.ready 0 < maxQueueItemNum)
      (hput : (v.pubBody kv queue item idx wttl).1 = .err e) :
      PubCases kv queue v item idx wttl (.err e) { v with storage := (v.pubBody kv queue item idx wttl).2 }
  | accepted (hroom : v.queue.ready 0 < maxQueueItemNum) (hput : (v.pubBody kv queue item idx wttl).1 = .ok) :
      PubCases kv queue v item idx wttl .ok
        ⟨v.queue.setWindow 0 (v.pubWindow kv queue idx), (v.pubBody kv queue item idx wttl).2, v.now⟩

variable {s : Mq σ}

theorem pushView_setQueue (q : Queue) : (s.setQueue queue q).pushView conf queue = ⟨q, s.storage, s.now⟩ := by
  simp [pushView, pushOf, setQueue]

theorem pubInto_eq (item : Bytes) (idx wttl : Nat) : s.pubInto kv queue (s.pushOf conf queue) item idx wttl =
      let v := s.pushView conf queue
      if v.queue.stat.lock ∨ (v.queue.stat.max > 0 ∧ v.queue.ready 0 ≥ v.queue.stat.max) ∨
          v.queue.ready 0 ≥ maxQueueItemNum then (.err .EINVAL, s)
      else match v.pubBody kv queue item idx wttl with
        | (.ok, storage) => (.ok, { s with storage }.setQueue queue (v.queue.setWindow 0 (v.pubWindow kv queue idx)))
        | (.err e, storage) => (.err e, { s with storage }) := rfl

theorem pubInto_cases (item : Bytes) (idx wttl : Nat) : PubCases kv queue (s.pushView conf queue) item idx wttl
      (s.pubInto kv queue (s.pushOf conf queue) item idx wttl).1
      ((s.pubInto kv queue (s.pushOf conf queue) item idx wttl).2.pushView conf queue) := by
  rw [pubInto_eq]
  simp only
  split_ifs with hfull
  · exact .refused _
  · have hroom : (s.pushView conf queue).queue.ready 0 < maxQueueItemNum := by
      simp only [not_or] at hfull
      exact Nat.lt_of_not_le hfull.2.2
    rcases hput : (s.pushView conf queue).pubBody kv queue item idx wttl with ⟨_ | e, storage⟩
    · have haccepted : PubCases kv queue (s.pushView conf queue) item idx wttl .ok _ :=
        .accepted hroom (by rw [hput])
      rw [hput] at haccepted
      simp only [pushView_setQueue]
      exact haccepted
    · have hfailed : PubCases kv queue (s.pushView conf queue) item idx wttl (.err e) _ :=
        .failed e hroom (by rw [hput])
      rw [hput] at hfailed
      exact hfailed

theorem pubCases (kv : Kv σ) (htype : (s.pushOf conf queue).stat.type = .pushqTb) (item : Bytes) (idx wttl : Nat) :
    PubCases kv queue (s.pushView conf queue) item idx wttl (s.hustmqPub kv conf queue item idx wttl).1
      ((s.hustmqPub kv conf queue item idx wttl).2.pushView conf queue) := by
  unfold hustmqPub
  split_ifs with hargs hover
  · exact .refused _
  · exact .refused _
  rcases hfind : s.findQueue conf queue true .pushqTb with ⟨found, s'⟩
  obtain ⟨hstorage, hnow, hqueue, hfound⟩ := findQueue_create htype hfind
  have hview : s'.pushView conf queue = s.pushView conf queue := View.ext hqueue hstorage hnow
  rw [← hview]
  cases found with
  | none => exact .refused _
  | some q =>
    have hq : q = s'.pushOf conf queue := (hfound q rfl).trans hqueue.symm
    subst hq
    exact pubInto_cases item idx wttl

def View.KeepsZero (kv : Kv σ) (queue : Bytes) (idx : Nat) (v : View σ) : Prop :=
  (Ring.window cycleQueueItemNum (v.queue.window 0).sp (v.queue.window 0).ep).find?
    (fun tag => kv.Keeps queue idx v.now v.storage tag) = some 0

instance (idx : Nat) (v : View σ) : Decidable (v.KeepsZero kv queue idx) :=
  inferInstanceAs (Decidable (_ = _))

theorem PubLeft.find {out : Nat × σ} {start : Nat} {pre : List Nat}
    (h : PubLeft kv queue idx now a b storage out start pre) :
    (Ring.window cycleQueueItemNum a b).find? (fun tag => kv.Keeps queue idx now storage tag) =
      (Ring.window cycleQueueItemNum start b).head? := by
  have hpre : pre.find? (fun tag => kv.Keeps queue idx now storage tag) = none :=
    List.find?_eq_none.mpr fun t ht => by simpa using h.dropped t ht
  rw [h.window, List.find?_append, hpre, Option.none_or]
  cases hrest : Ring.window cycleQueueItemNum start b with
  | nil => rfl
  | cons t rest =>
    have hkept := h.kept t (by rw [hrest, List.head?_cons])
    rw [List.find?_cons_of_pos (by simpa using hkept), List.head?_cons]

end Mq

/-! ### The window stays a window -/

structure Window.Valid (w : Window) : Prop where
  sp_lt : w.sp < cycleQueueItemNum
  ep_lt : w.ep < cycleQueueItemNum
  count : Ring.dist cycleQueueItemNum w.sp w.ep ≤ maxQueueItemNum

namespace Mq

variable {v : View σ} {idx : Nat}

theorem View.pubLoop_left (hkv : kv.Lawful) (hw : (v.queue.window 0).Valid) (queue : Bytes) (idx : Nat) :
    ∃ start pre, PubLeft kv queue idx v.now (v.queue.window 0).sp (v.queue.window 0).ep v.storage
      (v.pubLoop kv queue idx) start pre := by
  rw [View.pubLoop, Queue.ready, clacRealItem_eq hw.sp_lt hw.ep_lt hw.count]
  exact Mq.pubLoop_left hkv hw.sp_lt hw.ep_lt v.storage

theorem PubLeft.stag_eq {start : Nat} {pre : List Nat}
    (h : PubLeft kv queue idx v.now (v.queue.window 0).sp (v.queue.window 0).ep v.storage
      (v.pubLoop kv queue idx) start pre) (hzero : ¬ v.KeepsZero kv queue idx) :
    (v.pubLoop kv queue idx).1 = start := by
  rw [View.KeepsZero, h.find] at hzero
  rw [h.stag, if_neg hzero]

theorem PubLeft.dist_le {a b now start : Nat} {storage : σ} {out : Nat × σ} {pre : List Nat}
    (h : PubLeft kv queue idx now a b storage out start pre) :
    Ring.dist cycleQueueItemNum start b ≤ Ring.dist cycleQueueItemNum a b := by
  have hlength := congrArg List.length h.window
  rw [List.length_append, Ring.length_window, Ring.length_window] at hlength
  omega

theorem View.pubWindow_valid (hkv : kv.Lawful) (hw : (v.queue.window 0).Valid)
    (hroom : v.queue.ready 0 < maxQueueItemNum) (hzero : ¬ v.KeepsZero kv queue idx) :
    (v.pubWindow kv queue idx).Valid ∧
      0 < Ring.dist cycleQueueItemNum (v.pubWindow kv queue idx).sp (v.pubWindow kv queue idx).ep := by
  obtain ⟨start, pre, hleft⟩ := View.pubLoop_left hkv hw queue idx
  rw [View.pubWindow, hleft.stag_eq hzero, HustStore.pubWindow]
  split_ifs with hahead
  · have hone : Ring.dist cycleQueueItemNum (prevTag idx) idx = 1 := by
      have hprev := prevTag_eq hahead.1
      rw [Ring.dist_eq (prevTag_lt idx) hahead.1, hprev]
      have hidx := hahead.1
      unfold cycleQueueItemNum at hidx ⊢
      split_ifs <;> omega
    refine ⟨⟨prevTag_lt idx, hahead.1, ?_⟩, ?_⟩
    · rw [hone]
      decide
    · rw [hone]
      decide
  · have hle := hleft.dist_le
    rw [Queue.ready, clacRealItem_eq hw.sp_lt hw.ep_lt hw.count] at hroom
    have hnext : Ring.dist cycleQueueItemNum start (nextTag (v.queue.window 0).ep) =
        Ring.dist cycleQueueItemNum start (v.queue.window 0).ep + 1 := by
      rw [nextTag_eq hw.ep_lt]
      exact Ring.dist_next hleft.start_lt hw.ep_lt (Queue.waiting_lt_cycle (hle.trans hw.count))
    refine ⟨⟨hleft.start_lt, nextTag_lt _, ?_⟩, ?_⟩
    · rw [hnext]
      omega
    · rw [hnext]
      exact Nat.succ_pos _

end Mq

inductive PushOp
  | pub (item : Bytes) (idx wttl : Nat)
  | sub (idx : Nat)
  | tick (now : Nat)
  | threshold (exceeded : Bool)
  deriving DecidableEq

namespace PushOp

def step (kv : Kv σ) (conf : MqConf) (queue : Bytes) (s : Mq σ) : PushOp → Mq σ
  | pub item idx wttl => (s.hustmqPub kv conf queue item idx wttl).2
  | sub idx => (s.hustmqSub kv conf queue idx).2
  | tick now => { s with now }
  | threshold exceeded => { s with overThreshold := exceeded }

def AvoidsZero (kv : Kv σ) (conf : MqConf) (queue : Bytes) (s : Mq σ) : PushOp → Prop
  | pub _ idx _ => ¬ (s.pushView conf queue).KeepsZero kv queue idx
  | _ => True

instance (s : Mq σ) : ∀ op : PushOp, Decidable (op.AvoidsZero kv conf queue s)
  | pub _ idx _ => inferInstanceAs (Decidable (¬ (s.pushView conf queue).KeepsZero kv queue idx))
  | sub _ | tick _ | threshold _ => .isTrue trivial

end PushOp

structure Queue.PushValid (q : Queue) : Prop where
  type : q.stat.type = .pushqTb
  window : (q.window 0).Valid

theorem Queue.pushValid_fresh (conf : MqConf) : (fresh conf .pushqTb).PushValid := by
  refine ⟨rfl, cycle_pos, cycle_pos, ?_⟩
  have hempty : Ring.dist cycleQueueItemNum ((fresh conf .pushqTb).window 0).sp
      ((fresh conf .pushqTb).window 0).ep = 0 := Ring.dist_self cycle_pos
  rw [hempty]
  exact Nat.zero_le _

theorem Mq.hustmqSub_queues (s : Mq σ) (idx : Nat) : (s.hustmqSub kv conf queue idx).2.queues = s.queues := by
  unfold hustmqSub
  split_ifs
  · rfl
  rcases s.findQueue_cases conf queue .pushqTb with hfind | hfind
  · rw [hfind]
  · rw [hfind]
    simp only
    split_ifs
    · rfl
    · rfl
    · split
      · rfl
      · split_ifs <;> rfl

theorem Mq.PubCases.pushValid (hkv : kv.Lawful) {v v' : Mq.View σ} {item : Bytes} {idx wttl : Nat}
    {r : Rc} (hcases : Mq.PubCases kv queue v item idx wttl r v') (hq : v.queue.PushValid)
    (hzero : ¬ v.KeepsZero kv queue idx) :
    v'.queue.PushValid ∧ (r = .ok →
      0 < Ring.dist cycleQueueItemNum (v'.queue.window 0).sp (v'.queue.window 0).ep) := by
  cases hcases with
  | refused => exact ⟨hq, fun hr => by cases hr⟩
  | failed => exact ⟨hq, fun hr => by cases hr⟩
  | accepted hroom =>
    obtain ⟨hvalid, hpos⟩ := Mq.View.pubWindow_valid hkv hq.window hroom hzero
    refine ⟨⟨hq.type, ?_⟩, fun _ => ?_⟩
    · rw [Queue.window_setWindow_self]
      exact hvalid
    · rw [Queue.window_setWindow_self]
      exact hpos

theorem PushOp.step_valid (hkv : kv.Lawful) {s : Mq σ} {op : PushOp}
    (hop : op.AvoidsZero kv conf queue s) (hq : (s.pushOf conf queue).PushValid) :
    ((op.step kv conf queue s).pushOf conf queue).PushValid := by
  cases op with
  | pub item idx wttl => exact ((Mq.pubCases kv hq.type item idx wttl).pushValid hkv hq hop).1
  | sub idx =>
    rw [step, Mq.pushOf, Mq.hustmqSub_queues]
    exact hq
  | tick _ => exact hq
  | threshold _ => exact hq

/-- In every run in which no publish keeps the tag 0 as the first of its window, the counters of a push
queue are places of the ring, their window is within the capacity, and `clac_real_item` is its length.
After a publish that returns 0, the window is not empty. -/
theorem publish_window_valid (hkv : kv.Lawful) (conf : MqConf) (queue : Bytes) (s : Mq σ)
    (hnew : s.queues.get? queue = none) (ops : List PushOp)
    (hops : Run.Guarded (PushOp.step kv conf queue) (PushOp.AvoidsZero kv conf queue) s ops) :
    let out := Run.exec (PushOp.step kv conf queue) s ops
    let w := (out.pushOf conf queue).window 0
    (w.sp < cycleQueueItemNum ∧ w.ep < cycleQueueItemNum ∧ Ring.dist cycleQueueItemNum w.sp w.ep ≤ maxQueueItemNum ∧
      clacRealItem w.sp w.ep = Ring.dist cycleQueueItemNum w.sp w.ep) ∧
    ∀ item idx wttl, (PushOp.pub item idx wttl).AvoidsZero kv conf queue out →
      (out.hustmqPub kv conf queue item idx wttl).1 = .ok →
      let w' := ((out.hustmqPub kv conf queue item idx wttl).2.pushOf conf queue).window 0
      w'.sp < cycleQueueItemNum ∧ w'.ep < cycleQueueItemNum ∧
      1 ≤ Ring.dist cycleQueueItemNum w'.sp w'.ep ∧
      Ring.dist cycleQueueItemNum w'.sp w'.ep ≤ maxQueueItemNum ∧
      clacRealItem w'.sp w'.ep = Ring.dist cycleQueueItemNum w'.sp w'.ep := by
  intro out w
  have hout : (out.pushOf conf queue).PushValid := by
    refine hops.invariant (P := fun s => (s.pushOf conf queue).PushValid)
      (fun s op hs hop => PushOp.step_valid hkv hop hs) ?_
    rw [Mq.pushOf, hnew, Option.getD_none]
    exact Queue.pushValid_fresh conf
  have hw := hout.window
  refine ⟨⟨hw.sp_lt, hw.ep_lt, hw.count, clacRealItem_eq hw.sp_lt hw.ep_lt hw.count⟩,
    fun item idx wttl hzero hr => ?_⟩
  intro w'
  obtain ⟨hvalid, hpos⟩ := (Mq.pubCases kv hout.type item idx wttl).pushValid hkv hout hzero
  have hw' := hvalid.window
  exact ⟨hw'.sp_lt, hw'.ep_lt, hpos hr, hw'.count, clacRealItem_eq hw'.sp_lt hw'.ep_lt hw'.count⟩

def pubsAcrossZero : List PushOp :=
  [.pub (ascii "a") (cycleQueueItemNum - 1) 10, .tick 1020, .pub (ascii "b") cycleQueueItemNum 10]

theorem publish_window_valid_across_zero :
    let out := Run.exec (PushOp.step Kv.memory smallMqConf (ascii "p")) smallMq.server pubsAcrossZero
    (out.pushOf smallMqConf (ascii "p")).window 0 = ⟨cycleQueueItemNum - 1, 0⟩ ∧
      clacRealItem (cycleQueueItemNum - 1) 0 = Ring.dist cycleQueueItemNum (cycleQueueItemNum - 1) 0 := by
  have hout := (publish_window_valid Kv.memory_lawful smallMqConf (ascii "p") smallMq.server rfl
    pubsAcrossZero (by decide +kernel)).1.2.2.2
  have hw : ((Run.exec (PushOp.step Kv.memory smallMqConf (ascii "p")) smallMq.server
      pubsAcrossZero).pushOf smallMqConf (ascii "p")).window 0 = ⟨cycleQueueItemNum - 1, 0⟩ := by
    decide +kernel
  rw [hw] at hout
  exact ⟨hw, hout⟩

/-- The next publish keeps the message at 0. Its decrement leaves the ring, and every later publish is
refused. -/
theorem publish_leaves_the_ring :
    let out := Run.exec (PushOp.step Kv.memory smallMqConf (ascii "p")) smallMq.server
      (pubsAcrossZero ++ [.pub (ascii "c") cycleQueueItemNum 10])
    (out.pushOf smallMqConf (ascii "p")).window 0 = ⟨4294967295, 1⟩ ∧
      (out.hustmqPub Kv.memory smallMqConf (ascii "p") (ascii "d") cycleQueueItemNum 10).1 =
        .err .EINVAL := by
  decide +kernel

/-! ### What a publish keeps -/

def KeptBy (kv : Kv σ) (queue : Bytes) (storage storage' : σ) (w : Window) (tag : Nat) : Prop :=
  (w.sp < cycleQueueItemNum ∧ w.ep < cycleQueueItemNum ∧ tag ∈ Ring.window cycleQueueItemNum w.sp w.ep) ∧
  kv.body storage' (queueKey queue 0 tag) = kv.body storage (queueKey queue 0 tag)

structure PubKeeps (kv : Kv σ) (queue : Bytes) (now sp ep idx : Nat) (storage storage' : σ) (r : Rc)
    (w : Window) : Prop where
  all : cycleQueueItemNum ≤ idx → ∀ tag ∈ Ring.window cycleQueueItemNum sp ep,
    kv.Unexpired queue now storage tag → KeptBy kv queue storage storage' w tag
  behind : idx < cycleQueueItemNum → idx ∈ Ring.window cycleQueueItemNum sp ep ∨
      Ring.dist cycleQueueItemNum idx ep ≤ maxQueueItemNum →
    (r = .ok → w.ep = Ring.next cycleQueueItemNum ep) ∧
    ∀ tag ∈ Ring.window cycleQueueItemNum sp ep,
      Ring.dist cycleQueueItemNum idx tag ≤ Ring.dist cycleQueueItemNum idx ep →
      kv.Unexpired queue now storage tag → KeptBy kv queue storage storage' w tag
  rebased : r = .ok → w.ep ≠ Ring.next cycleQueueItemNum ep → idx < cycleQueueItemNum ∧
    1 ≤ Ring.dist cycleQueueItemNum ep idx ∧ Ring.dist cycleQueueItemNum ep idx ≤ maxQueueItemNum

/-- The comparison of the index with the end of the window is right: an index that is greater than the end
is ahead of it by at most the capacity, and one that is smaller is so too if the end is beyond the
capacity. -/
def PubSide (ep idx : Nat) : Prop :=
  idx < cycleQueueItemNum → (ep < idx → idx - ep ≤ maxQueueItemNum) ∧
    (idx < ep → ep ≤ maxQueueItemNum ∨ cycleQueueItemNum - ep + idx ≤ maxQueueItemNum)

instance (ep idx : Nat) : Decidable (PubSide ep idx) := inferInstanceAs (Decidable (_ → _))

section Side

variable {sp ep idx tag : Nat}

theorem idxAhead_iff (htag : tag < cycleQueueItemNum) : idxAhead tag idx ↔
      idx < cycleQueueItemNum ∧ (tag < idx ∨ idx < tag ∧ maxQueueItemNum < tag) := by
  unfold idxAhead
  exact and_congr_right fun hidx => clacRealItem_pos htag hidx

theorem dist_le_of_mem (hsp : sp < cycleQueueItemNum) (hep : ep < cycleQueueItemNum)
    (hcount : Ring.dist cycleQueueItemNum sp ep ≤ maxQueueItemNum)
    (hidx : idx ∈ Ring.window cycleQueueItemNum sp ep) :
    Ring.dist cycleQueueItemNum idx ep ≤ maxQueueItemNum := by
  have hlt := Ring.lt_of_mem_window hsp hidx
  rw [Ring.mem_window hsp hlt, Ring.Mem, Ring.dist_eq hsp hlt, Ring.dist_eq hsp hep] at hidx
  rw [Ring.dist_eq hsp hep] at hcount
  rw [Ring.dist_eq hlt hep]
  unfold cycleQueueItemNum maxQueueItemNum at *
  split_ifs at * <;> omega

theorem PubSide.not_ahead (hside : PubSide ep idx) (hidx : idx < cycleQueueItemNum)
    (hep : ep < cycleQueueItemNum) (hle : Ring.dist cycleQueueItemNum idx ep ≤ maxQueueItemNum)
    (htag : tag < cycleQueueItemNum)
    (hafter : Ring.dist cycleQueueItemNum idx tag ≤ Ring.dist cycleQueueItemNum idx ep) :
    ¬ idxAhead tag idx := by
  have hside := hside hidx
  rw [idxAhead_iff htag]
  rw [Ring.dist_eq hidx hep] at hle hafter
  rw [Ring.dist_eq hidx htag] at hafter
  unfold cycleQueueItemNum maxQueueItemNum at *
  split_ifs at * <;> omega

theorem PubSide.ahead (hside : PubSide ep idx) (hep : ep < cycleQueueItemNum) (hahead : idxAhead ep idx) :
    1 ≤ Ring.dist cycleQueueItemNum ep idx ∧ Ring.dist cycleQueueItemNum ep idx ≤ maxQueueItemNum := by
  have hside := hside hahead.1
  obtain ⟨hidx, hahead⟩ := (idxAhead_iff hep).mp hahead
  rw [Ring.dist_eq hep hidx]
  unfold cycleQueueItemNum maxQueueItemNum at *
  split_ifs at * <;> omega

theorem ahead_of_not_pubSide (hside : ¬ PubSide ep idx) (hep : ep < cycleQueueItemNum) :
    idxAhead ep idx ∧ maxQueueItemNum < Ring.dist cycleQueueItemNum ep idx := by
  unfold PubSide at hside
  push Not at hside
  obtain ⟨hidx, hside⟩ := hside
  rw [idxAhead_iff hep, Ring.dist_eq hep hidx]
  unfold cycleQueueItemNum maxQueueItemNum at *
  split_ifs at * <;> omega

end Side

namespace Mq

variable {v v' : View σ} {idx wttl tag : Nat} {item : Bytes} {r : Rc}

theorem PubLeft.keeps {a b now start : Nat} {storage : σ} {out : Nat × σ} {pre : List Nat}
    (h : PubLeft kv queue idx now a b storage out start pre) (ha : a < cycleQueueItemNum)
    (htag : tag ∈ Ring.window cycleQueueItemNum a b) (hkeeps : kv.Keeps queue idx now storage tag) :
    tag ∈ Ring.window cycleQueueItemNum start b ∧
      kv.body out.2 (queueKey queue 0 tag) = kv.body storage (queueKey queue 0 tag) := by
  have hpre : tag ∉ pre := fun hmem => h.dropped tag hmem hkeeps
  have hlt {t : Nat} (ht : t ∈ Ring.window cycleQueueItemNum a b) : t < cycleQueueItemNum :=
    Ring.lt_of_mem_window ha ht
  constructor
  · rw [h.window, List.mem_append] at htag
    exact htag.resolve_left hpre
  · rcases h.bodies (queueKey queue 0 tag) with hsame | ⟨-, t, ht, hkey⟩
    · exact hsame
    · have hmem : t ∈ Ring.window cycleQueueItemNum a b := by
        rw [h.window]
        exact List.mem_append_left _ ht
      rw [queueKey_inj (hlt htag) (hlt hmem) hkey] at hpre
      exact absurd ht hpre

theorem View.failed_keeps (hkv : kv.Lawful) (hw : (v.queue.window 0).Valid)
    (hput : (v.pubBody kv queue item idx wttl).1 ≠ .ok)
    (htag : tag ∈ Ring.window cycleQueueItemNum (v.queue.window 0).sp (v.queue.window 0).ep)
    (hkeeps : kv.Keeps queue idx v.now v.storage tag) :
    KeptBy kv queue v.storage (v.pubBody kv queue item idx wttl).2 (v.queue.window 0) tag := by
  obtain ⟨start, pre, hleft⟩ := View.pubLoop_left hkv hw queue idx
  refine ⟨⟨hw.sp_lt, hw.ep_lt, htag⟩, ?_⟩
  rw [View.pubBody, hkv.put_err _ _ _ _ _ hput]
  exact (hleft.keeps hw.sp_lt htag hkeeps).2

theorem View.accepted_keeps (hkv : kv.Lawful) (hw : (v.queue.window 0).Valid)
    (hput : (v.pubBody kv queue item idx wttl).1 = .ok) (hzero : ¬ v.KeepsZero kv queue idx)
    (hahead : ¬ idxAhead (v.queue.window 0).ep idx)
    (htag : tag ∈ Ring.window cycleQueueItemNum (v.queue.window 0).sp (v.queue.window 0).ep)
    (hkeeps : kv.Keeps queue idx v.now v.storage tag) :
    KeptBy kv queue v.storage (v.pubBody kv queue item idx wttl).2 (v.pubWindow kv queue idx) tag := by
  obtain ⟨start, pre, hleft⟩ := View.pubLoop_left hkv hw queue idx
  obtain ⟨hmem, hbody⟩ := hleft.keeps hw.sp_lt htag hkeeps
  have hwindow : v.pubWindow kv queue idx = ⟨start, nextTag (v.queue.window 0).ep⟩ := by
    rw [View.pubWindow, HustStore.pubWindow, if_neg hahead, hleft.stag_eq hzero]
  have hpush : Ring.window cycleQueueItemNum start (nextTag (v.queue.window 0).ep) =
      Ring.window cycleQueueItemNum start (v.queue.window 0).ep ++ [nextTag (v.queue.window 0).ep] := by
    rw [nextTag_eq hw.ep_lt]
    exact Ring.window_push hleft.start_lt hw.ep_lt (Queue.waiting_lt_cycle (hleft.dist_le.trans hw.count))
  have hne : tag ≠ nextTag (v.queue.window 0).ep := by
    have hnodup : (Ring.window cycleQueueItemNum start (nextTag (v.queue.window 0).ep)).Nodup :=
      Ring.nodup_window hleft.start_lt
    rw [hpush, List.nodup_append] at hnodup
    exact hnodup.2.2 tag hmem _ (List.mem_singleton_self _)
  have hlt := Ring.lt_of_mem_window hw.sp_lt htag
  refine ⟨?_, ?_⟩
  · rw [hwindow]
    refine ⟨hleft.start_lt, nextTag_lt _, ?_⟩
    rw [hpush]
    exact List.mem_append_left _ hmem
  · have hother : queueKey queue 0 tag ≠ queueKey queue 0 (v.pubWindow kv queue idx).ep := by
      rw [hwindow]
      exact fun hkey => hne (queueKey_inj hlt (nextTag_lt _) hkey)
    rw [View.pubBody, hkv.put_ok _ _ _ _ _ hput, if_neg hother]
    exact hbody

def View.PubExact (kv : Kv σ) (queue : Bytes) (idx : Nat) (v : View σ) : Prop :=
  PubSide (v.queue.window 0).ep idx ∧ ¬ v.KeepsZero kv queue idx

instance (idx : Nat) (v : View σ) : Decidable (v.PubExact kv queue idx) :=
  inferInstanceAs (Decidable (_ ∧ _))

theorem PubCases.keeps (hkv : kv.Lawful) (hcases : PubCases kv queue v item idx wttl r v')
    (hw : (v.queue.window 0).Valid) (hexact : v.PubExact kv queue idx) :
    PubKeeps kv queue v.now (v.queue.window 0).sp (v.queue.window 0).ep idx v.storage v'.storage r
      (v'.queue.window 0) := by
  obtain ⟨hside, hzero⟩ := hexact
  have hnone (hidx : cycleQueueItemNum ≤ idx) (t : Nat) : ¬ idxAhead t idx := fun hahead =>
    absurd hahead.1 (Nat.not_lt.mpr hidx)
  have hbehind (hidx : idx < cycleQueueItemNum)
      (hwhere : idx ∈ Ring.window cycleQueueItemNum (v.queue.window 0).sp (v.queue.window 0).ep ∨
        Ring.dist cycleQueueItemNum idx (v.queue.window 0).ep ≤ maxQueueItemNum) {t : Nat}
      (ht : t < cycleQueueItemNum) (hafter : Ring.dist cycleQueueItemNum idx t ≤
        Ring.dist cycleQueueItemNum idx (v.queue.window 0).ep) : ¬ idxAhead t idx := by
    have hle := hwhere.elim (dist_le_of_mem hw.sp_lt hw.ep_lt hw.count) id
    exact hside.not_ahead hidx hw.ep_lt hle ht hafter
  have hlt {t : Nat} (ht : t ∈ Ring.window cycleQueueItemNum (v.queue.window 0).sp
      (v.queue.window 0).ep) : t < cycleQueueItemNum := Ring.lt_of_mem_window hw.sp_lt ht
  cases hcases with
  | refused =>
    exact ⟨fun _ t ht _ => ⟨⟨hw.sp_lt, hw.ep_lt, ht⟩, rfl⟩,
      fun _ _ => ⟨fun hr => (by cases hr), fun t ht _ _ => ⟨⟨hw.sp_lt, hw.ep_lt, ht⟩, rfl⟩⟩,
      fun hr => (by cases hr)⟩
  | failed e hroom hput =>
    have hne : (v.pubBody kv queue item idx wttl).1 ≠ .ok := by
      rw [hput]
      simp
    refine ⟨fun hidx t ht hunexpired => ?_, fun hidx hwhere => ⟨fun hr => (by cases hr), ?_⟩, fun hr => (by cases hr)⟩
    · exact View.failed_keeps hkv hw hne ht ⟨hnone hidx t, hunexpired⟩
    · intro t ht hafter hunexpired
      exact View.failed_keeps hkv hw hne ht ⟨hbehind hidx hwhere (hlt ht) hafter, hunexpired⟩
  | accepted hroom hput =>
    rw [Queue.window_setWindow_self]
    have hend (hahead : ¬ idxAhead (v.queue.window 0).ep idx) :
        (v.pubWindow kv queue idx).ep = Ring.next cycleQueueItemNum (v.queue.window 0).ep := by
      rw [View.pubWindow, HustStore.pubWindow, if_neg hahead]
      exact nextTag_eq hw.ep_lt
    refine ⟨fun hidx t ht hunexpired => ?_, fun hidx hwhere => ?_, fun _ hne => ?_⟩
    · exact View.accepted_keeps hkv hw hput hzero (hnone hidx _) ht ⟨hnone hidx t, hunexpired⟩
    · have hnot := hbehind hidx hwhere hw.ep_lt (Nat.le_refl _)
      refine ⟨fun _ => hend hnot, fun t ht hafter hunexpired => ?_⟩
      exact View.accepted_keeps hkv hw hput hzero hnot ht ⟨hbehind hidx hwhere (hlt ht) hafter, hunexpired⟩
    · have hahead : idxAhead (v.queue.window 0).ep idx := not_not.mp fun hnot => hne (hend hnot)
      exact ⟨hahead.1, hside.ahead hw.ep_lt hahead⟩

theorem View.zero_not_kept (hkv : kv.Lawful) (hw : (v.queue.window 0).Valid)
    (hzero : v.KeepsZero kv queue idx) (hahead : ¬ idxAhead (v.queue.window 0).ep idx)
    (storage' : σ) : ¬ KeptBy kv queue v.storage storage' (v.pubWindow kv queue idx) 0 := by
  obtain ⟨start, pre, hleft⟩ := View.pubLoop_left hkv hw queue idx
  rw [View.KeepsZero, hleft.find] at hzero
  rintro ⟨⟨hsp, -⟩, -⟩
  rw [View.pubWindow, HustStore.pubWindow, if_neg hahead, hleft.stag, if_pos hzero] at hsp
  exact Nat.not_lt.mpr (show cycleQueueItemNum ≤ 2 ^ 32 - 1 by decide) hsp

theorem PubCases.exact_of_keeps (hkv : kv.Lawful)
    (hcases : PubCases kv queue v item idx wttl .ok v') (hw : (v.queue.window 0).Valid)
    (hkeeps : PubKeeps kv queue v.now (v.queue.window 0).sp (v.queue.window 0).ep idx v.storage
      v'.storage .ok (v'.queue.window 0)) : v.PubExact kv queue idx := by
  cases hcases with
  | accepted hroom hput =>
    rw [Queue.window_setWindow_self] at hkeeps
    refine ⟨?_, fun hzero => ?_⟩
    · by_contra hside
      obtain ⟨hahead, hfar⟩ := ahead_of_not_pubSide hside hw.ep_lt
      have hend : (v.pubWindow kv queue idx).ep = idx := by
        rw [View.pubWindow, HustStore.pubWindow, if_pos hahead]
      have hne : (v.pubWindow kv queue idx).ep ≠ Ring.next cycleQueueItemNum (v.queue.window 0).ep := by
        intro heq
        rw [← hend, heq, Ring.dist_next hw.ep_lt hw.ep_lt (by
          rw [Ring.dist_self hw.ep_lt]
          decide), Ring.dist_self hw.ep_lt] at hfar
        exact absurd hfar (by decide)
      exact absurd (hkeeps.rebased rfl hne).2.2 (Nat.not_le.mpr hfar)
    · -- The message at 0 is in the window, and it is not before the index.
      have hfound := List.find?_some hzero
      have hmem := List.mem_of_find?_eq_some hzero
      obtain ⟨hbefore, hunexpired⟩ : kv.Keeps queue idx v.now v.storage 0 := by simpa using hfound
      have hdist : (v.queue.window 0).ep ≤ maxQueueItemNum := by
        have hle := dist_le_of_mem hw.sp_lt hw.ep_lt hw.count hmem
        rwa [Ring.dist_eq cycle_pos hw.ep_lt, if_pos (Nat.zero_le _), Nat.sub_zero] at hle
      by_cases hidx : idx < cycleQueueItemNum
      · have hzeroIdx : idx = 0 := by
          rw [idxAhead_iff cycle_pos] at hbefore
          omega
        subst hzeroIdx
        have hahead : ¬ idxAhead (v.queue.window 0).ep 0 := by
          rw [idxAhead_iff hw.ep_lt]
          omega
        refine View.zero_not_kept hkv hw hzero hahead _ ((hkeeps.behind hidx (.inl hmem)).2 0 hmem ?_ hunexpired)
        rw [Ring.dist_self cycle_pos]
        exact Nat.zero_le _
      · have hahead : ¬ idxAhead (v.queue.window 0).ep idx := fun hahead => hidx hahead.1
        exact View.zero_not_kept hkv hw hzero hahead _ (hkeeps.all (Nat.le_of_not_lt hidx) 0 hmem hunexpired)

end Mq

/-- From a valid window, a publish keeps what it is to keep if it is exact, and a publish that returns 0
keeps it only then. -/
theorem publish_keeps_unexpired (hkv : kv.Lawful) (conf : MqConf) (queue : Bytes) (s : Mq σ)
    (htype : (s.pushOf conf queue).stat.type = .pushqTb) {sp ep : Nat}
    (hwindow : (s.pushOf conf queue).window 0 = ⟨sp, ep⟩) (hsp : sp < cycleQueueItemNum)
    (hep : ep < cycleQueueItemNum) (hcount : Ring.dist cycleQueueItemNum sp ep ≤ maxQueueItemNum)
    (item : Bytes) (idx wttl : Nat) :
    let out := s.hustmqPub kv conf queue item idx wttl
    let keeps := PubKeeps kv queue s.now sp ep idx s.storage out.2.storage out.1
      ((out.2.pushOf conf queue).window 0)
    ((s.pushView conf queue).PubExact kv queue idx → keeps) ∧
      (out.1 = .ok → (keeps ↔ (s.pushView conf queue).PubExact kv queue idx)) := by
  intro out keeps
  have hw : ((s.pushView conf queue).queue.window 0).Valid := by
    change ((s.pushOf conf queue).window 0).Valid
    rw [hwindow]
    exact ⟨hsp, hep, hcount⟩
  have hcases := Mq.pubCases kv htype item idx wttl
  have hkeeps (hexact : (s.pushView conf queue).PubExact kv queue idx) : keeps := by
    have hall := hcases.keeps hkv hw hexact
    change PubKeeps kv queue s.now ((s.pushOf conf queue).window 0).sp
      ((s.pushOf conf queue).window 0).ep idx s.storage out.2.storage out.1
      ((out.2.pushOf conf queue).window 0) at hall
    rwa [hwindow] at hall
  refine ⟨hkeeps, fun hr => ⟨fun hall => ?_, hkeeps⟩⟩
  have hok : out.1 = .ok := hr
  simp only [keeps, hok] at hall
  change Mq.PubCases kv queue (s.pushView conf queue) item idx wttl out.1 (out.2.pushView conf queue) at hcases
  rw [hok] at hcases
  refine hcases.exact_of_keeps hkv hw ?_
  change PubKeeps kv queue s.now ((s.pushOf conf queue).window 0).sp
    ((s.pushOf conf queue).window 0).ep idx s.storage out.2.storage .ok
    ((out.2.pushOf conf queue).window 0)
  rw [hwindow]
  exact hall

theorem publish_keeps_unexpired_one_pub :
    let out := onePub.hustmqPub Kv.memory smallMqConf (ascii "p") (ascii "b") 1 100
    PubKeeps Kv.memory (ascii "p") 1000 0 1 1 onePub.storage out.2.storage out.1
      ((out.2.pushOf smallMqConf (ascii "p")).window 0) :=
  (publish_keeps_unexpired Kv.memory_lawful smallMqConf (ascii "p") onePub rfl rfl (by decide)
    (by decide) (by decide) (ascii "b") 1 100).1 (by decide +kernel)

def pubsBeyondCapacity : List PushOp :=
  [.pub (ascii "a") 4000000 100, .pub (ascii "b") 5999999 100, .pub (ascii "c") cycleQueueItemNum 100]

/-- The next publisher names an index in the window. Its index counts as lying ahead of the end, and the
unexpired message at 6000000 is given up. -/
theorem publish_gives_up_the_window :
    let s := Run.exec (PushOp.step Kv.memory smallMqConf (ascii "p")) smallMq.server pubsBeyondCapacity
    let out := s.hustmqPub Kv.memory smallMqConf (ascii "p") (ascii "d") 5999999 100
    (s.pushOf smallMqConf (ascii "p")).window 0 = ⟨5999998, 6000000⟩ ∧
      5999999 ∈ Ring.window cycleQueueItemNum 5999998 6000000 ∧
      Kv.memory.Unexpired (ascii "p") s.now s.storage 6000000 ∧
      out.1 = .ok ∧ (out.2.pushOf smallMqConf (ascii "p")).window 0 = ⟨5999998, 5999999⟩ := by
  decide +kernel

end HustStore
