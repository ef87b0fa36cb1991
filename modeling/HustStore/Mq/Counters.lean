import HustStore.Mq.Step

/-!
# The counters of a queue

A window of tags is decoded from two counters by a comparison with the capacity.
-/

namespace HustStore

/-! ### Arithmetic of the tags -/

theorem nextTag_eq {t : Nat} (h : t < cycleQueueItemNum) : nextTag t = Ring.next cycleQueueItemNum t := by
  have hword : t + 1 < 2 ^ 32 := by
    unfold cycleQueueItemNum at h
    omega
  rw [nextTag, Ring.next, Nat.mod_eq_of_lt hword]

theorem cycle_pos : 0 < cycleQueueItemNum := by decide

theorem nextTag_lt (t : Nat) : nextTag t < cycleQueueItemNum := Nat.mod_lt _ cycle_pos

theorem clacRealItem_eq {sp ep : Nat} (hsp : sp < cycleQueueItemNum) (hep : ep < cycleQueueItemNum)
    (h : Ring.dist cycleQueueItemNum sp ep ≤ maxQueueItemNum) :
    clacRealItem sp ep = Ring.dist cycleQueueItemNum sp ep := by
  rw [Ring.dist_eq hsp hep] at h ⊢
  unfold clacRealItem
  unfold cycleQueueItemNum maxQueueItemNum at *
  split_ifs at h ⊢ <;> omega

def total (f : Fin 3 → Nat) : Nat := f 0 + f 1 + f 2

theorem le_total (f : Fin 3 → Nat) (p : Fin 3) : f p ≤ total f := by
  obtain rfl | rfl | rfl : p = 0 ∨ p = 1 ∨ p = 2 := by omega
  all_goals
    unfold total
    omega

theorem total_assign (f : Fin 3 → Nat) (p : Fin 3) (n : Nat) : total (assign f p n) + f p = total f + n := by
  obtain rfl | rfl | rfl : p = 0 ∨ p = 1 ∨ p = 2 := by omega
  all_goals
    simp [total, assign]
    omega

namespace Queue

variable {q : Queue} {p : Fin 3}

def waiting (q : Queue) (p : Fin 3) : Nat :=
  Ring.dist cycleQueueItemNum (q.window p).sp (q.window p).ep

def tags (q : Queue) (p : Fin 3) : List Nat :=
  Ring.window cycleQueueItemNum (q.window p).sp (q.window p).ep

structure Valid (q : Queue) : Prop where
  type : q.stat.type = .queueTb
  sp_lt : ∀ p, (q.window p).sp < cycleQueueItemNum
  ep_lt : ∀ p, (q.window p).ep < cycleQueueItemNum
  count : total q.waiting ≤ maxQueueItemNum

theorem waiting_lt_cycle {n : Nat} (h : n ≤ maxQueueItemNum) : n + 1 < cycleQueueItemNum := by
  unfold maxQueueItemNum at h
  unfold cycleQueueItemNum
  omega

theorem length_tags (q : Queue) (p : Fin 3) : (q.tags p).length = q.waiting p := Ring.length_window

theorem window_setWindow (q : Queue) (p p' : Fin 3) (w : Window) :
    (q.setWindow p w).window p' = if p' = p then w else q.window p' := rfl

theorem window_setWindow_self (q : Queue) (p : Fin 3) (w : Window) : (q.setWindow p w).window p = w := if_pos rfl

theorem window_setWindow_of_ne {p' : Fin 3} (h : p' ≠ p) (q : Queue) (w : Window) :
    (q.setWindow p w).window p' = q.window p' := if_neg h

theorem valid_fresh (conf : MqConf) : (fresh conf .queueTb).Valid where
  type := rfl
  sp_lt _ := cycle_pos
  ep_lt _ := cycle_pos
  count := by
    have hempty : (fresh conf .queueTb).waiting = fun _ => 0 := funext fun _ => Ring.dist_self cycle_pos
    rw [hempty]
    exact Nat.zero_le _

theorem waiting_setWindow (q : Queue) (p : Fin 3) (sp ep : Nat) :
    (q.setWindow p ⟨sp, ep⟩).waiting = assign q.waiting p (Ring.dist cycleQueueItemNum sp ep) := by
  funext p'
  by_cases h : p' = p
  · rw [h, assign_self, waiting, window_setWindow_self]
  · rw [assign_of_ne h, waiting, window_setWindow_of_ne h, waiting]

section

variable (hq : q.Valid)
include hq

theorem Valid.setWindow {sp ep : Nat} (hsp : sp < cycleQueueItemNum) (hep : ep < cycleQueueItemNum)
    (hcount : total q.waiting + Ring.dist cycleQueueItemNum sp ep ≤
      maxQueueItemNum + q.waiting p) : (q.setWindow p ⟨sp, ep⟩).Valid where
  type := hq.type
  sp_lt p' := by
    rw [window_setWindow]
    split
    · exact hsp
    · exact hq.sp_lt p'
  ep_lt p' := by
    rw [window_setWindow]
    split
    · exact hep
    · exact hq.ep_lt p'
  count := by
    rw [waiting_setWindow]
    have htotal := total_assign q.waiting p (Ring.dist cycleQueueItemNum sp ep)
    omega

theorem Valid.waiting_le (p : Fin 3) : q.waiting p ≤ maxQueueItemNum :=
  (le_total q.waiting p).trans hq.count

theorem Valid.ready_eq (p : Fin 3) : q.ready p = q.waiting p :=
  clacRealItem_eq (hq.sp_lt p) (hq.ep_lt p) (hq.waiting_le p)

theorem Valid.real_eq : q.real = total q.waiting := by
  have hcount := hq.count
  rw [real, hq.ready_eq, hq.ready_eq, hq.ready_eq]
  unfold total maxQueueItemNum at *
  omega

theorem Valid.tags_push (p : Fin 3) : (q.push p).tags p = q.tags p ++ [nextTag (q.window p).ep] := by
  have hle := hq.waiting_le p
  rw [tags, push, window_setWindow_self, nextTag_eq (hq.ep_lt p)]
  exact Ring.window_push (hq.sp_lt p) (hq.ep_lt p) (waiting_lt_cycle hle)

theorem Valid.push (hroom : q.full = false) (p : Fin 3) : (q.push p).Valid := by
  have hreal : q.real < maxQueueItemNum := by
    simp only [full, Bool.or_eq_false_iff, decide_eq_false_iff_not] at hroom
    omega
  have hle := hq.waiting_le p
  refine hq.setWindow (hq.sp_lt p) (nextTag_lt _) ?_
  rw [nextTag_eq (hq.ep_lt p), Ring.dist_next (hq.sp_lt p) (hq.ep_lt p) (waiting_lt_cycle hle), ← waiting]
  rw [hq.real_eq] at hreal
  omega

theorem Valid.tags_pop (hready : 0 < q.ready p) : q.tags p = nextTag (q.window p).sp :: (q.pop p).tags p := by
  rw [hq.ready_eq] at hready
  rw [tags, tags, pop, window_setWindow_self, nextTag_eq (hq.sp_lt p)]
  exact Ring.window_pop (hq.sp_lt p) (hq.ep_lt p) hready

theorem Valid.pop (hready : 0 < q.ready p) : (q.pop p).Valid := by
  rw [hq.ready_eq] at hready
  refine hq.setWindow (nextTag_lt _) (hq.ep_lt p) ?_
  have hstep : q.waiting p = _ := Ring.dist_from_next (hq.sp_lt p) (hq.ep_lt p) hready
  have hcount := hq.count
  rw [nextTag_eq (hq.sp_lt p)]
  omega

theorem Valid.reset (p : Fin 3) : (q.setWindow p ⟨0, 0⟩).Valid := by
  refine hq.setWindow cycle_pos cycle_pos ?_
  have hcount := hq.count
  rw [Ring.dist_self cycle_pos]
  omega

end

theorem highest_some (h : q.highest = some p) : 0 < q.ready p ∧ ∀ p' > p, q.ready p' = 0 := by
  unfold highest at h
  split_ifs at h with h2 h1 h0 <;> cases h
  · exact ⟨h2, fun p' hp' => absurd hp' (by omega)⟩
  · refine ⟨h1, fun p' hp' => ?_⟩
    obtain rfl : p' = 2 := by omega
    omega
  · refine ⟨h0, fun p' hp' => ?_⟩
    obtain rfl | rfl : p' = 1 ∨ p' = 2 := by omega
    · omega
    · omega

theorem take_cases {now : Nat} {tag : Bytes} {q' : Queue} (h : q.take now = some (tag, q')) :
    (q.due now = some tag ∧ q' = { q with redelivery := q.redelivery.tail }) ∨
    ∃ p, q.due now = none ∧ q.highest = some p ∧ tag = ackTag p (nextTag (q.window p).sp) ∧ q' = q.pop p := by
  unfold take at h
  cases hdue : q.due now with
  | some tag' =>
    simp only [hdue, Option.some.injEq, Prod.mk.injEq] at h
    obtain ⟨rfl, rfl⟩ := h
    exact .inl ⟨rfl, rfl⟩
  | none =>
    simp only [hdue, Option.map_eq_some_iff, Prod.mk.injEq] at h
    obtain ⟨p, hp, rfl, rfl⟩ := h
    exact .inr ⟨p, rfl, hp, rfl, rfl⟩

theorem Valid.congr (hq : q.Valid) {q' : Queue} (hwindow : q'.stat.window = q.stat.window)
    (htype : q'.stat.type = q.stat.type) : q'.Valid := by
  have hsame (p : Fin 3) : q'.window p = q.window p := congrFun hwindow p
  refine ⟨htype.trans hq.type, fun p => ?_, fun p => ?_, ?_⟩
  · rw [hsame]
    exact hq.sp_lt p
  · rw [hsame]
    exact hq.ep_lt p
  · have hwaiting : q'.waiting = q.waiting := by
      funext p
      rw [waiting, waiting, hsame]
    rw [hwaiting]
    exact hq.count

theorem Valid.take (hq : q.Valid) {now : Nat} {tag : Bytes} {q' : Queue}
    (h : q.take now = some (tag, q')) : q'.Valid := by
  rcases take_cases h with ⟨-, rfl⟩ | ⟨p, -, hp, -, rfl⟩
  · exact hq.congr rfl rfl
  · exact hq.pop (highest_some hp).1

end Queue

/-! ### The invariant along runs -/

variable {σ : Type} {kv : Kv σ} {conf : MqConf} {queue : Bytes}

variable {pending pending' : List Bytes}

theorem MqOp.Cases.valid {v v' : Mq.View σ} {op : MqOp}
    {reply : MqReply} (h : MqOp.Cases kv conf queue v pending op reply v' pending')
    (hv : v.queue.Valid) : v'.queue.Valid := by
  cases h with
  | put h => cases h with
    | refused => exact hv
    | failed => exact hv
    | accepted p _ _ hroom => exact hv.push hroom p
  | get h => cases h with
    | idle => exact hv
    | failed _ _ _ _ htake => exact hv.take htake
    | done _ _ _ _ htake => exact hv.take htake
    | delivered _ _ _ _ htake => exact (hv.take htake).congr rfl rfl
  | notAcked => exact hv
  | acked => exact hv.congr rfl rfl
  | finish => exact hv
  | idle => exact hv
  | purge h => cases h with
    | idle => exact hv
    | removed => exact Queue.valid_fresh conf
    | emptied p => exact hv.reset p
  | set _ h => exact hv.congr h.window h.type
  | tick => exact hv
  | threshold => exact hv

theorem valid_run {s : MqRun σ} (hs : (s.server.queueOf conf queue).Valid) (ops : List MqOp) :
    ((Run.exec (MqOp.step kv conf queue) s ops).server.queueOf conf queue).Valid := by
  have hguard : Run.Guarded (MqOp.step kv conf queue) (fun _ _ => True) s ops :=
    Run.guarded_of_forall fun _ _ => trivial
  exact hguard.invariant (P := fun s => (s.server.queueOf conf queue).Valid)
    (fun s op hs _ => (MqOp.cases s hs.type op).valid hs) hs

theorem queueOf_new {s : Mq σ} (h : s.queues.get? queue = none) : s.queueOf conf queue = .fresh conf .queueTb := by
  rw [Mq.queueOf, h, Option.getD_none]

/-! ### What the counters count -/

theorem tagKey_ne_nil (queue tag : Bytes) : tagKey queue tag ≠ [] := by
  simp [tagKey, ascii]

structure Deliveries where
  puts : Fin 3 → List Nat
  firsts : Fin 3 → List Nat

def firstDelivery (v : Mq.View σ) (reply : Mq.GetReply) : Option (Fin 3 × Nat) :=
  if reply.ack = [] ∨ (v.queue.due v.now).isSome then none
  else v.queue.highest.map fun p => (p, nextTag (v.queue.window p).sp)

namespace Deliveries

def empty : Deliveries := ⟨fun _ => [], fun _ => []⟩

def putOne (d : Deliveries) (p : Fin 3) (tag : Nat) : Deliveries :=
  { d with puts := assign d.puts p (d.puts p ++ [tag]) }

def firstOne (d : Deliveries) (p : Fin 3) (tag : Nat) : Deliveries :=
  { d with firsts := assign d.firsts p (d.firsts p ++ [tag]) }

def record (d : Deliveries) (v : Mq.View σ) : MqOp → MqReply → Deliveries
  | .put _ priori, .rc .ok =>
    if h : priori < 3 then d.putOne ⟨priori, h⟩ (nextTag (v.queue.window ⟨priori, h⟩).ep) else d
  | .get _ _, .message reply => match firstDelivery v reply with
    | some (p, tag) => d.firstOne p tag
    | none => d
  | _, _ => d

def step (kv : Kv σ) (conf : MqConf) (queue : Bytes) (s : MqRun σ × Deliveries) (op : MqOp) :
    MqRun σ × Deliveries :=
  (op.step kv conf queue s.1, s.2.record (s.1.server.view conf queue) op (op.call kv conf queue s.1).1)

def Tracks (d : Deliveries) (q : Queue) : Prop := q.Valid ∧ ∀ p, d.puts p = d.firsts p ++ q.tags p

variable {d : Deliveries} {q : Queue}

theorem Tracks.congr (h : d.Tracks q) {q' : Queue} (hwindow : q'.stat.window = q.stat.window)
    (htype : q'.stat.type = q.stat.type) : d.Tracks q' := by
  refine ⟨h.1.congr hwindow htype, fun p => ?_⟩
  have hsame : q'.tags p = q.tags p := by rw [Queue.tags, Queue.tags, Queue.window, hwindow]; rfl
  rw [hsame]
  exact h.2 p

theorem Tracks.putOne (h : d.Tracks q) (hroom : q.full = false) (p : Fin 3) :
    (d.putOne p (nextTag (q.window p).ep)).Tracks (q.push p) := by
  refine ⟨h.1.push hroom p, fun p' => ?_⟩
  by_cases hp : p' = p
  · subst hp
    have hfirsts : (d.putOne p' (nextTag (q.window p').ep)).firsts p' = d.firsts p' := rfl
    rw [h.1.tags_push, hfirsts, ← List.append_assoc, ← h.2 p']
    exact assign_self _
  · have hsame : (q.push p).tags p' = q.tags p' := by
      rw [Queue.tags, Queue.push, Queue.window_setWindow_of_ne hp, ← Queue.tags]
    rw [hsame]
    exact (assign_of_ne hp _).trans (h.2 p')

theorem Tracks.firstOne (h : d.Tracks q) {p : Fin 3} (hready : 0 < q.ready p) :
    (d.firstOne p (nextTag (q.window p).sp)).Tracks (q.pop p) := by
  refine ⟨h.1.pop hready, fun p' => ?_⟩
  by_cases hp : p' = p
  · subst hp
    have hfirsts : (d.firstOne p' (nextTag (q.window p').sp)).firsts p' =
        d.firsts p' ++ [nextTag (q.window p').sp] := assign_self _
    rw [hfirsts, List.append_assoc, List.singleton_append, ← h.1.tags_pop hready]
    exact h.2 p'
  · have hsame : (q.pop p).tags p' = q.tags p' := by
      rw [Queue.tags, Queue.pop, Queue.window_setWindow_of_ne hp, ← Queue.tags]
    have hfirsts : (d.firstOne p (nextTag (q.window p).sp)).firsts p' = d.firsts p' :=
      assign_of_ne hp _
    rw [hsame, hfirsts]
    exact h.2 p'

theorem Tracks.take (h : d.Tracks q) {v : Mq.View σ} (hv : v.queue = q) {tag : Bytes} {q' : Queue}
    (htake : q.take v.now = some (tag, q')) {worker : Bytes} {isAck : Bool} {reply : Mq.GetReply}
    (hne : reply.ack ≠ []) :
    (d.record v (.get worker isAck) (.message reply)).Tracks q' := by
  subst hv
  rcases Queue.take_cases htake with ⟨hdue, rfl⟩ | ⟨p, hdue, hp, -, rfl⟩
  · simp only [record, firstDelivery, hdue, Option.isSome_some, or_true, if_true]
    exact h.congr rfl rfl
  · simp only [record, firstDelivery, hne, hdue, Option.isSome_none, Bool.false_eq_true, or_self,
      if_false, hp, Option.map_some]
    exact h.firstOne (Queue.highest_some hp).1

end Deliveries

def MqOp.isPurge : MqOp → Bool
  | .purge _ => true
  | _ => false

theorem MqOp.Cases.tracks {v v' : Mq.View σ} {op : MqOp}
    {reply : MqReply} (h : MqOp.Cases kv conf queue v pending op reply v' pending')
    (hop : op.isPurge = false) {d : Deliveries} (hd : d.Tracks v.queue) :
    (d.record v op reply).Tracks v'.queue := by
  cases h with
  | put h => cases h with
    | refused => exact hd
    | failed => exact hd
    | accepted p hp _ hroom =>
      subst hp
      simp only [Deliveries.record, p.isLt, dif_pos]
      exact hd.putOne hroom p
  | get h => cases h with
    | idle =>
      simp only [Deliveries.record, firstDelivery, true_or, if_true]
      exact hd
    | failed _ _ _ _ htake => exact hd.take rfl htake (tagKey_ne_nil _ _)
    | done _ _ _ _ htake => exact hd.take rfl htake (tagKey_ne_nil _ _)
    | delivered _ _ _ _ htake => exact (hd.take rfl htake (tagKey_ne_nil _ _)).congr rfl rfl
  | notAcked => exact hd
  | acked => exact hd.congr rfl rfl
  | finish => exact hd
  | idle => exact hd
  | purge => cases hop
  | set hset h =>
    have hrecord (r : Rc) : d.record v op (.rc r) = d := by
      cases op <;> first | rfl | cases hset
    rw [hrecord]
    exact hd.congr h.window h.type
  | tick => exact hd
  | threshold => exact hd

theorem Deliveries.tracks_run {s : MqRun σ} (hnew : s.server.queues.get? queue = none)
    {ops : List MqOp} (hops : ∀ op ∈ ops, op.isPurge = false) :
    let out := Run.exec (Deliveries.step kv conf queue) (s, .empty) ops
    out.2.Tracks (out.1.server.queueOf conf queue) := by
  have hguard : Run.Guarded (Deliveries.step kv conf queue) (fun _ op => op.isPurge = false)
    (s, .empty) ops := Run.guarded_of_forall hops
  refine hguard.invariant (P := fun s => s.2.Tracks (s.1.server.queueOf conf queue)) ?_ ?_
  · intro s op hs hop
    exact (MqOp.cases s.1 hs.1.type op).tracks hop hs
  · simp only [queueOf_new hnew]
    refine ⟨Queue.valid_fresh conf, fun p => ?_⟩
    have hempty : (Queue.fresh conf .queueTb).tags p = [] := Ring.window_self cycle_pos
    rw [hempty]
    rfl

theorem queueKey_eq (queue : Bytes) (p tag : Nat) : queueKey queue p tag = tagKey queue (ackTag p tag) := by
  simp only [queueKey, tagKey, ackTag, List.append_assoc]

/-- In every run without a purge the counters of each priority count the messages that were put and not
yet delivered for the first time, and all of them together are within the capacity. First deliveries
follow the order of the puts, and one of a lower priority happens only when nothing of a higher priority
waits. -/
theorem counters_count_waiting_messages (kv : Kv σ) (conf : MqConf) (queue : Bytes) (s : MqRun σ)
    (hnew : s.server.queues.get? queue = none) (ops : List MqOp)
    (hops : ∀ op ∈ ops, op.isPurge = false) :
    let out := Run.exec (Deliveries.step kv conf queue) (s, .empty) ops
    let q := out.1.server.queueOf conf queue
    (∀ p, out.2.firsts p <+: out.2.puts p ∧ clacRealItem (q.window p).sp (q.window p).ep =
        (out.2.puts p).length - (out.2.firsts p).length) ∧
    clacRealItem (q.window 0).sp (q.window 0).ep + clacRealItem (q.window 1).sp (q.window 1).ep +
      clacRealItem (q.window 2).sp (q.window 2).ep ≤ maxQueueItemNum ∧
    ∀ worker isAck p tag,
      let reply := (out.1.server.hustmqGet kv conf queue worker isAck).1
      firstDelivery (out.1.server.view conf queue) reply = some (p, tag) → reply.ack = queueKey queue p tag ∧
        (out.2.puts p)[(out.2.firsts p).length]? = some tag ∧
        ∀ p' > p, out.2.firsts p' = out.2.puts p' := by
  intro out q
  obtain ⟨hvalid, htracks⟩ : out.2.Tracks q := Deliveries.tracks_run hnew hops
  have hready (p : Fin 3) : clacRealItem (q.window p).sp (q.window p).ep = (q.tags p).length := by
    rw [Queue.length_tags]
    exact hvalid.ready_eq p
  refine ⟨fun p => ⟨⟨q.tags p, (htracks p).symm⟩, ?_⟩, ?_, ?_⟩
  · rw [hready, htracks p, List.length_append, Nat.add_sub_cancel_left]
  · rw [hready, hready, hready, Queue.length_tags, Queue.length_tags, Queue.length_tags]
    exact hvalid.count
  · intro worker isAck p tag reply hfirst
    have hcases : Mq.GetCases kv queue (out.1.server.view conf queue) isAck reply _ :=
      Mq.getCases kv worker isAck
    unfold firstDelivery at hfirst
    split_ifs at hfirst with hnone
    rw [not_or] at hnone
    obtain ⟨p', hp', hpair⟩ := Option.map_eq_some_iff.mp hfirst
    cases hpair
    obtain ⟨hpos, habove⟩ := Queue.highest_some hp'
    refine ⟨?_, ?_, fun p' hp' => ?_⟩
    · -- The reply names the message that was taken from the window.
      have hkey {tag : Bytes} {q' : Queue} (htake : q.take out.1.server.now = some (tag, q')) :
          tagKey queue tag = queueKey queue p (nextTag (q.window p).sp) := by
        rcases Queue.take_cases htake with ⟨hdue, -⟩ | ⟨p', -, hp'', rfl, -⟩
        · exact absurd (Option.isSome_iff_exists.mpr ⟨_, hdue⟩) hnone.2
        · cases hp''.symm.trans hp'
          exact (queueKey_eq _ _ _).symm
      generalize (out.1.server.hustmqGet kv conf queue worker isAck).2.view conf queue = v' at hcases
      generalize reply = reply' at hcases hnone ⊢
      cases hcases with
      | idle => exact absurd rfl hnone.1
      | failed _ _ _ _ htake => exact hkey htake
      | done _ _ _ _ htake => exact hkey htake
      | delivered _ _ _ _ htake => exact hkey htake
    · rw [htracks p, hvalid.tags_pop hpos, List.getElem?_append_right (Nat.le_refl _), Nat.sub_self]
      rfl
    · have hzero : (q.tags p').length = 0 := by rw [← hready]; exact habove p' hp'
      rw [htracks p', List.length_eq_zero_iff.mp hzero, List.append_nil]

def smallMq : MqRun (Bytes → Option Body) := ⟨⟨fun _ => none, .empty, 1000, false⟩, []⟩

def smallMqConf : MqConf := ⟨8, 5, 7200⟩

def threePuts : List MqOp :=
  [.put (ascii "a") 0, .put (ascii "b") 2, .put (ascii "c") 0, .get (ascii "worker") false]

theorem counters_count_three_puts :
    let out := Run.exec (Deliveries.step Kv.memory smallMqConf (ascii "q")) (smallMq, .empty) threePuts
    let q := out.1.server.queueOf smallMqConf (ascii "q")
    out.2.puts 0 = [1, 2] ∧ out.2.firsts 2 = [1] ∧ clacRealItem (q.window 0).sp (q.window 0).ep =
        (out.2.puts 0).length - (out.2.firsts 0).length :=
  ⟨by decide +kernel, by decide +kernel,
    ((counters_count_waiting_messages Kv.memory smallMqConf (ascii "q") smallMq rfl threePuts (by decide)).1 0).2⟩

/-! ### What a purge removes -/

theorem Queue.lastTag_eq {w : Window} (hsp : w.sp < cycleQueueItemNum) (hep : w.ep < cycleQueueItemNum)
    (h : Ring.dist cycleQueueItemNum w.sp w.ep ≤ maxQueueItemNum) :
    lastTag w = w.sp + Ring.dist cycleQueueItemNum w.sp w.ep := by
  rw [Ring.dist_eq hsp hep] at h ⊢
  unfold lastTag
  unfold cycleQueueItemNum maxQueueItemNum at *
  split_ifs at h ⊢ <;> omega

theorem Queue.Valid.purgeTags_eq {q : Queue} (hq : q.Valid) (p : Fin 3) :
    Queue.purgeTags (q.window p) = q.tags p := by
  rw [purgeTags, lastTag_eq (hq.sp_lt p) (hq.ep_lt p) (hq.waiting_le p), Nat.add_sub_cancel_left,
    ← Ring.places_eq_range, Nat.mod_eq_of_lt (hq.sp_lt p), tags, Ring.window]

theorem Queue.Valid.left_eq {q : Queue} (hq : q.Valid) (p : Fin 3) : q.left p + q.waiting p = total q.waiting := by
  have hlast := lastTag_eq (hq.sp_lt p) (hq.ep_lt p) (hq.waiting_le p)
  have hcount : clacRealItem (q.window p).sp (lastTag (q.window p)) = q.waiting p := by
    rw [clacRealItem, if_pos (by omega), hlast, Nat.add_sub_cancel_left, waiting]
  have hle := le_total q.waiting p
  have hmax := hq.count
  rw [left, hcount, hq.real_eq]
  unfold maxQueueItemNum at hmax
  omega

theorem Queue.Valid.left_eq_zero {q : Queue} (hq : q.Valid) (p : Fin 3) :
    q.left p = 0 ↔ ∀ p' ≠ p, q.ready p' = 0 := by
  have hleft := hq.left_eq p
  simp only [hq.ready_eq]
  unfold total at hleft
  constructor
  · intro hzero p' hp'
    obtain rfl | rfl | rfl : p = 0 ∨ p = 1 ∨ p = 2 := by omega
    all_goals
      obtain rfl | rfl | rfl : p' = 0 ∨ p' = 1 ∨ p' = 2 := by omega
      all_goals omega
  · intro hzero
    obtain rfl | rfl | rfl : p = 0 ∨ p = 1 ∨ p = 2 := by omega
    · have h1 := hzero 1 (by decide)
      have h2 := hzero 2 (by decide)
      omega
    · have h0 := hzero 0 (by decide)
      have h2 := hzero 2 (by decide)
      omega
    · have h0 := hzero 0 (by decide)
      have h1 := hzero 1 (by decide)
      omega

theorem Mq.body_purgeBodies (hkv : kv.Lawful) (storage : σ) (queue : Bytes) (p : Fin 3)
    (tags : List Nat) (k : Bytes) :
    kv.body (purgeBodies kv storage queue p tags) k =
      if ∃ tag ∈ tags, k = queueKey queue p tag then none else kv.body storage k := by
  induction tags generalizing storage with
  | nil => simp [purgeBodies]
  | cons tag tags ih =>
    have hfold : purgeBodies kv storage queue p (tag :: tags) =
      purgeBodies kv (kv.del storage (queueKey queue p tag)).2 queue p tags := rfl
    rw [hfold, ih, hkv.del]
    by_cases hk : k = queueKey queue p tag
    · simp [hk]
    · simp [hk]

/-- In every state that a run reaches, a purge of a priority deletes the bodies of the messages that wait
at this priority and no other body. It keeps the other windows and empties this one, and it removes the
queue exactly if no message of another priority waits. -/
theorem purge_removes_the_waiting_messages (hkv : kv.Lawful) (conf : MqConf) {queue : Bytes}
    (hname : tbNameCheck queue = true) (s : MqRun σ) (hnew : s.server.queues.get? queue = none)
    (ops : List MqOp) {q : Queue}
    (hq : (Run.exec (MqOp.step kv conf queue) s ops).server.queues.get? queue = some q)
    (p : Fin 3) :
    let server := (Run.exec (MqOp.step kv conf queue) s ops).server
    let out := server.hustmqPurge kv conf queue p
    out.1 = .ok ∧
    (∀ k, kv.body out.2.storage k =
      if ∃ tag < cycleQueueItemNum, Ring.Mem cycleQueueItemNum (q.window p).sp (q.window p).ep tag ∧
        k = queueKey queue p tag then none else kv.body server.storage k) ∧
    (∀ q', out.2.queues.get? queue = some q' → (∀ p' ≠ p, q'.window p' = q.window p') ∧ q'.ready p = 0) ∧
    (out.2.queues.get? queue = none ↔ ∀ p' ≠ p, q.ready p' = 0) ∧
    ∀ other ≠ queue, out.2.queues.get? other = server.queues.get? other := by
  intro server out
  have hvalid : q.Valid := by
    have hrun : (server.queueOf conf queue).Valid := by
      refine valid_run ?_ ops
      rw [queueOf_new hnew]
      exact Queue.valid_fresh conf
    rwa [Mq.queueOf_some hq] at hrun
  have hfind : server.findQueue conf queue false .queueTb = (some q, server) := by
    simp only [Mq.findQueue, server, hq, hvalid.type, if_true]
  have hp : (⟨(p : Nat), p.isLt⟩ : Fin 3) = p := rfl
  have hbodies (k : Bytes) : kv.body (Mq.purgeBodies kv server.storage queue p (q.tags p)) k =
      if ∃ tag < cycleQueueItemNum, Ring.Mem cycleQueueItemNum (q.window p).sp (q.window p).ep tag ∧
        k = queueKey queue p tag then none else kv.body server.storage k := by
    have hmem : (∃ tag ∈ q.tags p, k = queueKey queue p tag) ↔ ∃ tag < cycleQueueItemNum,
        Ring.Mem cycleQueueItemNum (q.window p).sp (q.window p).ep tag ∧ k = queueKey queue p tag := by
      refine exists_congr fun tag => ?_
      by_cases htag : tag < cycleQueueItemNum
      · rw [Queue.tags, Ring.mem_window (hvalid.sp_lt p) htag]
        simp only [htag, true_and]
      · have hnot : tag ∉ q.tags p := fun h => htag (Ring.lt_of_mem_window (hvalid.sp_lt p) h)
        simp only [hnot, htag, false_and]
    rw [Mq.body_purgeBodies hkv]
    simp only [hmem]
  have hargs : tbNameCheck queue = true ∧ (p : Nat) < 3 := ⟨hname, p.isLt⟩
  have hout : out = if q.left p = 0 then
      (.ok, { server with
        storage := Mq.purgeBodies kv server.storage queue p (q.tags p)
        queues := server.queues.erase queue })
    else (.ok, { server with
        storage := Mq.purgeBodies kv server.storage queue p (q.tags p)
        queues := server.queues.insert queue (q.setWindow p ⟨0, 0⟩) }) := by
    simp only [out, Mq.hustmqPurge, dif_pos hargs, hfind, hp, hvalid.purgeTags_eq, Mq.setQueue]
  have hiff := hvalid.left_eq_zero p
  by_cases hleft : q.left p = 0
  · rw [if_pos hleft] at hout
    rw [hout]
    refine ⟨rfl, hbodies, fun q' hq' => ?_, ?_, fun other hother => ?_⟩
    · simp at hq'
    · simpa using hiff.mp hleft
    · exact SortedMap.get?_erase_of_ne _ hother
  · rw [if_neg hleft] at hout
    rw [hout]
    refine ⟨rfl, hbodies, fun q' hq' => ?_, ?_, fun other hother => ?_⟩
    · rw [SortedMap.get?_insert_self] at hq'
      cases hq'
      refine ⟨fun p' hp' => Queue.window_setWindow_of_ne hp' _ _, ?_⟩
      rw [Queue.ready, Queue.window_setWindow_self]
      rfl
    · simpa using fun h => hleft (hiff.mpr h)
    · exact SortedMap.get?_insert_of_ne _ _ hother

theorem purge_after_three_puts :
    let server := (Run.exec (MqOp.step Kv.memory smallMqConf (ascii "q")) smallMq threePuts).server
    (server.storage (queueKey (ascii "q") 0 2)).isSome ∧
      (server.hustmqPurge Kv.memory smallMqConf (ascii "q") 0).1 = .ok :=
  ⟨by decide +kernel, (purge_removes_the_waiting_messages Kv.memory_lawful smallMqConf
    (by decide) smallMq rfl threePuts rfl 0).1⟩

end HustStore
