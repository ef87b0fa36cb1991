import HustStore.Mq.Retention

/-!
# Deliveries and redeliveries

A delivery that is to be acknowledged is entered twice: in the map of unacknowledged tags, and in the multimap
of the times of redelivery. The first delivery enters both with the same time.
-/

namespace HustStore

variable {σ : Type} {kv : Kv σ} {conf : MqConf} {queue : Bytes}

/-! ### The map and the multimap -/

def Queue.Matched (q : Queue) : Prop := (q.redelivery.entries.map Prod.swap).Perm q.unacked.entries

def MqOp.NotDue (conf : MqConf) (queue : Bytes) (s : MqRun σ) : MqOp → Prop
  | .get _ _ => (s.server.queueOf conf queue).due s.server.now = none
  | _ => True

theorem Queue.Matched.delivered {q : Queue} (hq : q.Matched) {tag : Bytes}
    (hnone : q.unacked.get? tag = none) (now : Nat) : (q.delivered now tag).Matched := by
  have hunacked : (q.delivered now tag).unacked = q.unacked.insert tag (now % 2 ^ 32) := by
    simp only [Queue.delivered, hnone, Option.isSome_none, Bool.false_eq_true, if_false]
  have hredelivery : ((q.delivered now tag).redelivery.entries.map Prod.swap).Perm
      ((tag, now % 2 ^ 32) :: q.redelivery.entries.map Prod.swap) := Multimap.perm_insert.map _
  rw [Matched, hunacked]
  exact hredelivery.trans ((hq.cons _).trans (SortedMap.perm_insert hnone _).symm)

theorem Queue.Matched.acked {q : Queue} (hq : q.Matched) {tag : Bytes} {time : Nat}
    (hsome : q.unacked.get? tag = some time) : (q.acked tag time).Matched := by
  have hmem : (time, tag) ∈ q.redelivery.entries := by
    have hentry := hq.mem_iff.mpr (SortedMap.mem_entries.mpr hsome)
    obtain ⟨e, he, hswap⟩ := List.mem_map.mp hentry
    rwa [← Prod.swap_swap e, hswap] at he
  have hleft := (Multimap.perm_erase hmem).map Prod.swap
  exact (hleft.symm.trans (hq.trans (SortedMap.perm_erase hsome))).cons_inv

variable {pending pending' : List Bytes} {v v' : Mq.View σ} {op : MqOp}

variable {reply : MqReply}

theorem MqOp.Cases.matched {l : Ledger} (hcases : MqOp.Cases kv conf queue v pending op reply v' pending')
    (hinv : l.Inv kv queue v pending)
    (hdue : ∀ worker isAck, op = .get worker isAck → v.queue.due v.now = none)
    (hq : v.queue.Matched) : v'.queue.Matched := by
  have hfirst {tag : Bytes} {q : Queue} (hnone : v.queue.due v.now = none)
      (htake : v.queue.take v.now = some (tag, q)) : q.Matched ∧ q.unacked.get? tag = none := by
    rcases Queue.take_cases htake with ⟨hsome, -⟩ | ⟨p, -, hp, rfl, rfl⟩
    · rw [hnone] at hsome
      cases hsome
    · obtain ⟨m, rest, hwaiting, -, hname, -⟩ := hinv.waiting_cons hp
      have hunused := hinv.unused p m (by rw [hwaiting]; exact List.mem_cons_self)
      rw [hname] at hunused
      exact ⟨hq, hunused.1⟩
  cases hcases with
  | put hput => cases hput <;> exact hq
  | get hget =>
    have hnone := hdue _ _ rfl
    cases hget with
    | idle => exact hq
    | failed _ _ _ _ htake => exact (hfirst hnone htake).1
    | done _ _ _ _ htake => exact (hfirst hnone htake).1
    | delivered _ _ _ _ htake =>
      obtain ⟨hmatched, hunacked⟩ := hfirst hnone htake
      exact hmatched.delivered hunacked v.now
  | notAcked => exact hq
  | acked _ hunacked => exact hq.acked hunacked
  | finish => exact hq
  | idle => exact hq
  | purge hpurge => cases hpurge with
    | idle => exact hq
    | removed => exact .refl _
    | emptied => exact hq
  | set _ hsame =>
    rw [Queue.Matched, hsame.unacked, hsame.redelivery]
    exact hq
  | tick => exact hq
  | threshold => exact hq

/-! ### Redelivery -/

def MqOp.Forward (s : MqRun σ) : MqOp → Prop
  | .tick now => s.server.now ≤ now ∧ now < 2 ^ 32
  | _ => True

def Mq.View.Dated (v : Mq.View σ) : Prop :=
  v.now < 2 ^ 32 ∧ ∀ e ∈ v.queue.redelivery.entries, e.1 ≤ v.now

theorem Mq.View.Dated.take {v : Mq.View σ} (hv : v.Dated) {tag : Bytes} {q : Queue}
    (htake : v.queue.take v.now = some (tag, q)) : ∀ e ∈ q.redelivery.entries, e.1 ≤ v.now := by
  rcases Queue.take_cases htake with ⟨-, rfl⟩ | ⟨p, -, -, -, rfl⟩
  · exact fun e he => hv.2 e (Multimap.mem_of_mem_tail he)
  · exact hv.2

theorem MqOp.Cases.dated (hcases : MqOp.Cases kv conf queue v pending op reply v' pending')
    (hforward : ∀ now, op = .tick now → v.now ≤ now ∧ now < 2 ^ 32) (hv : v.Dated) : v'.Dated := by
  cases hcases with
  | put hput => cases hput <;> exact hv
  | get hget => cases hget with
    | idle => exact hv
    | failed _ _ _ _ htake => exact ⟨hv.1, hv.take htake⟩
    | done _ _ _ _ htake => exact ⟨hv.1, hv.take htake⟩
    | delivered _ _ _ _ htake =>
      refine ⟨hv.1, fun e he => ?_⟩
      rcases Multimap.mem_insert.mp he with rfl | he
      · exact Nat.mod_le _ _
      · exact hv.take htake e he
  | notAcked => exact hv
  | acked => exact ⟨hv.1, fun e he => hv.2 e (Multimap.mem_of_mem_erase he)⟩
  | finish => exact hv
  | idle => exact hv
  | purge hpurge => cases hpurge with
    | idle => exact hv
    | removed => exact ⟨hv.1, fun _ he => (List.not_mem_nil he).elim⟩
    | emptied => exact hv
  | set _ hsame =>
    refine ⟨hv.1, fun e he => hv.2 e ?_⟩
    rwa [hsame.redelivery] at he
  | tick now =>
    obtain ⟨hle, hlt⟩ := hforward now rfl
    exact ⟨hlt, fun e he => (hv.2 e he).trans hle⟩
  | threshold => exact hv

def Mq.View.DueBy (v : Mq.View σ) (name : Bytes) (k : Nat) : Prop :=
  ∃ i ≤ k, ∃ time, v.queue.redelivery.entries[i]? = some (time, name) ∧ time + v.queue.stat.timeout * 60 ≤ v.now

theorem Mq.View.DueBy.head {v : Mq.View σ} {name : Bytes} {k : Nat} (h : v.DueBy name k) :
    ∃ name', v.queue.due v.now = some name' := by
  obtain ⟨i, -, time, hentry, hdue⟩ := h
  have hsorted := v.queue.redelivery.sorted
  have hmem := List.mem_of_getElem? hentry
  unfold Queue.due
  cases hentries : v.queue.redelivery.entries with
  | nil =>
    rw [hentries] at hmem
    cases hmem
  | cons e rest =>
    rw [hentries] at hmem hsorted
    have hle : e.1 ≤ time := by
      rcases List.mem_cons.mp hmem with heq | hmem
      · rw [← heq]
      · exact (List.pairwise_cons.mp hsorted).1 _ hmem
    refine ⟨e.2, ?_⟩
    simp only
    rw [if_pos (by omega)]

theorem Mq.View.DueBy.tail {v : Mq.View σ} {name name' : Bytes} {k : Nat} (h : v.DueBy name k)
    (hdue : v.queue.due v.now = some name') (hne : name ≠ name') :
    0 < k ∧ ∃ i ≤ k - 1, ∃ time, v.queue.redelivery.tail.entries[i]? = some (time, name) ∧
      time + v.queue.stat.timeout * 60 ≤ v.now := by
  obtain ⟨i, hi, time, hentry, htime⟩ := h
  unfold Queue.due at hdue
  split at hdue
  · rename_i time' name'' rest hentries
    split_ifs at hdue
    cases hdue
    cases i with
    | zero =>
      rw [hentries, List.getElem?_cons_zero, Option.some.injEq, Prod.mk.injEq] at hentry
      exact absurd hentry.2.symm hne
    | succ i =>
      refine ⟨by omega, i, by omega, time, ?_, htime⟩
      change v.queue.redelivery.entries.tail[i]? = _
      rw [hentries] at hentry ⊢
      exact hentry
  · cases hdue

def MqOp.isGet : MqOp → Bool
  | .get worker _ => minWorkerLen < worker.length && worker.length ≤ maxWorkerLen
  | _ => false

def MqReply.Returns (queue : Bytes) (m : Message) : MqReply → Prop
  | .message reply => reply.r = .ok ∧ reply.ack = tagKey queue m.name ∧ reply.rsp = m.item
  | _ => False

def Returns (kv : Kv σ) (conf : MqConf) (queue : Bytes) (m : Message) : MqRun σ → List MqOp → Prop
  | _, [] => False
  | s, op :: rest => (op.call kv conf queue s).1.Returns queue m ∨
    Returns kv conf queue m (op.step kv conf queue s) rest

theorem Mq.View.DueBy.mono {v : Mq.View σ} {name : Bytes} {k k' : Nat} (h : v.DueBy name k)
    (hk : k ≤ k') : v.DueBy name k' := by
  obtain ⟨i, hi, hentry⟩ := h
  exact ⟨i, hi.trans hk, hentry⟩

theorem Ledger.Inv.get_due {v v' : Mq.View σ} {pending : List Bytes} {l : Ledger} {m : Message}
    {k : Nat} (hinv : l.Inv kv queue v pending) (hdated : v.Dated) (hm : m ∈ l.delivered)
    (hdueBy : v.DueBy m.name k) {isAck : Bool} {reply : Mq.GetReply} (hne : reply.ack ≠ [])
    (hcases : Mq.GetCases kv queue v isAck reply v') :
    (MqReply.message reply).Returns queue m ∨
      0 < k ∧ m ∈ (l.getOne v isAck reply).delivered ∧ v'.DueBy m.name (k - 1) := by
  obtain ⟨name, hdue⟩ := hdueBy.head
  have hkept := hinv.kept m (.inr hm)
  have htaken {tag : Bytes} {q : Queue} (htake : v.queue.take v.now = some (tag, q)) :
      tag = name ∧ q = { v.queue with redelivery := v.queue.redelivery.tail } := by
    rcases Queue.take_cases htake with ⟨hdue', rfl⟩ | ⟨p, hnone, -⟩
    · exact ⟨Option.some.inj (hdue'.symm.trans hdue), rfl⟩
    · rw [hdue] at hnone
      cases hnone
  have hstays (hname : m.name ≠ name) : m ∈ (l.getOne v isAck reply).delivered := by
    rw [getOne_due hne hdue]
    split
    · exact (List.mem_eraseP_of_neg (by simpa using hname)).mpr hm
    · exact hm
  by_cases hname : m.name = name
  · left
    cases hcases with
    | idle => exact absurd rfl hne
    | failed tag q e _ htake hget =>
      rw [(htaken htake).1, ← hname, Kv.get_of_body hkept] at hget
      cases hget
    | done tag q body _ htake hget =>
      rw [(htaken htake).1, ← hname] at hget ⊢
      cases hget.symm.trans hkept
      exact ⟨rfl, rfl, rfl⟩
    | delivered tag q body _ htake hget =>
      rw [(htaken htake).1, ← hname] at hget ⊢
      cases hget.symm.trans hkept
      exact ⟨rfl, rfl, rfl⟩
  · right
    obtain ⟨hpos, i, hi, time, hentry, htime⟩ := hdueBy.tail hdue hname
    refine ⟨hpos, hstays hname, ?_⟩
    cases hcases with
    | idle => exact absurd rfl hne
    | failed tag q e _ htake =>
      obtain ⟨-, rfl⟩ := htaken htake
      exact ⟨i, hi, time, hentry, htime⟩
    | done tag q body _ htake =>
      obtain ⟨-, rfl⟩ := htaken htake
      exact ⟨i, hi, time, hentry, htime⟩
    | delivered tag q body _ htake =>
      obtain ⟨-, rfl⟩ := htaken htake
      refine ⟨i, hi, time, ?_, htime⟩
      -- The new entry is placed behind all others.
      have happend : (v.queue.redelivery.tail.insert (v.now % 2 ^ 32) tag).entries =
          v.queue.redelivery.tail.entries ++ [(v.now % 2 ^ 32, tag)] := by
        refine Multimap.insert_eq_append fun e he => ?_
        rw [Nat.mod_eq_of_lt hdated.1]
        exact hdated.2 e (Multimap.mem_of_mem_tail he)
      change (v.queue.redelivery.tail.insert (v.now % 2 ^ 32) tag).entries[i]? = _
      rw [happend, List.getElem?_append_left (List.getElem?_eq_some_iff.mp hentry).1]
      exact hentry

def MqOp.Leaves (m : Message) (op : MqOp) : Prop :=
  op.isSetting = false ∧ op.isPurge = false ∧ op ≠ .ack m.name

theorem MqOp.Cases.nearer {v v' : Mq.View σ} {pending pending' : List Bytes} {op : MqOp}
    {reply : MqReply} {l : Ledger} {m : Message} {k : Nat}
    (hcases : MqOp.Cases kv conf queue v pending op reply v' pending')
    (hinv : l.Inv kv queue v pending) (hdated : v.Dated) (hleaves : op.Leaves m)
    (hforward : ∀ now, op = .tick now → v.now ≤ now ∧ now < 2 ^ 32)
    (hget : op.isGet → ∀ got, reply = .message got → got.ack ≠ [])
    (hm : m ∈ l.delivered) (hdueBy : v.DueBy m.name k) :
    reply.Returns queue m ∨ m ∈ (l.record v op reply).delivered ∧
      (op.isGet = true ∧ 0 < k ∧ v'.DueBy m.name (k - 1) ∨ op.isGet = false ∧ v'.DueBy m.name k) := by
  cases hcases with
  | put hput =>
    refine .inr ⟨?_, .inr ⟨rfl, ?_⟩⟩
    · cases hput with
      | refused => exact hm
      | failed => exact hm
      | accepted p hp =>
        subst hp
        simp only [Ledger.record, p.isLt, dif_pos]
        exact hm
    · cases hput <;> exact hdueBy
  | @get worker isAck got v' h =>
    by_cases hidle : got.ack = []
    · have hsame : v' = v := by
        cases h with
        | idle => rfl
        | failed => exact absurd hidle (tagKey_ne_nil _ _)
        | done => exact absurd hidle (tagKey_ne_nil _ _)
        | delivered => exact absurd hidle (tagKey_ne_nil _ _)
      have hnot : (MqOp.get worker isAck).isGet = false := by
        cases hisGet : (MqOp.get worker isAck).isGet with
        | false => rfl
        | true => exact absurd hidle (hget hisGet got rfl)
      refine .inr ⟨?_, .inr ⟨hnot, hsame ▸ hdueBy⟩⟩
      simpa only [Ledger.record, Ledger.getOne, hidle, if_true] using hm
    · rcases hinv.get_due hdated hm hdueBy hidle h with hreturns | ⟨hpos, hstays, hnear⟩
      · exact .inl hreturns
      · refine .inr ⟨hstays, ?_⟩
        cases hisGet : (MqOp.get worker isAck).isGet with
        | true => exact .inl ⟨rfl, hpos, hnear⟩
        | false => exact .inr ⟨rfl, hnear.mono (Nat.sub_le k 1)⟩
  | notAcked => exact .inr ⟨hm, .inr ⟨rfl, hdueBy⟩⟩
  | @acked token time _ hunacked =>
    have hne : m.name ≠ token := fun hname => hleaves.2.2 (by rw [hname])
    refine .inr ⟨?_, .inr ⟨rfl, ?_⟩⟩
    · exact (List.mem_eraseP_of_neg (by simpa using hne)).mpr hm
    · obtain ⟨i, hi, time', hentry, htime⟩ := hdueBy
      obtain ⟨j, hj, hget⟩ := Multimap.getElem?_erase time hne hentry
      exact ⟨j, hj.trans hi, time', hget, htime⟩
  | finish => exact .inr ⟨hm, .inr ⟨rfl, hdueBy⟩⟩
  | idle => exact .inr ⟨hm, .inr ⟨rfl, hdueBy⟩⟩
  | purge => cases hleaves.2.1
  | set hset =>
    cases hset.symm.trans hleaves.1
  | tick now =>
    refine .inr ⟨hm, .inr ⟨rfl, ?_⟩⟩
    obtain ⟨i, hi, time, hentry, htime⟩ := hdueBy
    exact ⟨i, hi, time, hentry, htime.trans (hforward now rfl).1⟩
  | threshold => exact .inr ⟨hm, .inr ⟨rfl, hdueBy⟩⟩

theorem Mq.present {s : Mq σ} (h : (s.queueOf conf queue).redelivery.entries ≠ []) :
    s.queues.get? queue = some (s.queueOf conf queue) := by
  cases hget : s.queues.get? queue with
  | none =>
    rw [queueOf_new hget] at h
    exact absurd rfl h
  | some q => rw [Mq.queueOf_some hget]

theorem Mq.get_takes {s : Mq σ} (hname : tbNameCheck queue = true) {worker : Bytes} {isAck : Bool}
    (hworker : (MqOp.get worker isAck).isGet = true) (htype : (s.queueOf conf queue).stat.type = .queueTb)
    (hpresent : s.queues.get? queue = some (s.queueOf conf queue)) {x : Bytes × Queue}
    (htake : (s.queueOf conf queue).take s.now = some x) :
    (s.hustmqGet kv conf queue worker isAck).1.ack ≠ [] := by
  have hargs : ¬ ((!tbNameCheck queue) = true ∨ worker.length ≤ minWorkerLen ∨
      worker.length > maxWorkerLen) := by
    simp only [MqOp.isGet, Bool.and_eq_true, decide_eq_true_eq] at hworker
    simp only [hname, Bool.not_true, Bool.false_eq_true, false_or]
    omega
  obtain ⟨tag, q⟩ := x
  simp only [hustmqGet, if_neg hargs, findQueue, hpresent, htype, if_true, htake, deliver]
  split
  · split_ifs
    · exact tagKey_ne_nil _ _
    · exact tagKey_ne_nil _ _
  · exact tagKey_ne_nil _ _

variable {ops : List MqOp}

theorem returns_of_due (hkv : kv.Lawful) (hname : tbNameCheck queue = true) {m : Message}
    (hleaves : ∀ op ∈ ops, op.Leaves m) {s : MqRun σ} {l : Ledger} {k : Nat}
    (hguard : Run.Guarded (MqOp.step kv conf queue) (fun s op => op.Safe conf queue s ∧ op.Forward s) s ops)
    (hinv : l.Inv kv queue (s.server.view conf queue) s.pending)
    (hdated : (s.server.view conf queue).Dated) (hm : m ∈ l.delivered)
    (hdueBy : (s.server.view conf queue).DueBy m.name k) (hgets : k < ops.countP MqOp.isGet) :
    Returns kv conf queue m s ops := by
  induction ops generalizing s l k with
  | nil => cases hgets
  | cons op rest ih =>
    obtain ⟨⟨hsafe, hforward⟩, hrest⟩ := hguard
    have hcases : MqOp.Cases kv conf queue (s.server.view conf queue) s.pending op _ _ _ :=
      MqOp.cases s hinv.valid.type op
    have hforward' (now : Nat) (hop : op = .tick now) : (s.server.view conf queue).now ≤ now ∧ now < 2 ^ 32 := by
      subst hop
      exact hforward
    have hget (hisGet : op.isGet) (got : Mq.GetReply)
        (hreply : (op.call kv conf queue s).1 = .message got) : got.ack ≠ [] := by
      cases op with
      | get worker isAck =>
        cases hreply
        obtain ⟨name, hdue⟩ := hdueBy.head
        obtain ⟨i, -, time, hentry, -⟩ := hdueBy
        have hentries : (s.server.queueOf conf queue).redelivery.entries ≠ [] :=
          List.ne_nil_of_mem (List.mem_of_getElem? hentry)
        refine Mq.get_takes hname hisGet hinv.valid.type (Mq.present hentries)
          (x := (name, { s.server.queueOf conf queue with
            redelivery := (s.server.queueOf conf queue).redelivery.tail })) ?_
        rw [Mq.view_queue, Mq.view_now] at hdue
        rw [Queue.take, hdue]
      | put _ _ | ack _ | finish _ | purge _ | max _ | lock _ | timeout _ | tick _ | threshold _ =>
        cases hisGet
    rcases hcases.nearer hinv hdated (hleaves op (by simp)) hforward' hget hm hdueBy with
      hreturns | ⟨hstays, hnear⟩
    · exact .inl hreturns
    · right
      have hinv' := hcases.inv hkv hsafe hinv
      have hdated' := hcases.dated hforward' hdated
      have hleaves' : ∀ op ∈ rest, op.Leaves m := fun op hop =>
        hleaves op (List.mem_cons_of_mem _ hop)
      rw [List.countP_cons] at hgets
      rcases hnear with ⟨hisGet, hpos, hnear⟩ | ⟨hisGet, hnear⟩
      · rw [if_pos hisGet] at hgets
        exact ih hleaves' hrest hinv' hdated' hstays hnear (by omega)
      · rw [if_neg (by simp [hisGet])] at hgets
        exact ih hleaves' hrest hinv' hdated' hstays hnear hgets

/-! ### After the acknowledgement -/

namespace Ledger

def Knows (l : Ledger) (m : Message) : Prop := m.id < l.count ∧ ∃ m', l.holder m.name = some m'

structure Gone (kv : Kv σ) (queue : Bytes) (storage : σ) (pending : List Bytes) (l : Ledger) : Prop where
  priori : ∀ p, ∀ m ∈ l.waiting p, m.priori = p
  waiting : ∀ p, ∀ m ∈ l.waiting p, l.Knows m
  delivered : ∀ m ∈ l.delivered, l.Knows m
  acking : ∀ m, some m ∈ l.acking → l.Knows m
  done : ∀ m ∈ l.done, l.Knows m
  named : ∀ name m, l.holder name = some m → m.name = name
  keys : List.Forall₂ (fun m key => ∀ m', m = some m' → key = tagKey queue m'.name) l.acking pending
  held : ∀ name m, l.holder name = some m → kv.body storage (tagKey queue name) = none ∨
      kv.body storage (tagKey queue name) = some ⟨m.item, 0⟩
  gone : ∀ m ∈ l.done, l.holder m.name = some m → kv.body storage (tagKey queue m.name) = none

variable {storage : σ} {pending : List Bytes} {l : Ledger}

section

variable (h : l.Gone kv queue storage pending)
include h

theorem Gone.fewer {storage' : σ} (hfewer : ∀ k, kv.body storage' k = none ∨ kv.body storage' k = kv.body storage k) :
    l.Gone kv queue storage' pending := by
  refine ⟨h.priori, h.waiting, h.delivered, h.acking, h.done, h.named, h.keys,
    fun name m hm => ?_, fun m hm hholder => ?_⟩
  · rcases hfewer (tagKey queue name) with hnone | hsame
    · exact .inl hnone
    · rw [hsame]
      exact h.held name m hm
  · rcases hfewer (tagKey queue m.name) with hnone | hsame
    · exact hnone
    · rw [hsame]
      exact h.gone m hm hholder

theorem Gone.put {p : Fin 3} {tag : Nat} {item : Bytes} {storage' : σ} (hbody : ∀ k, kv.body storage' k =
      if k = tagKey queue (ackTag p tag) then some ⟨item, 0⟩ else kv.body storage k) :
    (l.putOne p tag item).Gone kv queue storage' pending := by
  have hholder {name : Bytes} {m : Message} (hm : (l.putOne p tag item).holder name = some m) :
      name = ackTag p tag ∧ m = ⟨l.count, p, tag, item⟩ ∨ name ≠ ackTag p tag ∧ l.holder name = some m := by
    by_cases hname : name = ackTag p tag
    · subst hname
      exact .inl ⟨rfl, Option.some.inj (hm.symm.trans (assign_self _))⟩
    · exact .inr ⟨hname, (assign_of_ne hname _).symm.trans hm⟩
  have hnew : (l.putOne p tag item).holder (ackTag p tag) = some ⟨l.count, p, tag, item⟩ :=
    assign_self _
  have hknows {m : Message} (hm : l.Knows m) : (l.putOne p tag item).Knows m := by
    refine ⟨Nat.lt_succ_of_lt hm.1, ?_⟩
    by_cases hname : m.name = ackTag p tag
    · rw [hname]
      exact ⟨_, hnew⟩
    · obtain ⟨m', hm'⟩ := hm.2
      exact ⟨m', (assign_of_ne hname _).trans hm'⟩
  refine ⟨fun p' m hm => ?_, fun p' m hm => ?_, fun m hm => hknows (h.delivered m hm),
    fun m hm => hknows (h.acking m hm), fun m hm => hknows (h.done m hm), fun name m hm => ?_, h.keys,
    fun name m hm => ?_, fun m hm hheld => ?_⟩
  · rcases mem_waiting_putOne hm with hm | ⟨rfl, rfl⟩
    · exact h.priori p' m hm
    · rfl
  · rcases mem_waiting_putOne hm with hm | ⟨rfl, rfl⟩
    · exact hknows (h.waiting p' m hm)
    · exact ⟨Nat.lt_succ_self _, _, hnew⟩
  · rcases hholder hm with ⟨rfl, rfl⟩ | ⟨-, hm⟩
    · rfl
    · exact h.named name m hm
  · rw [hbody]
    rcases hholder hm with ⟨rfl, rfl⟩ | ⟨hname, hm⟩
    · exact .inr (if_pos rfl)
    · rw [if_neg fun hkey => hname (tagKey_inj hkey)]
      exact h.held name m hm
  · rw [hbody]
    rcases hholder hheld with ⟨-, rfl⟩ | ⟨hname, hheld⟩
    · -- Nobody has acknowledged the new message.
      exact absurd (h.done _ hm).1 (Nat.lt_irrefl _)
    · rw [if_neg fun hkey => hname (tagKey_inj hkey)]
      exact h.gone m hm hheld

theorem Gone.acknowledge (name : Bytes) :
    (l.acknowledge name).Gone kv queue storage (pending ++ [tagKey queue name]) := by
  have hfind {m : Message} (hm : l.delivered.find? (·.name = name) = some m) : m ∈ l.delivered ∧ m.name = name :=
    ⟨List.mem_of_find?_eq_some hm, by simpa using List.find?_some hm⟩
  refine ⟨h.priori, h.waiting, fun m hm => h.delivered m (List.mem_of_mem_eraseP hm),
    fun m hm => ?_, h.done, h.named, ?_, h.held, h.gone⟩
  · rcases List.mem_append.mp hm with hm | hm
    · exact h.acking m hm
    · exact h.delivered m (hfind (List.mem_singleton.mp hm).symm).1
  · refine List.rel_append h.keys (.cons (fun m hm => ?_) .nil)
    rw [(hfind hm).2]

theorem Gone.first (p : Fin 3) (tag : Nat) (isAck : Bool) (r : Rc) : (l.firstOne p tag isAck r).Gone kv queue storage
      (if isAck ∧ r = .ok then pending ++ [tagKey queue (ackTag p tag)] else pending) := by
  have hfind {m : Message} (hm : (l.waiting p).find? (·.tag = tag) = some m) :
      m ∈ l.waiting p ∧ m.name = ackTag p tag := by
    have hmem := List.mem_of_find?_eq_some hm
    have htag : m.tag = tag := by simpa using List.find?_some hm
    exact ⟨hmem, by rw [Message.name, htag, h.priori p m hmem]⟩
  have hsub {p' : Fin 3} {m : Message}
      (hm : m ∈ assign l.waiting p ((l.waiting p).eraseP (·.tag = tag)) p') : m ∈ l.waiting p' := by
    by_cases hp : p' = p
    · subst hp
      rw [assign_self] at hm
      exact List.mem_of_mem_eraseP hm
    · rwa [assign_of_ne hp] at hm
  unfold firstOne
  by_cases hr : r = .ok
  · simp only [hr, ne_eq, not_true_eq_false, if_false, and_true]
    cases isAck with
    | true =>
      simp only [if_true]
      refine ⟨fun p' m hm => h.priori p' m (hsub hm), fun p' m hm => h.waiting p' m (hsub hm),
        h.delivered, fun m hm => ?_, h.done, h.named, ?_, h.held, h.gone⟩
      · rcases List.mem_append.mp hm with hm | hm
        · exact h.acking m hm
        · exact h.waiting p m (hfind (List.mem_singleton.mp hm).symm).1
      · refine List.rel_append h.keys (.cons (fun m hm => ?_) .nil)
        rw [(hfind hm).2]
    | false =>
      simp only [Bool.false_eq_true, if_false]
      refine ⟨fun p' m hm => h.priori p' m (hsub hm), fun p' m hm => h.waiting p' m (hsub hm),
        fun m hm => ?_, h.acking, h.done, h.named, h.keys, h.held, h.gone⟩
      rcases List.mem_append.mp hm with hm | hm
      · exact h.delivered m hm
      · exact h.waiting p m (hfind (Option.mem_toList.mp hm)).1
  · simp only [hr, ne_eq, not_false_eq_true, if_true, and_false, if_false]
    exact ⟨fun p' m hm => h.priori p' m (hsub hm), fun p' m hm => h.waiting p' m (hsub hm),
      h.delivered, h.acking, h.done, h.named, h.keys, h.held, h.gone⟩

end

theorem Gone.finish (hkv : kv.Lawful) (h : l.Gone kv queue storage pending) {i : Nat} {key : Bytes}
    (hkey : pending[i]? = some key) (r : Rc) :
    (l.finishOne i r).Gone kv queue (kv.del storage key).2 (pending.eraseIdx i) := by
  have hdel : l.Gone kv queue (kv.del storage key).2 pending := h.fewer fun k => by
    rw [hkv.del]
    exact ite_eq_or_eq _ _ _
  have hdone {m : Message} (hm : m ∈ (l.finishOne i r).done) :
      m ∈ l.done ∨ some m ∈ l.acking ∧ key = tagKey queue m.name := by
    unfold finishOne at hm
    split_ifs at hm
    · rcases List.mem_append.mp hm with hm | hm
      · exact .inl hm
      · right
        have hsome : l.acking[i]? = some (some m) := by
          cases hget : l.acking[i]? with
          | none => simp [hget] at hm
          | some m' =>
            rw [hget, Option.join_some, Option.mem_toList] at hm
            rw [hm]
        obtain ⟨hi, hget⟩ := List.getElem?_eq_some_iff.mp hsome
        obtain ⟨hi', hget'⟩ := List.getElem?_eq_some_iff.mp hkey
        refine ⟨List.mem_of_getElem? hsome, ?_⟩
        rw [← hget']
        exact h.keys.get hi hi' m hget
    · exact .inl hm
  refine ⟨h.priori, h.waiting, h.delivered, fun m hm => h.acking m (List.mem_of_mem_eraseIdx hm),
    fun m hm => ?_, h.named, ?_, hdel.held, fun m hm hholder => ?_⟩
  · rcases hdone hm with hm | ⟨hm, -⟩
    · exact h.done m hm
    · exact h.acking m hm
  · rw [finishOne, List.eraseIdx_eq_take_drop_succ, List.eraseIdx_eq_take_drop_succ]
    exact List.rel_append (List.forall₂_take i h.keys) (List.forall₂_drop (i + 1) h.keys)
  · rcases hdone hm with hm | ⟨-, rfl⟩
    · exact hdel.gone m hm hholder
    · rw [hkv.del, if_pos rfl]

theorem Gone.holder_of_body (h : l.Gone kv queue storage pending) {m : Message} (hm : m ∈ l.done)
    {body : Body} (hbody : kv.body storage (tagKey queue m.name) = some body) :
    ∃ m', l.holder m.name = some m' ∧ m' ∉ l.done ∧ body.val = m'.item := by
  obtain ⟨m', hholder⟩ := (h.done m hm).2
  have hname := h.named m.name m' hholder
  refine ⟨m', hholder, fun hm' => ?_, ?_⟩
  · have hnone := h.gone m' hm' (by rw [hname]; exact hholder)
    rw [hname, hbody] at hnone
    cases hnone
  · rcases h.held m.name m' hholder with hnone | hsome
    · rw [hbody] at hnone
      cases hnone
    · rw [hbody] at hsome
      cases hsome
      rfl

end Ledger

theorem MqOp.Cases.gone (hkv : kv.Lawful) {l : Ledger}
    (hcases : MqOp.Cases kv conf queue v pending op reply v' pending')
    (h : l.Gone kv queue v.storage pending) :
    (l.record v op reply).Gone kv queue v'.storage pending' := by
  have hpurge (p : Fin 3) (tags : List Nat) : (l.purgeOne p).Gone kv queue
      (Mq.purgeBodies kv v.storage queue p tags) pending := by
    have hfewer : l.Gone kv queue (Mq.purgeBodies kv v.storage queue p tags) pending :=
      h.fewer fun k => by
        rw [Mq.body_purgeBodies hkv]
        exact ite_eq_or_eq _ _ _
    have hsub {p' : Fin 3} {m : Message} (hm : m ∈ (l.purgeOne p).waiting p') : m ∈ l.waiting p' := by
      by_cases hp : p' = p
      · subst hp
        simp only [Ledger.purgeOne, assign_self] at hm
        cases hm
      · exact (congrArg (m ∈ ·) (assign_of_ne hp _)).mp hm
    exact ⟨fun p m hm => h.priori p m (hsub hm), fun p m hm => h.waiting p m (hsub hm),
      h.delivered, h.acking, h.done, h.named, h.keys, hfewer.held, hfewer.gone⟩
  have hget {isAck : Bool} {got : Mq.GetReply} {tag : Bytes} {q : Queue}
      (htake : v.queue.take v.now = some (tag, q)) (hack : got.ack = tagKey queue tag) :
      (l.getOne v isAck got).Gone kv queue v.storage
        (if isAck ∧ got.r = .ok then pending ++ [got.ack] else pending) := by
    have hne : got.ack ≠ [] := by
      rw [hack]
      exact tagKey_ne_nil _ _
    rcases Queue.take_cases htake with ⟨hdue, -⟩ | ⟨p, hdue, hp, rfl, -⟩
    · rw [Ledger.getOne_due hne hdue, hack]
      split_ifs
      · exact h.acknowledge tag
      · exact h
    · rw [Ledger.getOne_first hne hdue hp, hack]
      exact h.first p _ isAck got.r
  cases hcases with
  | put hput => cases hput with
    | refused => exact h
    | failed p e hput =>
      refine h.fewer fun k => .inr ?_
      exact hkv.put_err _ _ _ _ _ (by rw [← Mq.putBody, hput]; simp) k
    | accepted p hp _ hroom hput =>
      subst hp
      simp only [Ledger.record, p.isLt, dif_pos]
      refine h.put fun k => ?_
      rw [← queueKey_eq]
      exact hkv.put_ok _ _ _ _ _ hput k
  | get h' => cases h' with
    | idle => simpa [Ledger.record, Ledger.getOne] using h
    | failed _ _ _ _ htake => exact hget htake rfl
    | done _ _ _ _ htake => exact hget htake rfl
    | delivered _ _ _ _ htake => exact hget htake rfl
  | notAcked => exact h
  | @acked token => exact h.acknowledge token
  | finish hkey => exact h.finish hkv hkey _
  | idle => exact h
  | purge h' => cases h' with
    | idle => exact h
    | removed p hp =>
      subst hp
      simp only [Ledger.record, p.isLt, dif_pos]
      exact hpurge p _
    | emptied p hp =>
      subst hp
      simp only [Ledger.record, p.isLt, dif_pos]
      exact hpurge p _
  | set hset =>
    rw [Ledger.record_setting hset]
    exact h
  | tick => exact h
  | threshold => exact h

theorem Ledger.gone_empty (storage : σ) : Ledger.empty.Gone kv queue storage [] where
  priori _ _ hm := (List.not_mem_nil hm).elim
  waiting _ _ hm := (List.not_mem_nil hm).elim
  delivered _ hm := (List.not_mem_nil hm).elim
  acking _ hm := (List.not_mem_nil hm).elim
  done _ hm := (List.not_mem_nil hm).elim
  named _ _ hm := by cases hm
  keys := .nil
  held _ _ hm := by cases hm
  gone _ hm := (List.not_mem_nil hm).elim

/-! ### Runs -/

def MqOp.Orderly (conf : MqConf) (queue : Bytes) (s : MqRun σ) (op : MqOp) : Prop :=
  op.Safe conf queue s ∧ op.Forward s

instance (s : MqRun σ) : ∀ op : MqOp, Decidable (op.Forward s)
  | .tick now => inferInstanceAs (Decidable (s.server.now ≤ now ∧ now < 2 ^ 32))
  | .put _ _ | .get _ _ | .ack _ | .finish _ | .purge _ | .max _ | .lock _ | .timeout _
  | .threshold _ => .isTrue trivial

instance (s : MqRun σ) (op : MqOp) : Decidable (op.Orderly conf queue s) :=
  inferInstanceAs (Decidable (_ ∧ _))

instance (s : MqRun σ) : ∀ op : MqOp, Decidable (op.NotDue conf queue s)
  | .get _ _ => inferInstanceAs (Decidable (_ = none))
  | .put _ _ | .ack _ | .finish _ | .purge _ | .max _ | .lock _ | .timeout _ | .tick _
  | .threshold _ => .isTrue trivial

theorem MqOp.Forward.tick {s : MqRun σ} (h : op.Forward s) (now : Nat)
    (hop : op = .tick now) : s.server.now ≤ now ∧ now < 2 ^ 32 := by
  subst hop
  exact h

structure Ledger.Sound (kv : Kv σ) (conf : MqConf) (queue : Bytes) (s : MqRun σ × Ledger) : Prop where
  inv : s.2.Inv kv queue (s.1.server.view conf queue) s.1.pending
  dated : (s.1.server.view conf queue).Dated
  gone : s.2.Gone kv queue s.1.server.storage s.1.pending

variable {s : MqRun σ × Ledger}

theorem Ledger.Sound.step (hkv : kv.Lawful) (hop : op.Orderly conf queue s.1) (h : Sound kv conf queue s) :
    Sound kv conf queue (Ledger.step kv conf queue s op) := by
  have hcases : MqOp.Cases kv conf queue (s.1.server.view conf queue) s.1.pending op _ _ _ :=
    MqOp.cases s.1 h.inv.valid.type op
  exact ⟨hcases.inv hkv hop.1 h.inv, hcases.dated hop.2.tick h.dated, hcases.gone hkv h.gone⟩

theorem Ledger.sound_new {s : Mq σ} (hnew : s.queues.get? queue = none) (hnow : s.now < 2 ^ 32) :
    Sound kv conf queue (⟨s, []⟩, .empty) := by
  refine ⟨Ledger.inv_empty hnew _, ⟨hnow, fun e he => ?_⟩, Ledger.gone_empty _⟩
  rw [Mq.view_queue, queueOf_new hnew] at he
  cases he

theorem Ledger.step_guarded {guard : MqRun σ → MqOp → Prop}
    (h : Run.Guarded (MqOp.step kv conf queue) guard s.1 ops) :
    Run.Guarded (Ledger.step kv conf queue) (fun s => guard s.1) s ops :=
  Run.Guarded.lift (f := Prod.fst) (fun _ _ => rfl) h

theorem Ledger.Sound.matched (hkv : kv.Lawful)
    (hops : Run.Guarded (MqOp.step kv conf queue) (MqOp.Orderly conf queue) s.1 ops)
    (hdue : Run.Guarded (MqOp.step kv conf queue) (MqOp.NotDue conf queue) s.1 ops)
    (h : Sound kv conf queue s) (hq : (s.1.server.queueOf conf queue).Matched) :
    ((Run.exec (Ledger.step kv conf queue) s ops).1.server.queueOf conf queue).Matched := by
  refine ((Ledger.step_guarded hops).and (Ledger.step_guarded hdue)).invariant
    (P := fun s => Sound kv conf queue s ∧ (s.1.server.queueOf conf queue).Matched)
    (fun s op hs hop => ⟨hs.1.step hkv hop.1, ?_⟩) ⟨h, hq⟩ |>.2
  have hcases : MqOp.Cases kv conf queue (s.1.server.view conf queue) s.1.pending op _ _ _ :=
    MqOp.cases s.1 hs.1.inv.valid.type op
  refine hcases.matched hs.1.inv (fun worker isAck heq => ?_) hs.2
  subst heq
  exact hop.2

theorem MqOp.Cases.body_of_returned
    {got : Mq.GetReply} (hcases : MqOp.Cases kv conf queue v pending op (.message got) v' pending')
    (hr : got.r = .ok) :
    ∃ body, kv.body v.storage got.ack = some body ∧ body.val = got.rsp := by
  cases hcases with
  | get hget => cases hget with
    | idle => cases hr
    | failed => cases hr
    | done _ _ body _ _ hbody => exact ⟨body, hbody, rfl⟩
    | delivered _ _ body _ _ hbody => exact ⟨body, hbody, rfl⟩

/-- In every run whose puts take unused tags and whose clock runs forward, a message that was delivered
and is not acknowledged has an entry for its redelivery. Once this is due, every continuation with as
many gets as there are entries returns the message. A get never returns a message whose acknowledgement
returned 0: what it returns under such a name was put later. If moreover no get is made while a
redelivery is due, then the map and the multimap match. -/
theorem deliveries_until_acknowledged (hkv : kv.Lawful) (conf : MqConf) (queue : Bytes)
    (hname : tbNameCheck queue = true) (server : Mq σ) (hnew : server.queues.get? queue = none)
    (hnow : server.now < 2 ^ 32) (ops : List MqOp)
    (hops : Run.Guarded (MqOp.step kv conf queue) (MqOp.Orderly conf queue) ⟨server, []⟩ ops) :
    let out := Run.exec (Ledger.step kv conf queue) (⟨server, []⟩, .empty) ops
    let q := out.1.server.queueOf conf queue
    (Run.Guarded (MqOp.step kv conf queue) (MqOp.NotDue conf queue) ⟨server, []⟩ ops → q.Matched) ∧
    (∀ m ∈ out.2.delivered, (∃ time ≤ out.1.server.now, (time, m.name) ∈ q.redelivery.entries) ∧
      ∀ time, (time, m.name) ∈ q.redelivery.entries → time + q.stat.timeout * 60 ≤ out.1.server.now → ∀ rest,
        Run.Guarded (MqOp.step kv conf queue) (MqOp.Orderly conf queue) out.1 rest →
        (∀ op ∈ rest, op.Leaves m) → q.redelivery.entries.length ≤ rest.countP MqOp.isGet →
        Returns kv conf queue m out.1 rest) ∧
    ∀ m ∈ out.2.done, ∀ (op : MqOp) (got : Mq.GetReply),
      (op.call kv conf queue out.1).1 = .message got → got.r = .ok →
      got.ack = tagKey queue m.name →
      ∃ m', out.2.holder m.name = some m' ∧ m' ∉ out.2.done ∧ got.rsp = m'.item := by
  intro out q
  have hinit : Ledger.Sound kv conf queue (⟨server, []⟩, .empty) := Ledger.sound_new hnew hnow
  have hsound : Ledger.Sound kv conf queue out :=
    (Ledger.step_guarded hops).invariant (P := Ledger.Sound kv conf queue) (fun s op hs hop => hs.step hkv hop) hinit
  refine ⟨fun hdue => ?_, fun m hm => ⟨?_, ?_⟩, fun m hm op got hcall hr hack => ?_⟩
  · refine hinit.matched hkv hops hdue ?_
    rw [queueOf_new hnew]
    exact .refl _
  · obtain ⟨time, htime⟩ := hsound.inv.timed m hm
    exact ⟨time, hsound.dated.2 _ htime, htime⟩
  · intro time hentry hdue rest hrest hleaves hgets
    obtain ⟨i, hi, hentry⟩ := List.getElem_of_mem hentry
    refine returns_of_due hkv hname hleaves hrest hsound.inv hsound.dated hm
      ⟨i, le_rfl, time, ?_, hdue⟩ (lt_of_lt_of_le hi hgets)
    exact List.getElem?_eq_some_iff.mpr ⟨hi, hentry⟩
  · have hcases : MqOp.Cases kv conf queue (out.1.server.view conf queue) out.1.pending op
        (op.call kv conf queue out.1).1 _ _ := MqOp.cases out.1 hsound.inv.valid.type op
    rw [hcall] at hcases
    obtain ⟨body, hbody, hval⟩ := hcases.body_of_returned hr
    rw [hack] at hbody
    rw [← hval]
    exact hsound.gone.holder_of_body hm hbody

instance (m : Message) (op : MqOp) : Decidable (op.Leaves m) :=
  inferInstanceAs (Decidable (_ ∧ _ ∧ _))

def deliveredOnce : List MqOp :=
  [.put (ascii "a") 0, .get (ascii "worker") false, .tick 1300]

theorem deliveries_until_acknowledged_once :
    let out := Run.exec (Ledger.step Kv.memory smallMqConf (ascii "q")) (smallMq, .empty)
      deliveredOnce
    (out.1.server.queueOf smallMqConf (ascii "q")).Matched ∧
    Returns Kv.memory smallMqConf (ascii "q") ⟨0, 0, 1, ascii "a"⟩ out.1 [.get (ascii "worker") false] := by
  have hall := deliveries_until_acknowledged Kv.memory_lawful smallMqConf (ascii "q") (by decide)
    smallMq.server rfl (by decide) deliveredOnce (by decide +kernel)
  refine ⟨hall.1 (by decide +kernel), (hall.2.1 ⟨0, 0, 1, ascii "a"⟩ (by decide +kernel)).2 1000
    (by decide +kernel) (by decide +kernel) _ (by decide +kernel) (by decide +kernel)
    (by decide +kernel)⟩

/-- The message is delivered again: the map has the time of the first delivery and the multimap that of
the second. The acknowledgement then leaves the entry of the multimap behind. -/
theorem redelivery_breaks_the_match :
    let again := deliveredOnce ++ [.get (ascii "worker") false]
    let q := (Run.exec (MqOp.step Kv.memory smallMqConf (ascii "q")) smallMq again).server.queueOf
      smallMqConf (ascii "q")
    let q' := (Run.exec (MqOp.step Kv.memory smallMqConf (ascii "q")) smallMq
      (again ++ [.ack (ascii "0:1")])).server.queueOf smallMqConf (ascii "q")
    Run.Guarded (MqOp.step Kv.memory smallMqConf (ascii "q")) (MqOp.Orderly smallMqConf (ascii "q")) smallMq again ∧
    q.unacked.entries = [(ascii "0:1", 1000)] ∧ q.redelivery.entries = [(1300, ascii "0:1")] ∧
    q'.unacked.entries = [] ∧ q'.redelivery.entries = [(1300, ascii "0:1")] ∧ ¬ q'.Matched := by
  have hnot : ¬ ([(1300, ascii "0:1")].map Prod.swap).Perm ([] : List (Bytes × Nat)) := by simp
  intro again q q'
  have hunacked : q'.unacked.entries = [] := by decide +kernel
  have hredelivery : q'.redelivery.entries = [(1300, ascii "0:1")] := by decide +kernel
  refine ⟨by decide +kernel, by decide +kernel, by decide +kernel, hunacked, hredelivery, ?_⟩
  rw [Queue.Matched, hunacked, hredelivery]
  exact hnot

end HustStore
