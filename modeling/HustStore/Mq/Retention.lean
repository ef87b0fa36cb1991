import HustStore.Mq.Ledger

/-!
# The bodies of live messages

A message is live while it waits, and after its delivery until it is acknowledged.
-/

namespace HustStore

variable {σ : Type} {kv : Kv σ} {conf : MqConf} {queue : Bytes}

def MqOp.SafeIn (queue : Bytes) (q : Queue) (pending : List Bytes) : MqOp → Prop
  | .put _ priori => ∀ p : Fin 3, priori = p → q.Unused queue pending (ackTag p (nextTag (q.window p).ep))
  | .purge priori => ∀ p : Fin 3, priori = p → q.left p = 0 → q.unacked.entries = []
  | _ => True

instance (q : Queue) (pending : List Bytes) : ∀ op : MqOp, Decidable (op.SafeIn queue q pending)
  | .put _ priori => inferInstanceAs (Decidable (∀ p : Fin 3, priori = p →
      q.Unused queue pending (ackTag p (nextTag (q.window p).ep))))
  | .purge priori => inferInstanceAs (Decidable (∀ p : Fin 3, priori = p → q.left p = 0 → q.unacked.entries = []))
  | .get .. | .ack _ | .finish _ | .max _ | .lock _ | .timeout _ | .tick _ | .threshold _ =>
    .isTrue trivial

def MqOp.Safe (conf : MqConf) (queue : Bytes) (s : MqRun σ) (op : MqOp) : Prop :=
  op.SafeIn queue (s.server.queueOf conf queue) s.pending

instance (s : MqRun σ) (op : MqOp) : Decidable (op.Safe conf queue s) :=
  inferInstanceAs (Decidable (op.SafeIn queue (s.server.queueOf conf queue) s.pending))

namespace Ledger

structure Inv (kv : Kv σ) (queue : Bytes) (v : Mq.View σ) (pending : List Bytes) (l : Ledger) : Prop where
  valid : v.queue.Valid
  tags : ∀ p, (l.waiting p).map Message.tag = v.queue.tags p
  priori : ∀ p, ∀ m ∈ l.waiting p, m.priori = p
  nodup : (l.delivered.map Message.name).Nodup
  unacked : ∀ m ∈ l.delivered, ∃ time, v.queue.unacked.get? m.name = some time
  timed : ∀ m ∈ l.delivered, ∃ time, (time, m.name) ∈ v.queue.redelivery.entries
  unused : ∀ p, ∀ m ∈ l.waiting p, v.queue.Unused queue pending m.name
  apart : ∀ m ∈ l.delivered, tagKey queue m.name ∉ pending
  kept : ∀ m, (∃ p, m ∈ l.waiting p) ∨ m ∈ l.delivered → kv.body v.storage (tagKey queue m.name) = some ⟨m.item, 0⟩

variable {v : Mq.View σ} {pending : List Bytes} {l : Ledger} {p : Fin 3} {m : Message}

section

variable (h : l.Inv kv queue v pending) (hm : m ∈ l.waiting p)
include h hm

theorem Inv.tag_mem :
    m.tag ∈ v.queue.tags p := by
  rw [← h.tags p]
  exact List.mem_map_of_mem hm

theorem Inv.tag_lt :
    m.tag < cycleQueueItemNum := Ring.lt_of_mem_window (h.valid.sp_lt p) (h.tag_mem hm)

theorem Inv.name_eq {p' : Fin 3} {tag : Nat}
    (htag : tag < cycleQueueItemNum) (hname : m.name = ackTag p' tag) : p = p' ∧ m.tag = tag := by
  have hword {t : Nat} (ht : t < cycleQueueItemNum) : t < 10 ^ 10 := by
    unfold cycleQueueItemNum at ht
    omega
  have hsmall (p : Fin 3) : (p : Nat) < 10 ^ 10 := by omega
  obtain ⟨hp, ht⟩ := ackTag_inj (hsmall _) (hsmall _) (hword (h.tag_lt hm)) (hword htag) hname
  exact ⟨(h.priori p m hm).symm.trans (Fin.ext hp), ht⟩

theorem Inv.name_ne_delivered {m' : Message} (hm' : m' ∈ l.delivered) : m.name ≠ m'.name := by
  intro hname
  obtain ⟨time, htime⟩ := h.unacked m' hm'
  rw [← hname, (h.unused p m hm).1] at htime
  cases htime

end

theorem Inv.waiting_nodup (h : l.Inv kv queue v pending) (p : Fin 3) : ((l.waiting p).map Message.tag).Nodup := by
  rw [h.tags p]
  exact Ring.nodup_window (h.valid.sp_lt p)

theorem Inv.live_nodup (h : l.Inv kv queue v pending) : (l.live.map fun m => (m.priori, m.tag)).Nodup := by
  have hwaiting (p : Fin 3) : ((l.waiting p).map fun m => (m.priori, m.tag)).Nodup := by
    have hmap : (l.waiting p).map Message.tag = ((l.waiting p).map fun m => (m.priori, m.tag)).map Prod.snd := by
        rw [List.map_map]
        rfl
    have hnodup := h.waiting_nodup p
    rw [hmap] at hnodup
    exact hnodup.of_map
  have hdelivered : (l.delivered.map fun m => (m.priori, m.tag)).Nodup := by
    have hmap : l.delivered.map Message.name =
        (l.delivered.map fun m => (m.priori, m.tag)).map fun x => ackTag x.1 x.2 := by
      rw [List.map_map]
      rfl
    have hnodup := h.nodup
    rw [hmap] at hnodup
    exact hnodup.of_map
  have hapart {p p' : Fin 3} (hne : p ≠ p') : ∀ a ∈ (l.waiting p).map fun m => (m.priori, m.tag),
      ∀ b ∈ (l.waiting p').map fun m => (m.priori, m.tag), a ≠ b := by
    intro a ha b hb hab
    obtain ⟨m, hm, rfl⟩ := List.mem_map.mp ha
    obtain ⟨m', hm', rfl⟩ := List.mem_map.mp hb
    exact hne ((h.priori p m hm).symm.trans ((Prod.mk.inj hab).1.trans (h.priori p' m' hm')))
  have hout (p : Fin 3) : ∀ a ∈ (l.waiting p).map fun m => (m.priori, m.tag),
      ∀ b ∈ l.delivered.map fun m => (m.priori, m.tag), a ≠ b := by
    intro a ha b hb hab
    obtain ⟨m, hm, rfl⟩ := List.mem_map.mp ha
    obtain ⟨m', hm', rfl⟩ := List.mem_map.mp hb
    refine h.name_ne_delivered hm hm' ?_
    rw [Message.name, Message.name, (Prod.mk.inj hab).1, (Prod.mk.inj hab).2]
  simp only [live, List.map_append]
  refine List.nodup_append.mpr ⟨List.nodup_append.mpr ⟨List.nodup_append.mpr
    ⟨hwaiting 0, hwaiting 1, hapart (by decide)⟩, hwaiting 2, ?_⟩, hdelivered, ?_⟩
  · intro a ha
    rcases List.mem_append.mp ha with ha | ha
    · exact hapart (by decide) a ha
    · exact hapart (by decide) a ha
  · intro a ha
    rcases List.mem_append.mp ha with ha | ha
    · rcases List.mem_append.mp ha with ha | ha
      · exact hout 0 a ha
      · exact hout 1 a ha
    · exact hout 2 a ha

/-! ### One section -/

theorem Inv.put (hkv : kv.Lawful) (h : l.Inv kv queue v pending) (hroom : v.queue.full = false)
    (hunused : v.queue.Unused queue pending (ackTag p (nextTag (v.queue.window p).ep))) {item : Bytes}
    (hput : (Mq.putBody kv queue v item p).1 = .ok) :
    (l.putOne p (nextTag (v.queue.window p).ep) item).Inv kv queue
      ⟨v.queue.push p, (Mq.putBody kv queue v item p).2, v.now⟩ pending := by
  have hnew : nextTag (v.queue.window p).ep ∉ v.queue.tags p := by
    have hnodup : ((v.queue.push p).tags p).Nodup :=
      Ring.nodup_window ((h.valid.push hroom p).sp_lt p)
    rw [h.valid.tags_push, List.nodup_append] at hnodup
    exact fun hmem => hnodup.2.2 _ hmem _ (List.mem_singleton_self _) rfl
  have hbody (k : Bytes) : kv.body (Mq.putBody kv queue v item p).2 k =
      if k = tagKey queue (ackTag p (nextTag (v.queue.window p).ep)) then some ⟨item, 0⟩
      else kv.body v.storage k := by
    rw [← queueKey_eq]
    exact hkv.put_ok _ _ _ _ _ hput k
  refine ⟨h.valid.push hroom p, fun p' => ?_, fun p' m hm => ?_, h.nodup, h.unacked, h.timed,
    fun p' m hm => ?_, h.apart, fun m hm => ?_⟩
  · by_cases hp : p' = p
    · subst hp
      simp only [putOne, assign_self, List.map_append, h.tags p', h.valid.tags_push]
      rfl
    · have hsame : (v.queue.push p).tags p' = v.queue.tags p' := by
        rw [Queue.tags, Queue.push, Queue.window_setWindow_of_ne hp, ← Queue.tags]
      simp only [putOne, assign_of_ne hp, hsame]
      exact h.tags p'
  · rcases mem_waiting_putOne hm with hm | ⟨rfl, rfl⟩
    · exact h.priori p' m hm
    · rfl
  · rcases mem_waiting_putOne hm with hm | ⟨rfl, rfl⟩
    · exact h.unused p' m hm
    · exact hunused
  · -- The new body is filed under the new name, and every other live message has another name.
    rw [hbody]
    rcases hm with ⟨p', hm⟩ | hm
    · rcases mem_waiting_putOne hm with hold | ⟨rfl, rfl⟩
      · rw [if_neg]
        · exact h.kept m (.inl ⟨p', hold⟩)
        · intro hkey
          obtain ⟨rfl, htag⟩ := h.name_eq hold (nextTag_lt _) (tagKey_inj hkey)
          exact hnew (htag ▸ h.tag_mem hold)
      · exact if_pos rfl
    · rw [if_neg]
      · exact h.kept m (.inr hm)
      · intro hkey
        obtain ⟨time, htime⟩ := h.unacked m hm
        rw [tagKey_inj hkey, hunused.1] at htime
        cases htime

theorem Inv.waiting_cons (h : l.Inv kv queue v pending) (hp : v.queue.highest = some p) :
    ∃ m rest, l.waiting p = m :: rest ∧ m.tag = nextTag (v.queue.window p).sp ∧
      m.name = ackTag p (nextTag (v.queue.window p).sp) ∧
      rest.map Message.tag = (v.queue.pop p).tags p := by
  have htags := h.tags p
  rw [h.valid.tags_pop (Queue.highest_some hp).1] at htags
  obtain ⟨m, rest, hwaiting, htag, hrest⟩ := List.map_eq_cons_iff.mp htags
  refine ⟨m, rest, hwaiting, htag, ?_, hrest⟩
  rw [Message.name, htag, h.priori p m (by rw [hwaiting]; exact List.mem_cons_self)]

theorem Inv.pop (h : l.Inv kv queue v pending) (hp : v.queue.highest = some p) {rest : List Message}
    (hwaiting : l.waiting p = m :: rest) (hrest : rest.map Message.tag = (v.queue.pop p).tags p) :
    (∀ p', (assign l.waiting p rest p').map Message.tag = (v.queue.pop p).tags p') ∧
    ∀ p', ∀ m' ∈ assign l.waiting p rest p', m' ∈ l.waiting p' ∧ m'.name ≠ m.name := by
  have hm : m ∈ l.waiting p := by rw [hwaiting]; exact List.mem_cons_self
  have hnodup := h.waiting_nodup p
  rw [hwaiting, List.map_cons, List.nodup_cons] at hnodup
  refine ⟨fun p' => ?_, fun p' m' hm' => ?_⟩
  · by_cases hp' : p' = p
    · rw [hp', assign_self, hrest]
    · have hsame : (v.queue.pop p).tags p' = v.queue.tags p' := by
        rw [Queue.tags, Queue.pop, Queue.window_setWindow_of_ne hp', ← Queue.tags]
      rw [assign_of_ne hp', hsame, h.tags]
  · have hold : m' ∈ l.waiting p' := by
      by_cases hp' : p' = p
      · rw [hp', assign_self] at hm'
        rw [hp', hwaiting]
        exact List.mem_cons_of_mem _ hm'
      · rwa [assign_of_ne hp'] at hm'
    refine ⟨hold, fun hname => ?_⟩
    have hname' : m'.name = ackTag p m.tag := by rw [hname, Message.name, h.priori p m hm]
    obtain ⟨rfl, htag⟩ := h.name_eq hold (h.tag_lt hm) hname'
    rw [assign_self] at hm'
    exact hnodup.1 (htag ▸ List.mem_map_of_mem hm')

theorem firstOne_eq {rest : List Message} {tag : Nat} (hwaiting : l.waiting p = m :: rest)
    (htag : m.tag = tag) (isAck : Bool) :
    l.firstOne p tag isAck .ok =
      if isAck then { l with
        waiting := assign l.waiting p rest
        acking := l.acking ++ [some m] }
      else { l with
        waiting := assign l.waiting p rest
        delivered := l.delivered ++ [m] } := by
  simp [firstOne, hwaiting, htag]

theorem Inv.first_delivered (h : l.Inv kv queue v pending) (hp : v.queue.highest = some p) :
    (l.firstOne p (nextTag (v.queue.window p).sp) false .ok).Inv kv queue
      { v with queue := (v.queue.pop p).delivered v.now (ackTag p (nextTag (v.queue.window p).sp)) }
      pending := by
  obtain ⟨m, rest, hwaiting, htag, hname, hrest⟩ := h.waiting_cons hp
  have hm : m ∈ l.waiting p := by rw [hwaiting]; exact List.mem_cons_self
  obtain ⟨htags, hothers⟩ := h.pop hp hwaiting hrest
  obtain ⟨hnone, hnotimed, hpending⟩ := h.unused p m hm
  rw [firstOne_eq hwaiting htag, ← hname]
  simp only [Bool.false_eq_true, if_false]
  have hpop := h.valid.pop (Queue.highest_some hp).1
  have hunacked : ((v.queue.pop p).delivered v.now m.name).unacked =
      v.queue.unacked.insert m.name (v.now % 2 ^ 32) := by
    have hsame : (v.queue.pop p).unacked = v.queue.unacked := rfl
    simp only [Queue.delivered, hsame, hnone, Option.isSome_none, Bool.false_eq_true, if_false]
  have hredelivery {e : Nat × Bytes} : e ∈ ((v.queue.pop p).delivered v.now m.name).redelivery.entries ↔
        e = (v.now % 2 ^ 32, m.name) ∨ e ∈ v.queue.redelivery.entries := Multimap.mem_insert
  refine ⟨hpop.congr rfl rfl, htags, fun p' m' hm' => h.priori p' m' (hothers p' m' hm').1, ?_,
    fun m' hm' => ?_, fun m' hm' => ?_, fun p' m' hm' => ?_, fun m' hm' => ?_, fun m' hm' => ?_⟩
  · rw [List.map_append, List.nodup_append]
    refine ⟨h.nodup, List.nodup_singleton _, fun a ha b hb hab => ?_⟩
    obtain ⟨m', hm', rfl⟩ := List.mem_map.mp ha
    rw [List.map_singleton, List.mem_singleton] at hb
    exact h.name_ne_delivered hm hm' (hab.trans hb).symm
  · rw [hunacked, SortedMap.get?_insert]
    split
    · exact ⟨_, rfl⟩
    · rename_i hne
      rcases List.mem_append.mp hm' with hm' | hm'
      · exact h.unacked m' hm'
      · exact absurd (congrArg Message.name (List.mem_singleton.mp hm')) hne
  · rcases List.mem_append.mp hm' with hm' | hm'
    · obtain ⟨time, htime⟩ := h.timed m' hm'
      exact ⟨time, hredelivery.mpr (.inr htime)⟩
    · rw [List.mem_singleton.mp hm']
      exact ⟨_, hredelivery.mpr (.inl rfl)⟩
  · obtain ⟨hold, hne⟩ := hothers p' m' hm'
    obtain ⟨hnone', hnotimed', hpending'⟩ := h.unused p' m' hold
    refine ⟨?_, fun e he => ?_, hpending'⟩
    · rw [hunacked, SortedMap.get?_insert_of_ne _ _ hne]
      exact hnone'
    · rcases hredelivery.mp he with rfl | he
      · exact hne.symm
      · exact hnotimed' e he
  · rcases List.mem_append.mp hm' with hm' | hm'
    · exact h.apart m' hm'
    · rw [List.mem_singleton.mp hm']
      exact hpending
  · refine h.kept m' ?_
    rcases hm' with ⟨p', hm'⟩ | hm'
    · exact .inl ⟨p', (hothers p' m' hm').1⟩
    · rcases List.mem_append.mp hm' with hm' | hm'
      · exact .inr hm'
      · exact .inl ⟨p, List.mem_singleton.mp hm' ▸ hm⟩

theorem Inv.first_done (h : l.Inv kv queue v pending) (hp : v.queue.highest = some p) :
    (l.firstOne p (nextTag (v.queue.window p).sp) true .ok).Inv kv queue { v with queue := v.queue.pop p }
      (pending ++ [tagKey queue (ackTag p (nextTag (v.queue.window p).sp))]) := by
  obtain ⟨m, rest, hwaiting, htag, hname, hrest⟩ := h.waiting_cons hp
  have hm : m ∈ l.waiting p := by rw [hwaiting]; exact List.mem_cons_self
  obtain ⟨htags, hothers⟩ := h.pop hp hwaiting hrest
  rw [firstOne_eq hwaiting htag, ← hname]
  simp only [if_true]
  have hfree {name : Bytes} (hne : name ≠ m.name) (hold : tagKey queue name ∉ pending) :
      tagKey queue name ∉ pending ++ [tagKey queue m.name] := by
    rw [List.mem_append, List.mem_singleton, not_or]
    exact ⟨hold, fun hkey => hne (tagKey_inj hkey)⟩
  refine ⟨h.valid.pop (Queue.highest_some hp).1, htags,
    fun p' m' hm' => h.priori p' m' (hothers p' m' hm').1, h.nodup, h.unacked, h.timed,
    fun p' m' hm' => ?_, fun m' hm' => ?_, fun m' hm' => ?_⟩
  · obtain ⟨hold, hne⟩ := hothers p' m' hm'
    obtain ⟨hnone, hnotimed, hpending⟩ := h.unused p' m' hold
    exact ⟨hnone, hnotimed, hfree hne hpending⟩
  · exact hfree (h.name_ne_delivered hm hm').symm (h.apart m' hm')
  · refine h.kept m' ?_
    rcases hm' with ⟨p', hm'⟩ | hm'
    · exact .inl ⟨p', (hothers p' m' hm').1⟩
    · exact .inr hm'

variable {name : Bytes}

theorem Inv.mem_eraseP (h : l.Inv kv queue v pending)
    (hm : m ∈ l.delivered.eraseP (·.name = name)) : m ∈ l.delivered ∧ m.name ≠ name := by
  refine ⟨List.mem_of_mem_eraseP hm, fun hname => ?_⟩
  have hnodup := h.nodup
  generalize l.delivered = ms at hm hnodup
  induction ms with
  | nil => cases hm
  | cons m' ms ih =>
    rw [List.map_cons, List.nodup_cons] at hnodup
    by_cases hname' : m'.name = name
    · rw [List.eraseP_cons_of_pos (by simpa using hname')] at hm
      exact hnodup.1 (by rw [hname', ← hname]; exact List.mem_map_of_mem hm)
    · rw [List.eraseP_cons_of_neg (by simpa using hname')] at hm
      rcases List.mem_cons.mp hm with rfl | hm
      · exact hname' hname
      · exact ih hm hnodup.2

theorem mem_tail {q : Queue} {name name' : Bytes} {now time : Nat} (hdue : q.due now = some name)
    (hne : name' ≠ name) (hmem : (time, name') ∈ q.redelivery.entries) :
    (time, name') ∈ q.redelivery.tail.entries := by
  unfold Queue.due at hdue
  split at hdue
  · rename_i time' name'' rest hentries
    split_ifs at hdue
    cases hdue
    change (time, name') ∈ q.redelivery.entries.tail
    rw [hentries] at hmem ⊢
    rcases List.mem_cons.mp hmem with heq | hmem
    · exact absurd (Prod.mk.inj heq).2 hne
    · exact hmem
  · cases hdue

theorem due_mem {q : Queue} {now : Nat} (hdue : q.due now = some name) :
    ∃ time, (time, name) ∈ q.redelivery.entries := by
  unfold Queue.due at hdue
  split at hdue
  · rename_i time name' rest hentries
    split_ifs at hdue
    cases hdue
    exact ⟨time, by rw [hentries]; exact List.mem_cons_self⟩
  · cases hdue

section

variable (h : l.Inv kv queue v pending)
include h

theorem Inv.name_ne_due (hdue : v.queue.due v.now = some name) (hm : m ∈ l.waiting p) : m.name ≠ name := by
  obtain ⟨time, htime⟩ := due_mem hdue
  exact fun hname => (h.unused p m hm).2.1 _ htime hname.symm

theorem Inv.again_delivered (hdue : v.queue.due v.now = some name) :
    l.Inv kv queue { v with queue :=
      { v.queue with redelivery := v.queue.redelivery.tail }.delivered v.now name } pending := by
  have hredelivery {e : Nat × Bytes} : e ∈ (v.queue.redelivery.tail.insert (v.now % 2 ^ 32) name).entries ↔
        e = (v.now % 2 ^ 32, name) ∨ e ∈ v.queue.redelivery.tail.entries := Multimap.mem_insert
  have hunacked (name' : Bytes) : (name' ≠ name ∨ (v.queue.unacked.get? name').isSome) →
      (if (v.queue.unacked.get? name).isSome then v.queue.unacked
        else v.queue.unacked.insert name (v.now % 2 ^ 32)).get? name' = v.queue.unacked.get? name' := by
    intro hname'
    split
    · rfl
    · rename_i hnone
      refine SortedMap.get?_insert_of_ne _ _ ?_
      rintro rfl
      exact hname'.elim (fun hne => hne rfl) hnone
  refine ⟨h.valid.congr rfl rfl, h.tags, h.priori, h.nodup, fun m hm => ?_, fun m hm => ?_,
    fun p m hm => ?_, h.apart, h.kept⟩
  · obtain ⟨time, htime⟩ := h.unacked m hm
    exact ⟨time, (hunacked m.name (.inr (by rw [htime]; rfl))).trans htime⟩
  · by_cases hname : m.name = name
    · exact ⟨_, hredelivery.mpr (.inl (by rw [hname]))⟩
    · obtain ⟨time, htime⟩ := h.timed m hm
      exact ⟨time, hredelivery.mpr (.inr (mem_tail hdue hname htime))⟩
  · have hne := h.name_ne_due hdue hm
    obtain ⟨hnone, hnotimed, hpending⟩ := h.unused p m hm
    refine ⟨(hunacked m.name (.inl hne)).trans hnone, fun e he => ?_, hpending⟩
    rcases hredelivery.mp he with rfl | he
    · exact hne.symm
    · exact hnotimed e (Multimap.mem_of_mem_tail he)

theorem Inv.again_failed
    (hdue : v.queue.due v.now = some name) (hbody : kv.body v.storage (tagKey queue name) = none) :
    l.Inv kv queue { v with queue := { v.queue with redelivery := v.queue.redelivery.tail } }
      pending := by
  refine ⟨h.valid.congr rfl rfl, h.tags, h.priori, h.nodup, h.unacked, fun m hm => ?_,
    fun p m hm => ?_, h.apart, h.kept⟩
  · obtain ⟨time, htime⟩ := h.timed m hm
    refine ⟨time, mem_tail hdue (fun hname => ?_) htime⟩
    have hkept := h.kept m (.inr hm)
    rw [hname, hbody] at hkept
    cases hkept
  · obtain ⟨hnone, hnotimed, hpending⟩ := h.unused p m hm
    exact ⟨hnone, fun e he => hnotimed e (Multimap.mem_of_mem_tail he), hpending⟩

theorem Inv.acknowledge {name : Bytes} {q : Queue} (hwindow : q.stat = v.queue.stat)
    (hwaiting : ∀ p, ∀ m ∈ l.waiting p, m.name ≠ name)
    (hunacked : ∀ name' ≠ name, q.unacked.get? name' = v.queue.unacked.get? name')
    (htimed : ∀ time, ∀ name' ≠ name, (time, name') ∈ v.queue.redelivery.entries →
      (time, name') ∈ q.redelivery.entries)
    (hsub : ∀ e ∈ q.redelivery.entries, e ∈ v.queue.redelivery.entries) :
    (l.acknowledge name).Inv kv queue { v with queue := q } (pending ++ [tagKey queue name]) := by
  have hfree {name' : Bytes} (hne : name' ≠ name) (hold : tagKey queue name' ∉ pending) :
      tagKey queue name' ∉ pending ++ [tagKey queue name] := by
    rw [List.mem_append, List.mem_singleton, not_or]
    exact ⟨hold, fun hkey => hne (tagKey_inj hkey)⟩
  have hsame : q.window = v.queue.window := by
    funext p
    rw [Queue.window, hwindow, ← Queue.window]
  refine ⟨h.valid.congr (congrArg _ hwindow) (congrArg _ hwindow), fun p => ?_, h.priori, ?_,
    fun m hm => ?_, fun m hm => ?_, fun p m hm => ?_, fun m hm => ?_, fun m hm => ?_⟩
  · rw [Queue.tags, hsame, ← Queue.tags]
    exact h.tags p
  · exact h.nodup.sublist (List.eraseP_sublist.map _)
  · obtain ⟨hm, hne⟩ := h.mem_eraseP hm
    rw [hunacked m.name hne]
    exact h.unacked m hm
  · obtain ⟨hm, hne⟩ := h.mem_eraseP hm
    obtain ⟨time, htime⟩ := h.timed m hm
    exact ⟨time, htimed time m.name hne htime⟩
  · obtain ⟨hnone, hnotimed, hpending⟩ := h.unused p m hm
    have hne := hwaiting p m hm
    exact ⟨(hunacked m.name hne).trans hnone, fun e he => hnotimed e (hsub e he), hfree hne hpending⟩
  · obtain ⟨hm, hne⟩ := h.mem_eraseP hm
    exact hfree hne (h.apart m hm)
  · exact h.kept m (hm.imp id fun hm => (h.mem_eraseP hm).1)

theorem Inv.again_done (hdue : v.queue.due v.now = some name) : (l.acknowledge name).Inv kv queue
      { v with queue := { v.queue with redelivery := v.queue.redelivery.tail } }
      (pending ++ [tagKey queue name]) :=
  h.acknowledge rfl (fun _ _ hm => h.name_ne_due hdue hm) (fun _ _ => rfl)
    (fun _ _ hne => mem_tail hdue hne) fun _ => Multimap.mem_of_mem_tail

theorem Inv.acked {token : Bytes} {time : Nat} (hunacked : v.queue.unacked.get? token = some time) :
    (l.acknowledge token).Inv kv queue { v with queue := v.queue.acked token time }
      (pending ++ [tagKey queue token]) := by
  refine h.acknowledge rfl (fun p m hm hname => ?_) (fun name' hne => SortedMap.get?_erase_of_ne _ hne)
    (fun time' name' hne => Multimap.mem_erase_of_ne hne) fun _ => Multimap.mem_of_mem_erase
  rw [← hname, (h.unused p m hm).1] at hunacked
  cases hunacked

end

theorem Inv.finish (hkv : kv.Lawful) (h : l.Inv kv queue v pending) {i : Nat} {key : Bytes}
    (hkey : pending[i]? = some key) (r : Rc) :
    (l.finishOne i r).Inv kv queue { v with storage := (kv.del v.storage key).2 } (pending.eraseIdx i) := by
  have hmem : key ∈ pending := List.mem_of_getElem? hkey
  have hsub {k : Bytes} (hk : k ∉ pending) : k ∉ pending.eraseIdx i :=
    fun hk' => hk (List.mem_of_mem_eraseIdx hk')
  refine ⟨h.valid, h.tags, h.priori, h.nodup, h.unacked, h.timed, fun p m hm => ?_,
    fun m hm => hsub (h.apart m hm), fun m hm => ?_⟩
  · obtain ⟨hnone, hnotimed, hpending⟩ := h.unused p m hm
    exact ⟨hnone, hnotimed, hsub hpending⟩
  · rw [hkv.del, if_neg]
    · exact h.kept m hm
    · rintro rfl
      rcases hm with ⟨p, hm⟩ | hm
      · exact (h.unused p m hm).2.2 hmem
      · exact h.apart m hm hmem

theorem Inv.removed (h : l.Inv kv queue v pending) (hleft : v.queue.left p = 0)
    (hunacked : v.queue.unacked.entries = []) (storage : σ) :
    (l.purgeOne p).Inv kv queue ⟨.fresh conf .queueTb, storage, v.now⟩ pending := by
  have hdelivered : l.delivered = [] := by
    refine List.eq_nil_iff_forall_not_mem.mpr fun m hm => ?_
    obtain ⟨time, htime⟩ := h.unacked m hm
    rw [SortedMap.get?, hunacked] at htime
    cases htime
  have hempty (p' : Fin 3) : (l.purgeOne p).waiting p' = [] := by
    by_cases hp : p' = p
    · rw [hp]
      exact assign_self _
    · have hzero : (v.queue.tags p').length = 0 := by
        rw [Queue.length_tags, ← h.valid.ready_eq]
        exact (h.valid.left_eq_zero p).mp hleft p' hp
      rw [← h.tags p', List.length_map, List.length_eq_zero_iff] at hzero
      exact (assign_of_ne hp _).trans hzero
  have hgone {m : Message} (hm : m ∈ (l.purgeOne p).delivered) : False := by
    have hm : m ∈ l.delivered := hm
    rw [hdelivered] at hm
    cases hm
  have hnone {p' : Fin 3} {m : Message} (hm : m ∈ (l.purgeOne p).waiting p') : False := by
    rw [hempty] at hm
    cases hm
  refine ⟨Queue.valid_fresh conf, fun p' => ?_, fun _ _ hm => (hnone hm).elim, ?_,
    fun _ hm => (hgone hm).elim, fun _ hm => (hgone hm).elim, fun _ _ hm => (hnone hm).elim,
    fun _ hm => (hgone hm).elim, fun m hm => ?_⟩
  · rw [hempty]
    exact (Ring.window_self cycle_pos).symm
  · have hsame : (l.purgeOne p).delivered = [] := hdelivered
    rw [hsame]
    exact List.nodup_nil
  · rcases hm with ⟨p', hm⟩ | hm
    · exact (hnone hm).elim
    · exact (hgone hm).elim

theorem Inv.emptied (hkv : kv.Lawful) (h : l.Inv kv queue v pending) (p : Fin 3) :
    (l.purgeOne p).Inv kv queue ⟨v.queue.setWindow p ⟨0, 0⟩,
      Mq.purgeBodies kv v.storage queue p (Queue.purgeTags (v.queue.window p)), v.now⟩ pending := by
  have hold {p' : Fin 3} {m : Message} (hm : m ∈ (l.purgeOne p).waiting p') :
      p' ≠ p ∧ m ∈ l.waiting p' := by
    by_cases hp : p' = p
    · subst hp
      simp only [purgeOne, assign_self, List.not_mem_nil] at hm
    · simp only [purgeOne, assign_of_ne hp] at hm
      exact ⟨hp, hm⟩
  refine ⟨h.valid.reset p, fun p' => ?_, fun p' m hm => h.priori p' m (hold hm).2, h.nodup, h.unacked,
    h.timed, fun p' m hm => h.unused p' m (hold hm).2, h.apart, fun m hm => ?_⟩
  · by_cases hp : p' = p
    · subst hp
      rw [Queue.tags, Queue.window_setWindow_self, Ring.window_self cycle_pos]
      simp only [purgeOne, assign_self, List.map_nil]
    · rw [Queue.tags, Queue.window_setWindow_of_ne hp, ← Queue.tags, ← h.tags p']
      simp only [purgeOne, assign_of_ne hp]
  · -- The purged tags are names of messages that wait at this priority.
    rw [Mq.body_purgeBodies hkv, h.valid.purgeTags_eq, if_neg]
    · refine h.kept m (hm.imp_left ?_)
      rintro ⟨p', hm⟩
      exact ⟨p', (hold hm).2⟩
    · rintro ⟨tag, htag, hkey⟩
      rw [queueKey_eq] at hkey
      have hname := tagKey_inj hkey
      rcases hm with ⟨p', hm⟩ | hm
      · have hlt := Ring.lt_of_mem_window (h.valid.sp_lt p) htag
        exact (hold hm).1 (h.name_eq (hold hm).2 hlt hname).1
      · rw [← h.tags p] at htag
        obtain ⟨m', hm', rfl⟩ := List.mem_map.mp htag
        refine h.name_ne_delivered hm' hm ?_
        rw [hname, Message.name, h.priori p m' hm']

theorem Inv.set (h : l.Inv kv queue v pending) {q : Queue} (hq : Mq.SameDeliveries v.queue q) :
    l.Inv kv queue { v with queue := q } pending := by
  have hunused {name : Bytes} (hname : v.queue.Unused queue pending name) :
      q.Unused queue pending name := by
    rw [Queue.Unused, hq.unacked, hq.redelivery]
    exact hname
  refine ⟨h.valid.congr hq.window hq.type, fun p => ?_, h.priori, h.nodup, fun m hm => ?_,
    fun m hm => ?_, fun p m hm => hunused (h.unused p m hm), h.apart, h.kept⟩
  · rw [Queue.tags, Queue.window, hq.window]
    exact h.tags p
  · simp only [hq.unacked]
    exact h.unacked m hm
  · simp only [hq.redelivery]
    exact h.timed m hm

variable {reply : Mq.GetReply}

theorem getOne_due (hne : reply.ack ≠ []) (hdue : v.queue.due v.now = some name) (isAck : Bool) :
    l.getOne v isAck reply = if isAck ∧ reply.r = .ok then l.acknowledge name else l := by
  simp only [getOne, if_neg hne, hdue]

theorem getOne_first (hne : reply.ack ≠ [])
    (hdue : v.queue.due v.now = none) (hp : v.queue.highest = some p) (isAck : Bool) :
    l.getOne v isAck reply = l.firstOne p (nextTag (v.queue.window p).sp) isAck reply.r := by
  simp only [getOne, if_neg hne, hdue, hp]

theorem Inv.get (h : l.Inv kv queue v pending) {isAck : Bool} {v' : Mq.View σ}
    (hcases : Mq.GetCases kv queue v isAck reply v') :
    (l.getOne v isAck reply).Inv kv queue v' (if isAck ∧ reply.r = .ok then pending ++ [reply.ack] else pending) := by
  cases hcases with
  | idle => simpa [getOne] using h
  | failed tag q e _ htake hget =>
    have hbody : kv.body v.storage (tagKey queue tag) = none := by
      cases hbody : kv.body v.storage (tagKey queue tag) with
      | none => rfl
      | some body =>
        rw [Kv.get_of_body hbody] at hget
        cases hget
    rcases Queue.take_cases htake with ⟨hdue, rfl⟩ | ⟨p, hdue, hp, rfl, rfl⟩
    · rw [getOne_due (tagKey_ne_nil _ _) hdue]
      simpa using h.again_failed hdue hbody
    · -- The body of a message that waits can be read.
      obtain ⟨m, rest, hwaiting, -, hname, -⟩ := h.waiting_cons hp
      have hkept := h.kept m (.inl ⟨p, by rw [hwaiting]; exact List.mem_cons_self⟩)
      rw [hname, hbody] at hkept
      cases hkept
  | done tag q body _ htake _ hack =>
    subst hack
    simp only [and_self, if_true]
    rcases Queue.take_cases htake with ⟨hdue, rfl⟩ | ⟨p, hdue, hp, rfl, rfl⟩
    · rw [getOne_due (tagKey_ne_nil _ _) hdue, if_pos ⟨rfl, rfl⟩]
      exact h.again_done hdue
    · rw [getOne_first (tagKey_ne_nil _ _) hdue hp]
      exact h.first_done hp
  | delivered tag q body _ htake _ hack =>
    subst hack
    simp only [Bool.false_eq_true, false_and, if_false]
    rcases Queue.take_cases htake with ⟨hdue, rfl⟩ | ⟨p, hdue, hp, rfl, rfl⟩
    · rw [getOne_due (tagKey_ne_nil _ _) hdue]
      simpa using h.again_delivered hdue
    · rw [getOne_first (tagKey_ne_nil _ _) hdue hp]
      exact h.first_delivered hp

end Ledger

theorem MqOp.Cases.inv (hkv : kv.Lawful) {v v' : Mq.View σ} {pending pending' : List Bytes}
    {op : MqOp} {reply : MqReply} {l : Ledger}
    (hcases : MqOp.Cases kv conf queue v pending op reply v' pending')
    (hsafe : op.SafeIn queue v.queue pending) (h : l.Inv kv queue v pending) :
    (l.record v op reply).Inv kv queue v' pending' := by
  cases hcases with
  | put hput => cases hput with
    | refused => exact h
    | failed p e hput =>
      refine ⟨h.valid, h.tags, h.priori, h.nodup, h.unacked, h.timed, h.unused, h.apart, fun m hm => ?_⟩
      have hunchanged : kv.body (Mq.putBody kv queue v _ p).2 (tagKey queue m.name) = _ :=
        hkv.put_err _ _ _ _ _ (by rw [← Mq.putBody, hput]; simp) _
      rw [hunchanged]
      exact h.kept m hm
    | accepted p hp _ hroom hput =>
      subst hp
      simp only [Ledger.record, p.isLt, dif_pos]
      exact h.put hkv hroom (hsafe p rfl) hput
  | get hget => exact h.get hget
  | notAcked => exact h
  | acked _ hunacked => exact h.acked hunacked
  | finish hkey => exact h.finish hkv hkey _
  | idle => exact h
  | purge hpurge => cases hpurge with
    | idle => exact h
    | removed p hp _ hleft =>
      subst hp
      simp only [Ledger.record, p.isLt, dif_pos]
      exact h.removed hleft (hsafe p rfl hleft) _
    | emptied p hp =>
      subst hp
      simp only [Ledger.record, p.isLt, dif_pos]
      exact h.emptied hkv p
  | set hset hq =>
    rw [Ledger.record_setting hset]
    exact h.set hq
  | tick => exact ⟨h.valid, h.tags, h.priori, h.nodup, h.unacked, h.timed, h.unused, h.apart, h.kept⟩
  | threshold => exact h

theorem Ledger.inv_empty {s : Mq σ} (hnew : s.queues.get? queue = none) (pending : List Bytes) :
    Ledger.empty.Inv kv queue (s.view conf queue) pending := by
  have hqueue : s.queueOf conf queue = .fresh conf .queueTb := queueOf_new hnew
  refine ⟨?_, fun p => ?_, fun _ _ hm => (List.not_mem_nil hm).elim, List.nodup_nil,
    fun _ hm => (List.not_mem_nil hm).elim, fun _ hm => (List.not_mem_nil hm).elim,
    fun _ _ hm => (List.not_mem_nil hm).elim, fun _ hm => (List.not_mem_nil hm).elim, fun m hm => ?_⟩
  · rw [Mq.view_queue, hqueue]
    exact Queue.valid_fresh conf
  · rw [Mq.view_queue, hqueue]
    exact (Ring.window_self cycle_pos).symm
  · rcases hm with ⟨_, hm⟩ | hm
    · exact (List.not_mem_nil hm).elim
    · exact (List.not_mem_nil hm).elim

theorem Ledger.inv_run (hkv : kv.Lawful) {s : MqRun σ} (hnew : s.server.queues.get? queue = none)
    {ops : List MqOp} (hsafe : Run.Guarded (MqOp.step kv conf queue) (MqOp.Safe conf queue) s ops) :
    let out := Run.exec (Ledger.step kv conf queue) (s, .empty) ops
    out.2.Inv kv queue (out.1.server.view conf queue) out.1.pending := by
  have hguard : Run.Guarded (Ledger.step kv conf queue) (fun s => MqOp.Safe conf queue s.1) (s, .empty) ops :=
    Run.Guarded.lift (f := Prod.fst) (fun _ _ => rfl) (t := (s, Ledger.empty)) hsafe
  exact hguard.invariant (P := fun s => s.2.Inv kv queue (s.1.server.view conf queue) s.1.pending)
    (fun s op hs hop => (MqOp.cases s.1 hs.valid.type op).inv hkv hop hs)
    (Ledger.inv_empty hnew s.pending)

/-- In every run whose puts take unused tags, and whose purges do not remove a queue with outstanding
deliveries, every live message has its body, and no two live messages have the same place. -/
theorem live_bodies_are_kept (hkv : kv.Lawful) (conf : MqConf) (queue : Bytes) (s : MqRun σ)
    (hnew : s.server.queues.get? queue = none) (ops : List MqOp)
    (hsafe : Run.Guarded (MqOp.step kv conf queue) (MqOp.Safe conf queue) s ops) :
    let out := Run.exec (Ledger.step kv conf queue) (s, .empty) ops
    (∀ m ∈ out.2.live, kv.body out.1.server.storage (queueKey queue m.priori m.tag) = some ⟨m.item, 0⟩) ∧
    (out.2.live.map fun m => (m.priori, m.tag)).Nodup := by
  intro out
  have hinv : out.2.Inv kv queue (out.1.server.view conf queue) out.1.pending :=
    Ledger.inv_run hkv hnew hsafe
  refine ⟨fun m hm => ?_, hinv.live_nodup⟩
  rw [queueKey_eq]
  exact hinv.kept m (Ledger.mem_live.mp hm)

def threeKeys : List Md5db.Address :=
  [⟨[], queueKey (ascii "q") 0 1⟩, ⟨[], queueKey (ascii "q") 0 2⟩, ⟨[], queueKey (ascii "q") 2 1⟩]

theorem injOn_threeKeys : Set.InjOn (Md5db.Address.digest Md5.md5) {a | a ∈ threeKeys} :=
  Md5db.Address.injOn_digest (by decide +kernel)

/-- The queues over a new store. -/
def storedMq : MqRun (Shadowed Md5.md5 threeKeys) :=
  ⟨⟨.create _ _ _ Md5db.Config.valid_small, .empty, 1000, false⟩, []⟩

theorem live_bodies_are_kept_three_puts :
    let kv := Shadowed.kv injOn_threeKeys (by decide)
    let out := Run.exec (Ledger.step kv smallMqConf (ascii "q")) (storedMq, .empty) threePuts
    out.1.server.storage.sound ∧ out.2.live.length = 3 ∧ ∀ m ∈ out.2.live,
      kv.body out.1.server.storage (queueKey (ascii "q") m.priori m.tag) = some ⟨m.item, 0⟩ :=
  ⟨by decide +kernel, by decide +kernel, (live_bodies_are_kept (Shadowed.kv_lawful _ _) smallMqConf (ascii "q")
    storedMq rfl threePuts (by decide +kernel)).1⟩

/-- A delivery is outstanding while a purge sets the counters of its priority back. The next message
gets the same tag, and the acknowledgement of the old one deletes its body. -/
def purgeWhileUnacked : List MqOp :=
  [.put (ascii "a") 0, .get (ascii "worker") false, .put (ascii "b") 1, .purge 0,
    .put (ascii "d") 0, .ack (ascii "0:1"), .finish 0]

theorem purge_while_unacked_loses_a_body :
    let out := Run.exec (Ledger.step Kv.memory smallMqConf (ascii "q")) (smallMq, .empty)
      purgeWhileUnacked
    ∃ m ∈ out.2.live, m.item = ascii "d" ∧
      Kv.memory.body out.1.server.storage (queueKey (ascii "q") m.priori m.tag) = none := by
  decide +kernel

/-! ### A body that cannot be read

`hustmq_get` takes the message off its queue before it reads the body, and does not put it back. -/

def Mq.offer (conf : MqConf) (s : Mq σ) (queue worker : Bytes) : Option Bytes :=
  if !tbNameCheck queue ∨ worker.length ≤ minWorkerLen ∨ worker.length > maxWorkerLen then none
  else (s.findQueue conf queue false .queueTb).1.bind fun q => (q.take s.now).map Prod.fst

theorem nextTag_ne_self (t : Nat) : nextTag t ≠ t := by
  intro h
  have hlt := nextTag_lt t
  rw [h] at hlt
  simp only [nextTag, cycleQueueItemNum] at h hlt
  omega

theorem Queue.not_sameDeliveries_take {q q' : Queue} {now : Nat} {tag : Bytes}
    (h : q.take now = some (tag, q')) : ¬ Mq.SameDeliveries q q' := by
  intro hsame
  unfold take at h
  cases hdue : q.due now with
  | some tag' =>
    rw [hdue] at h
    obtain ⟨-, rfl⟩ := Prod.mk.inj (Option.some.inj h)
    have hentries : q.redelivery.entries.tail = q.redelivery.entries :=
      congrArg Multimap.entries hsame.redelivery
    unfold due at hdue
    cases hlist : q.redelivery.entries with
    | nil =>
      rw [hlist] at hdue
      cases hdue
    | cons entry rest =>
      rw [hlist, List.tail_cons] at hentries
      exact absurd (congrArg List.length hentries) (by simp)
  | none =>
    rw [hdue] at h
    obtain ⟨p, -, hpop⟩ := Option.map_eq_some_iff.mp h
    obtain ⟨-, rfl⟩ := Prod.mk.inj hpop
    have hwindow : (q.pop p).window p = q.window p := congrFun hsame.window p
    rw [pop, window_setWindow_self] at hwindow
    exact nextTag_ne_self _ (congrArg Window.sp hwindow)

/-- A get that takes a message and cannot read its body reports the error of the storage, and the
message is gone: a counter has moved, or the multimap has lost its entry. -/
theorem unreadable_body_is_taken (kv : Kv σ) (conf : MqConf) (s : Mq σ) (queue worker : Bytes)
    (isAck : Bool) (tag : Bytes) (htag : s.offer conf queue worker = some tag) (e : Errno)
    (hread : (kv.get s.storage (tagKey queue tag)).1 = .err e) :
    (s.hustmqGet kv conf queue worker isAck).1.r = .err e ∧
    ¬ Mq.SameDeliveries (s.queueOf conf queue) ((s.hustmqGet kv conf queue worker isAck).2.queueOf conf queue) := by
  unfold Mq.offer at htag
  split_ifs at htag with hargs
  rcases s.findQueue_cases conf queue .queueTb with hfind | hfind
  · rw [hfind] at htag
    cases htag
  rw [hfind] at htag
  obtain ⟨⟨tag', q⟩, htake, rfl⟩ := Option.map_eq_some_iff.mp htag
  obtain ⟨r, body, hget⟩ : ∃ r body, kv.get s.storage (tagKey queue tag') = (r, body) := ⟨_, _, rfl⟩
  obtain rfl : r = .err e := by rwa [hget] at hread
  have hout : s.hustmqGet kv conf queue worker isAck =
      (⟨.err e, tagKey queue tag', [], []⟩, s.setQueue queue q) := by
    simp only [Mq.hustmqGet, if_neg hargs, hfind, htake, Mq.deliver, hget]
  rw [hout]
  refine ⟨rfl, ?_⟩
  have hafter : (s.setQueue queue q).queueOf conf queue = q := congrArg Mq.View.queue (Mq.view_setQueue q)
  rw [hafter]
  exact Queue.not_sameDeliveries_take htake

def Kv.unreadable : Kv (Bytes → Option Body) :=
  { Kv.memory with get := fun _ _ => (.err .EFAULT, ⟨[], 0⟩) }

def oneMessage : Mq (Bytes → Option Body) :=
  (smallMq.server.hustmqPut Kv.memory smallMqConf (ascii "q") (ascii "a") 0).2

theorem unreadable_body_is_taken_once :
    (oneMessage.hustmqGet Kv.unreadable smallMqConf (ascii "q") (ascii "worker") false).1.r =
      .err .EFAULT :=
  (unreadable_body_is_taken Kv.unreadable smallMqConf oneMessage (ascii "q") (ascii "worker") false
    (ascii "0:1") (by decide +kernel) .EFAULT rfl).1

/-- One read fails while the body is in place. The next get finds no message, although it would have
delivered this one before. -/
theorem failed_read_loses_a_message :
    let s := oneMessage
    let lost := (s.hustmqGet Kv.unreadable smallMqConf (ascii "q") (ascii "worker") false).2
    (s.hustmqGet Kv.memory smallMqConf (ascii "q") (ascii "worker") false).1.rsp = ascii "a" ∧
    (s.hustmqGet Kv.unreadable smallMqConf (ascii "q") (ascii "worker") false).1.r = .err .EFAULT ∧
    Kv.memory.body lost.storage (ascii "q|0:1") = some ⟨ascii "a", 0⟩ ∧
    (lost.hustmqGet Kv.memory smallMqConf (ascii "q") (ascii "worker") false).1.r = .err .ENOENT := by
  decide +kernel

end HustStore
