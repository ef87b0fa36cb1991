import HustStore.MqHa.DoGet

/-!
# From a task to its end

A request that is accepted keeps a slot until it is finalized, by a result or by the timer of the slot. The
slots are always in one of the three queues.
-/

namespace HustStore.MqHa

namespace Pool

def busy (s : Pool) : List Nat := s.unassigned ++ s.assigned

def pending (s : Pool) : List Nat := s.busy.filterMap fun i => (s.slots i).request

/-- `__do_get` returns true. -/
def accepts (maxBody : Nat) (s : Pool) (queue : Option Bytes) (body : Bytes) : Bool :=
  !(body.length < 1 ∨ maxBody < body.length) && queue.isSome && !s.free.isEmpty

/-- The request in a slot that is finalized. -/
def finalizes (maxBody : Nat) (s : Pool) : Event → Option Nat
  | .reply token _ body => s.replyTo maxBody token body
  | .getTimeout i => if (s.slots i).timer then (s.slots i).request else none
  | .doGet _ _ _ | .claim _ | .postTimeout _ => none

end Pool

/-- A process, with the requests that it has accepted and those that it has finalized. -/
structure Trace where
  pool : Pool
  accepted : List Nat
  finalized : List Nat

namespace Trace

def start (base slots workers : Nat) : Trace := ⟨.init base slots workers, [], []⟩

def accept (maxBody : Nat) (t : Trace) : Event → List Nat
  | .doGet queue body _ =>
    if t.pool.accepts maxBody queue body then t.pool.arrived :: t.accepted else t.accepted
  | .claim _ | .reply _ _ _ | .getTimeout _ | .postTimeout _ => t.accepted

def step (maxBody : Nat) (t : Trace) (event : Event) : Trace :=
  ⟨t.pool.step maxBody event, t.accept maxBody event, (t.pool.finalizes maxBody event).toList ++ t.finalized⟩

/-- Every slot is in one of the queues. -/
structure Lifecycle (slots : Nat) (t : Trace) : Prop where
  placed : (t.pool.busy ++ t.pool.free).Perm (List.range slots)
  token : ∀ token i, t.pool.doTaskDict token = some i ↔ token = t.pool.token i ∧ i ∈ t.pool.busy
  once : (t.finalized ++ t.pool.pending).Perm t.accepted
  distinct : t.accepted.Nodup

/-- The timer of a slot is set as long as a request waits in it. -/
def Timed (t : Trace) : Prop := ∀ i, (t.pool.slots i).timer = true ↔ i ∈ t.pool.busy

/-- What the steps keep. The timers are no part of the lifecycle, but which of them are set decides what a timeout
does. -/
structure Clocked (slots : Nat) (t : Trace) : Prop extends Lifecycle slots t where
  timed : t.Timed

/-- No timer of a slot goes off. -/
def InTime (t : Trace) : Event → Prop
  | .getTimeout i => (t.pool.slots i).timer = false
  | .doGet _ _ _ | .claim _ | .reply _ _ _ | .postTimeout _ => True

def Known (t : Trace) : Prop := t.pool.Inv ∧ ∀ r ∈ t.accepted, r < t.pool.arrived

variable {slots maxBody i : Nat} {t : Trace}

theorem clocked_start (base slots workers : Nat) : Clocked slots (start base slots workers) where
  placed := List.reverse_perm _
  token i hi := by simp [start, Pool.init, Pool.busy]
  once := .refl _
  distinct := .nil
  timed i := by simp [start, Pool.init, Pool.busy]

theorem erase_append_of_nodup {l r : List Nat} (h : (l ++ r).Nodup) (i : Nat) :
    l.erase i ++ r.erase i = (l ++ r).erase i := by
  by_cases hi : i ∈ l
  · rw [List.erase_append_left _ hi, List.erase_of_not_mem (List.disjoint_of_nodup_append h hi)]
  · rw [List.erase_append_right _ hi, List.erase_of_not_mem hi]

theorem dispatchDoTask_frame {s s' : Pool} {sends : Bool} (h : s.dispatchDoTask i sends = some s') :
    s' = { s with executers := s'.executers, cacheWorker := s'.cacheWorker, freeWorker := s'.freeWorker,
                  handouts := s'.handouts } := by
  unfold Pool.dispatchDoTask at h
  split at h
  · cases h
  · split at h
    · cases h
      rfl
    · cases h

namespace Lifecycle

variable (h : Lifecycle slots t)
include h

theorem nodup : (t.pool.busy ++ t.pool.free).Nodup := h.placed.nodup_iff.mpr List.nodup_range

theorem busy_nodup : t.pool.busy.Nodup := h.nodup.of_append_left

theorem not_free (hi : i ∈ t.pool.busy) : i ∉ t.pool.free := List.disjoint_of_nodup_append h.nodup hi

theorem dict_assign (o : Option Nat) {token j : Nat} : assign t.pool.doTaskDict (t.pool.token i) o token = some j ↔
      token = t.pool.token i ∧ o = some j ∨ token ≠ t.pool.token i ∧ token = t.pool.token j ∧ j ∈ t.pool.busy := by
  by_cases htoken : token = t.pool.token i
  · simp [htoken]
  · simp [htoken, assign_of_ne htoken, h.token]

end Lifecycle

namespace Clocked

variable (h : Clocked slots t)
include h

theorem shift {p : Pool} (hslots : ∀ j, (p.slots j).request = (t.pool.slots j).request ∧
      (p.slots j).timer = (t.pool.slots j).timer)
    (hbusy : p.busy.Perm t.pool.busy) (hfree : p.free = t.pool.free)
    (hdict : p.doTaskDict = t.pool.doTaskDict) (htoken : p.token = t.pool.token) :
    Clocked slots ⟨p, t.accepted, t.finalized⟩ where
  placed := by
    rw [hfree]
    exact (hbusy.append_right _).trans h.placed
  token token j := by
    rw [hdict, htoken, hbusy.mem_iff]
    exact h.token token j
  timed j := by
    rw [(hslots j).2, hbusy.mem_iff]
    exact h.timed j
  once := by
    have hpending : p.pending.Perm t.pool.pending := by
      simp only [Pool.pending, hslots]
      exact hbusy.filterMap _
    exact (hpending.append_left _).trans h.once
  distinct := h.distinct

theorem occupy {rest : List Nat} (hfree : t.pool.free = i :: rest)
    (hknown : ∀ r ∈ t.accepted, r < t.pool.arrived) (queue body : Bytes) :
    Clocked slots ⟨(t.pool.occupy i rest queue body).setTimer i true, t.pool.arrived :: t.accepted,
      t.finalized⟩ := by
  have hnodup := h.nodup
  rw [hfree] at hnodup
  have hnew : i ∉ t.pool.busy := fun hi => List.disjoint_of_nodup_append hnodup hi List.mem_cons_self
  have hslot : ((t.pool.occupy i rest queue body).setTimer i true).slots i =
      ⟨some t.pool.arrived, ⟨t.pool.arrived, queue, body⟩, true⟩ := by
    simp [Pool.occupy, Pool.setTimer]
  have hslots (j : Nat) (hj : j ≠ i) : ((t.pool.occupy i rest queue body).setTimer i true).slots j = t.pool.slots j :=
    (assign_of_ne hj _).trans (assign_of_ne hj _)
  refine ⟨⟨?_, ?_, ?_, ?_⟩, ?_⟩
  · show (i :: t.pool.busy ++ rest).Perm _
    refine List.perm_middle.symm.trans ?_
    rw [← hfree]
    exact h.placed
  · intro token j
    refine (h.dict_assign (some i)).trans ⟨?_, ?_⟩
    · rintro (⟨rfl, ⟨⟩⟩ | ⟨-, htoken, hj⟩)
      · exact ⟨rfl, List.mem_cons_self⟩
      · exact ⟨htoken, List.mem_cons_of_mem i hj⟩
    · rintro ⟨rfl, hj⟩
      rcases List.mem_cons.mp hj with rfl | hj
      · exact .inl ⟨rfl, rfl⟩
      · exact .inr ⟨fun heq => hnew (Nat.add_left_cancel heq ▸ hj), rfl, hj⟩
  · have hsame : t.pool.busy.filterMap (fun j =>
        (((t.pool.occupy i rest queue body).setTimer i true).slots j).request) = t.pool.pending := by
      refine List.filterMap_congr fun j hj => ?_
      rw [hslots j fun heq => hnew (heq ▸ hj)]
    show (t.finalized ++ (i :: t.pool.busy).filterMap _).Perm _
    rw [List.filterMap_cons, hslot, hsame]
    exact List.perm_middle.trans (h.once.cons _)
  · exact List.nodup_cons.mpr ⟨fun hmem => Nat.lt_irrefl _ (hknown _ hmem), h.distinct⟩
  · intro j
    show _ ↔ j ∈ i :: t.pool.busy
    rw [List.mem_cons]
    by_cases hji : j = i
    · simp [hji, hslot]
    · rw [hslots j hji, h.timed j, or_iff_right hji]

theorem timed_erase {p : Pool} (hslots : p.slots = assign t.pool.slots i { t.pool.slots i with timer := false })
    (hbusy : p.busy = t.pool.busy.erase i) {accepted finalized : List Nat} :
    Timed ⟨p, accepted, finalized⟩ := by
  intro j
  show (p.slots j).timer = true ↔ j ∈ p.busy
  rw [hslots, hbusy]
  by_cases hji : j = i
  · simp [hji, h.busy_nodup.not_mem_erase]
  · rw [assign_of_ne hji, h.timed j, List.mem_erase_of_ne hji]

theorem release (hi : i ∈ t.pool.busy) {r : Nat} (hr : (t.pool.slots i).request = some r)
    {p : Pool} (hslots : p.slots = assign t.pool.slots i { t.pool.slots i with timer := false })
    (hbusy : p.busy = t.pool.busy.erase i) (hfree : p.free = i :: t.pool.free)
    (hdict : p.doTaskDict = assign t.pool.doTaskDict (t.pool.token i) none)
    (htoken : p.token = t.pool.token) : Clocked slots ⟨p, t.accepted, r :: t.finalized⟩ := by
  have hrequest (j : Nat) : (p.slots j).request = (t.pool.slots j).request := by
    rw [hslots]
    exact (Pool.request_setTimer t.pool i false j).1
  have hperm : t.pool.busy.Perm (i :: t.pool.busy.erase i) := List.perm_cons_erase hi
  refine ⟨⟨?_, ?_, ?_, ?_⟩, ?_⟩
  · rw [hbusy, hfree]
    exact (List.perm_middle.trans (hperm.symm.append_right _)).trans h.placed
  · intro token j
    rw [hdict, htoken, hbusy]
    refine (h.dict_assign none).trans ⟨?_, ?_⟩
    · rintro (⟨-, ⟨⟩⟩ | ⟨hne, rfl, hj⟩)
      exact ⟨rfl, (List.mem_erase_of_ne fun heq => hne (congrArg t.pool.token heq)).mpr hj⟩
    · rintro ⟨rfl, hj⟩
      have hji : j ≠ i := by
        rintro rfl
        exact h.busy_nodup.not_mem_erase hj
      exact .inr ⟨fun heq => hji (Nat.add_left_cancel heq), rfl, List.mem_of_mem_erase hj⟩
  · have hpending : t.pool.pending.Perm (r :: p.pending) := by
      refine (hperm.filterMap _).trans ?_
      rw [List.filterMap_cons, hr]
      simp only [Pool.pending, hbusy, hrequest]
      exact .refl _
    exact (List.perm_middle.symm.trans (hpending.symm.append_left _)).trans h.once
  · exact h.distinct
  · exact h.timed_erase hslots hbusy

theorem doGet (hknown : t.Known) (queue : Option Bytes) (body : Bytes)
    (sends : Bool) : Clocked slots (t.step maxBody (.doGet queue body sends)) := by
  show Clocked slots ⟨t.pool.doGet maxBody queue body sends, t.accept maxBody (.doGet queue body sends), t.finalized⟩
  have harrive : Clocked slots ⟨t.pool.arrive, t.accepted, t.finalized⟩ :=
    h.shift (fun _ => ⟨rfl, rfl⟩) (.refl _) rfl rfl rfl
  unfold accept Pool.accepts Pool.doGet
  by_cases hbody : body.length < 1 ∨ maxBody < body.length
  · simp only [hbody, if_true, decide_true, Bool.not_true, Bool.false_and, Bool.false_eq_true, if_false]
    exact harrive
  cases queue with
  | none => simpa [hbody] using harrive
  | some queue =>
    cases hfree : t.pool.free with
    | nil => simpa [hbody, hfree] using harrive
    | cons i rest =>
      have hoccupy := h.occupy hfree hknown.2 queue body
      simp only [hbody, if_false, decide_false, Bool.not_false, Option.isSome_some, Bool.and_self,
        List.isEmpty_cons, if_true]
      split
      next p hdispatch =>
        have hnew := List.nodup_cons.mp hoccupy.nodup
        obtain ⟨-, hassigned, hrest⟩ : i ∉ t.pool.unassigned ∧ i ∉ t.pool.assigned ∧ i ∉ rest := by
          simpa [Pool.occupy, Pool.setTimer, not_or] using hnew.1
        rw [dispatchDoTask_frame hdispatch]
        refine hoccupy.shift (fun j => ⟨rfl, rfl⟩) ?_ ?_ rfl rfl
        · show ((i :: t.pool.unassigned).erase i ++ i :: t.pool.assigned.erase i).Perm
            (i :: t.pool.unassigned ++ t.pool.assigned)
          rw [List.erase_cons_head, List.erase_of_not_mem hassigned]
          exact List.perm_middle
        · exact List.erase_of_not_mem hrest
      next => exact hoccupy

theorem claim (sends : Bool) : Clocked slots (t.step maxBody (.claim sends)) := by
  show Clocked slots ⟨t.pool.claimTask sends, t.accepted, t.finalized⟩
  unfold Pool.claimTask
  dsimp only
  split
  next i rest hunassigned =>
    have hbusy : i ∈ t.pool.busy := by
      rw [Pool.busy, hunassigned]
      exact List.mem_cons_self
    have hslots (j : Nat) : ((t.pool.setTimer i true).slots j).timer = (t.pool.slots j).timer := by
      show (assign t.pool.slots i { t.pool.slots i with timer := true } j).timer = _
      by_cases hji : j = i
      · rw [hji, assign_self, (h.timed i).mpr hbusy]
      · rw [assign_of_ne hji]
    have hperm : (rest ++ i :: t.pool.assigned).Perm t.pool.busy := by
      rw [Pool.busy, hunassigned]
      exact List.perm_middle
    split
    · exact h.shift (fun j => ⟨(Pool.request_setTimer t.pool i true j).1, hslots j⟩) hperm rfl rfl rfl
    · exact h.shift (fun j => ⟨(Pool.request_setTimer t.pool i true j).1, hslots j⟩) hperm rfl rfl rfl
  next => split <;> exact h.shift (fun _ => ⟨rfl, rfl⟩) (.refl _) rfl rfl rfl

theorem reply (hknown : t.Known) (token : Nat) (about : Option Nat) (body : Bytes) :
    Clocked slots (t.step maxBody (.reply token about body)) := by
  have hsame : Clocked slots ⟨{ t.pool.arrive with delivered := t.pool.record maxBody token about body },
      t.accepted, t.finalized⟩ := h.shift (fun _ => ⟨rfl, rfl⟩) (.refl _) rfl rfl rfl
  show Clocked slots ⟨{ (t.pool.replyTask maxBody token body).arrive with
    delivered := t.pool.record maxBody token about body }, t.accepted,
      (t.pool.replyTo maxBody token body).toList ++ t.finalized⟩
  unfold Pool.replyTask Pool.replyTo
  by_cases hbody : body.length < 1 ∨ maxBody < body.length
  · rw [if_pos hbody, if_pos hbody]
    exact hsame
  rw [if_neg hbody, if_neg hbody]
  cases hdict : t.pool.doTaskDict token with
  | none => exact hsame
  | some i =>
    obtain ⟨r, hr⟩ := Option.isSome_iff_exists.mp (hknown.1.dict_token token i hdict).2
    have hi := ((h.token token i).mp hdict).2
    rw [Option.bind_some, hr]
    exact h.release hi hr rfl (erase_append_of_nodup h.busy_nodup i)
      (congrArg (i :: ·) (List.erase_of_not_mem (h.not_free hi))) rfl rfl

theorem step (hknown : t.Known) (event : Event) (hin : InTime t event) :
    Clocked slots (t.step maxBody event) := by
  cases event with
  | doGet queue body sends => exact h.doGet hknown queue body sends
  | claim sends => exact h.claim sends
  | reply token about body => exact h.reply hknown token about body
  | getTimeout i =>
    have htimer : (t.pool.slots i).timer = false := hin
    simpa [Trace.step, Pool.step, Pool.onDoGetTimeout, Pool.finalizes, accept, htimer] using h
  | postTimeout e =>
    show Clocked slots ⟨t.pool.onDoPostTimeout e, t.accepted, t.finalized⟩
    unfold Pool.onDoPostTimeout
    split
    · exact h.shift (fun _ => ⟨rfl, rfl⟩) (.refl _) rfl rfl rfl
    · exact h

theorem timeout (htimer : (t.pool.slots i).timer = true) :
    Timed (t.step maxBody (.getTimeout i)) ∧ ¬Lifecycle slots (t.step maxBody (.getTimeout i)) := by
  have hpool : t.pool.step maxBody (.getTimeout i) = ((t.pool.setTimer i false).updateFree i).finalize i :=
    if_pos htimer
  have hbusy : (t.pool.step maxBody (.getTimeout i)).busy = t.pool.busy.erase i := by
    rw [hpool]
    exact erase_append_of_nodup h.busy_nodup i
  refine ⟨h.timed_erase (by rw [hpool]; rfl) hbusy, fun hnext => ?_⟩
  -- the token of the slot stays in the dictionary
  have hdict : (t.pool.step maxBody (.getTimeout i)).doTaskDict (t.pool.token i) = some i := by
    rw [hpool]
    exact (h.token _ i).mpr ⟨rfl, (h.timed i).mp htimer⟩
  exact h.busy_nodup.not_mem_erase (hbusy ▸ ((hnext.token _ i).mp hdict).2)

theorem timed_step (hknown : t.Known) (event : Event) : Timed (t.step maxBody event) := by
  cases event with
  | getTimeout i =>
    cases htimer : (t.pool.slots i).timer with
    | false => exact (h.step hknown (.getTimeout i) htimer).timed
    | true => exact (h.timeout htimer).1
  | _ => exact Clocked.timed (h.step hknown _ (by exact trivial))

theorem inTime_iff (hknown : t.Known) (event : Event) : InTime t event ↔ Lifecycle slots (t.step maxBody event) := by
  refine ⟨fun hin => (h.step hknown event hin).toLifecycle, fun hnext => ?_⟩
  cases event with
  | getTimeout i => exact Bool.eq_false_iff.mpr fun htimer => (h.timeout htimer).2 hnext
  | _ => trivial

end Clocked

theorem arrived_doGet (s : Pool) (queue : Option Bytes) (body : Bytes) (sends : Bool) :
    (s.doGet maxBody queue body sends).arrived = s.arrived + 1 := by
  unfold Pool.doGet
  split
  · rfl
  split
  · dsimp only
    split
    next p hdispatch =>
      rw [dispatchDoTask_frame hdispatch]
      rfl
    next => rfl
  · rfl

theorem arrived_le_step (maxBody : Nat) (s : Pool) (event : Event) : s.arrived ≤ (s.step maxBody event).arrived := by
  cases event with
  | doGet queue body sends => exact (Nat.le_succ _).trans_eq (arrived_doGet s queue body sends).symm
  | claim sends =>
    show s.arrived ≤ (s.claimTask sends).arrived
    unfold Pool.claimTask
    dsimp only
    split
    · split <;> exact Nat.le_succ _
    · split <;> exact Nat.le_succ _
  | reply token about body =>
    show s.arrived ≤ (s.replyTask maxBody token body).arrived + 1
    unfold Pool.replyTask
    split
    · exact Nat.le_succ _
    · split <;> exact Nat.le_succ _
  | getTimeout i =>
    show s.arrived ≤ (s.onDoGetTimeout i).arrived
    unfold Pool.onDoGetTimeout
    split <;> exact Nat.le_refl _
  | postTimeout e =>
    show s.arrived ≤ (s.onDoPostTimeout e).arrived
    unfold Pool.onDoPostTimeout
    split <;> exact Nat.le_refl _

theorem Known.step (h : t.Known) (event : Event) : (t.step maxBody event).Known := by
  refine ⟨h.1.step maxBody event, fun r hr => ?_⟩
  have hold (hr : r ∈ t.accepted) := Nat.lt_of_lt_of_le (h.2 r hr) (arrived_le_step maxBody t.pool event)
  cases event with
  | doGet queue body sends =>
    have hr : r ∈ if t.pool.accepts maxBody queue body then t.pool.arrived :: t.accepted else t.accepted := hr
    split_ifs at hr
    · rcases List.mem_cons.mp hr with rfl | hr
      · exact Nat.lt_of_lt_of_eq (Nat.lt_succ_self _) (arrived_doGet t.pool queue body sends).symm
      · exact hold hr
    · exact hold hr
  | _ => exact hold hr

/-- In every state of a run the requests and the slots are as they should be, exactly if no timer of a slot goes
off in the run. -/
theorem lifecycle_iff (base slots workers maxBody : Nat) (events : List Event) :
    (∀ taken, taken <+: events → Lifecycle slots (Run.exec (step maxBody) (start base slots workers) taken)) ↔
      Run.Guarded (step maxBody) InTime (start base slots workers) events := by
  symm
  apply Run.guarded_iff_lockstep (fun (_ : Unit) _ => ()) (R := fun t _ => t.Known ∧ t.Timed)
    (P := fun t _ => Lifecycle slots t) (t := ())
  · exact fun t _ event ⟨hknown, htimed⟩ h => ⟨hknown.step event, Clocked.timed_step ⟨h, htimed⟩ hknown event⟩
  · exact fun t _ event ⟨hknown, htimed⟩ h => Clocked.inTime_iff ⟨h, htimed⟩ hknown event
  · exact ⟨⟨Pool.inv_init base slots workers, fun _ hr => (List.not_mem_nil hr).elim⟩,
      (clocked_start base slots workers).timed⟩
  · exact (clocked_start base slots workers).toLifecycle

/-- The client's time is up, and then the worker posts the result: the request is finalized twice. Before that the
slot is free and its token is in the dictionary. -/
theorem late_reply_finalizes_again :
    let events : List Event := [.doGet (some [113]) [97] true, .claim true, .getTimeout 0]
    let late := Run.exec (step 10) (start 7 1 1) events
    0 ∈ late.pool.free ∧ late.pool.doTaskDict 7 = some 0 ∧
      (late.step 10 (.reply 7 (some 0) [98])).finalized = [0, 0] := by
  decide

end Trace

end HustStore.MqHa
