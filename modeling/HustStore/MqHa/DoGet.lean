import HustStore.Base
import HustStore.Lib.Run
import Mathlib.Data.List.Nodup

/-!
# Tasks that clients wait for

A client posts a task to the front end of the message queue and waits for its result. A worker claims the task,
or waits for one itself, and gets it together with a token.
-/

namespace HustStore.MqHa

/-! ### The pool -/

structure Task where
  maker : Nat
  queue : Bytes
  body : Bytes
  deriving DecidableEq, Repr

structure Slot where
  request : Option Nat
  task : Task
  timer : Bool
  deriving DecidableEq, Repr

structure Executer where
  request : Nat
  timer : Bool
  deriving DecidableEq, Repr

structure Handout where
  worker : Nat
  token : Nat
  task : Task
  deriving DecidableEq, Repr

structure Pool where
  base : Nat
  slots : Nat → Slot
  unassigned : List Nat
  assigned : List Nat
  free : List Nat
  doTaskDict : Nat → Option Nat
  executers : Nat → Executer
  cacheWorker : List Nat
  freeWorker : List Nat
  arrived : Nat
  waiting : List Nat
  handouts : List Handout
  delivered : List (Nat × Nat)

namespace Pool

def token (s : Pool) (i : Nat) : Nat := s.base + i

def init (base slots workers : Nat) : Pool where
  base := base
  slots _ := ⟨none, ⟨0, [], []⟩, false⟩
  unassigned := []
  assigned := []
  free := (List.range slots).reverse
  doTaskDict _ := none
  executers _ := ⟨0, false⟩
  cacheWorker := []
  freeWorker := (List.range workers).reverse
  arrived := 0
  waiting := []
  handouts := []
  delivered := []

def setTimer (s : Pool) (i : Nat) (on : Bool) : Pool :=
  { s with slots := assign s.slots i { s.slots i with timer := on } }

def updateAssigned (s : Pool) (i : Nat) : Pool :=
  { s with unassigned := s.unassigned.erase i, free := s.free.erase i, assigned := i :: s.assigned.erase i }

def updateFree (s : Pool) (i : Nat) : Pool :=
  { s with unassigned := s.unassigned.erase i, assigned := s.assigned.erase i, free := i :: s.free.erase i }

def finalize (s : Pool) (i : Nat) : Pool :=
  { s with waiting := (s.slots i).request.elim s.waiting s.waiting.erase }

def sendTask (s : Pool) (worker i : Nat) : Pool :=
  { s with handouts := ⟨worker, s.token i, (s.slots i).task⟩ :: s.handouts }

def dispatchDoTask (s : Pool) (i : Nat) (sends : Bool) : Option Pool :=
  match s.cacheWorker with
  | [] => none
  | e :: rest =>
    if sends then
      some { s.sendTask (s.executers e).request i with
             executers := assign s.executers e { s.executers e with timer := false }
             cacheWorker := rest
             freeWorker := e :: s.freeWorker }
    else none

def occupy (s : Pool) (i : Nat) (rest : List Nat) (queue body : Bytes) : Pool :=
  { s with
    free := rest
    unassigned := i :: s.unassigned
    slots := assign s.slots i { s.slots i with request := some s.arrived, task := ⟨s.arrived, queue, body⟩ }
    doTaskDict := assign s.doTaskDict (s.token i) (some i)
    arrived := s.arrived + 1
    waiting := s.arrived :: s.waiting }

def arrive (s : Pool) : Pool := { s with arrived := s.arrived + 1 }

def doGet (maxBody : Nat) (s : Pool) (queue : Option Bytes) (body : Bytes) (sends : Bool) : Pool :=
  if body.length < 1 ∨ maxBody < body.length then s.arrive
  else
    match queue, s.free with
    | some queue, i :: rest =>
      let s := s.occupy i rest queue body
      let s :=
        match s.dispatchDoTask i sends with
        | some s => s.updateAssigned i
        | none => s
      s.setTimer i true
    | _, _ => s.arrive

def claimTask (s : Pool) (sends : Bool) : Pool :=
  let worker := s.arrived
  match s.unassigned with
  | i :: rest =>
    let s := ({ s.arrive with unassigned := rest, assigned := i :: s.assigned }).setTimer i true
    if sends then s.sendTask worker i else s
  | [] =>
    match s.freeWorker with
    | [] => s.arrive
    | e :: rest =>
      { s.arrive with
        cacheWorker := e :: s.cacheWorker
        freeWorker := rest
        executers := assign s.executers e ⟨worker, true⟩ }

def replyTo (maxBody : Nat) (s : Pool) (token : Nat) (body : Bytes) : Option Nat :=
  if body.length < 1 ∨ maxBody < body.length then none
  else (s.doTaskDict token).bind fun i => (s.slots i).request

def replyTask (maxBody : Nat) (s : Pool) (token : Nat) (body : Bytes) : Pool :=
  if body.length < 1 ∨ maxBody < body.length then s
  else
    match s.doTaskDict token with
    | none => s
    | some i =>
      let s := (s.setTimer i false).finalize i
      ({ s with doTaskDict := assign s.doTaskDict (s.token i) none }).updateFree i

def onDoGetTimeout (s : Pool) (i : Nat) : Pool :=
  if (s.slots i).timer then ((s.setTimer i false).updateFree i).finalize i else s

def onDoPostTimeout (s : Pool) (e : Nat) : Pool :=
  if (s.executers e).timer then
    { s with
      executers := assign s.executers e { s.executers e with timer := false }
      cacheWorker := s.cacheWorker.erase e
      freeWorker := e :: s.freeWorker.erase e }
  else s

end Pool

inductive Event
  | doGet (queue : Option Bytes) (body : Bytes) (sends : Bool)
  | claim (sends : Bool)
  | reply (token : Nat) (about : Option Nat) (body : Bytes)
  | getTimeout (i : Nat)
  | postTimeout (e : Nat)
  deriving Repr

def Pool.Owed (s : Pool) (token maker : Nat) : Prop :=
  ∃ h ∈ s.handouts, h.token = token ∧ h.task.maker = maker

instance decidableOwed (s : Pool) (token maker : Nat) : Decidable (s.Owed token maker) :=
  inferInstanceAs (Decidable (∃ h ∈ s.handouts, h.token = token ∧ h.task.maker = maker))

def Pool.record (maxBody : Nat) (s : Pool) (token : Nat) (about : Option Nat) (body : Bytes) :
    List (Nat × Nat) :=
  match about, s.replyTo maxBody token body with
  | some maker, some client => if s.Owed token maker then (maker, client) :: s.delivered else s.delivered
  | _, _ => s.delivered

def Pool.step (maxBody : Nat) (s : Pool) : Event → Pool
  | .doGet queue body sends => s.doGet maxBody queue body sends
  | .claim sends => s.claimTask sends
  | .reply token about body =>
    { (s.replyTask maxBody token body).arrive with delivered := s.record maxBody token about body }
  | .getTimeout i => s.onDoGetTimeout i
  | .postTimeout e => s.onDoPostTimeout e

/-! ### What holds in every state -/

structure Pool.Inv (s : Pool) : Prop where
  free_nodup : s.free.Nodup
  waiting_nodup : s.waiting.Nodup
  free_idle : ∀ i ∈ s.free, ∀ r ∈ (s.slots i).request, r ∉ s.waiting
  unassigned_busy : ∀ i ∈ s.unassigned, (s.slots i).request.isSome
  task_maker : ∀ i, ∀ r ∈ (s.slots i).request, (s.slots i).task.maker = r
  dict_token : ∀ t, ∀ i ∈ s.doTaskDict t, t = s.token i ∧ (s.slots i).request.isSome
  handed : ∀ h ∈ s.handouts, h.task.maker ∈ s.waiting →
    ∃ i, h.token = s.token i ∧ (s.slots i).request = some h.task.maker
  request_arrived : ∀ i, ∀ r ∈ (s.slots i).request, r < s.arrived
  waiting_arrived : ∀ r ∈ s.waiting, r < s.arrived
  handed_arrived : ∀ h ∈ s.handouts, h.task.maker < s.arrived

namespace Pool

variable {s : Pool} {i : Nat}

theorem inv_init (base slots workers : Nat) : (init base slots workers).Inv where
  free_nodup := List.nodup_reverse.mpr List.nodup_range
  waiting_nodup := List.nodup_nil
  free_idle _ _ _ hr := by cases hr
  unassigned_busy _ hi := (List.not_mem_nil hi).elim
  task_maker _ _ hr := by cases hr
  dict_token _ _ hi := by cases hi
  handed _ hh := (List.not_mem_nil hh).elim
  request_arrived _ _ hr := by cases hr
  waiting_arrived _ hr := (List.not_mem_nil hr).elim
  handed_arrived _ hh := (List.not_mem_nil hh).elim

theorem request_setTimer (s : Pool) (i : Nat) (on : Bool) (j : Nat) :
    ((s.setTimer i on).slots j).request = (s.slots j).request ∧
      ((s.setTimer i on).slots j).task = (s.slots j).task := by
  show ((assign s.slots i { s.slots i with timer := on }) j).request = _ ∧ _
  by_cases hj : j = i
  · rw [hj]
    simp [setTimer]
  · simp [setTimer, assign_of_ne hj]

theorem Inv.setTimer (h : s.Inv) (on : Bool) : (s.setTimer i on).Inv := by
  have hrequest := request_setTimer s i on
  constructor
  · exact h.free_nodup
  · exact h.waiting_nodup
  · intro j hj r hr
    rw [(hrequest j).1] at hr
    exact h.free_idle j hj r hr
  · intro j hj
    rw [(hrequest j).1]
    exact h.unassigned_busy j hj
  · intro j r hr
    rw [(hrequest j).1] at hr
    rw [(hrequest j).2]
    exact h.task_maker j r hr
  · intro t j hj
    rw [(hrequest j).1]
    exact h.dict_token t j hj
  · intro handout hmem hwaiting
    obtain ⟨j, htoken, hj⟩ := h.handed handout hmem hwaiting
    exact ⟨j, htoken, ((hrequest j).1).trans hj⟩
  · intro j r hr
    rw [(hrequest j).1] at hr
    exact h.request_arrived j r hr
  · exact h.waiting_arrived
  · exact h.handed_arrived

theorem Inv.arrive (h : s.Inv) : s.arrive.Inv :=
  { h with
    request_arrived := fun j r hr => Nat.lt_succ_of_lt (h.request_arrived j r hr)
    waiting_arrived := fun r hr => Nat.lt_succ_of_lt (h.waiting_arrived r hr)
    handed_arrived := fun handout hmem => Nat.lt_succ_of_lt (h.handed_arrived handout hmem) }

theorem Inv.move (h : s.Inv) {unassigned assigned free : List Nat}
    (hunassigned : ∀ j ∈ unassigned, j ∈ s.unassigned) (hfree : free.Sublist s.free) :
    { s with unassigned, assigned, free }.Inv :=
  { h with
    free_nodup := h.free_nodup.sublist hfree
    free_idle := fun j hj => h.free_idle j (hfree.subset hj)
    unassigned_busy := fun j hj => h.unassigned_busy j (hunassigned j hj) }

theorem Inv.updateAssigned (h : s.Inv) : (s.updateAssigned i).Inv :=
  h.move (fun _ hj => List.mem_of_mem_erase hj) List.erase_sublist

theorem Inv.sendTask (h : s.Inv) (hbusy : (s.slots i).request.isSome) (worker : Nat) : (s.sendTask worker i).Inv := by
  obtain ⟨r, hr⟩ := Option.isSome_iff_exists.mp hbusy
  have hmaker := h.task_maker i r hr
  refine { h with handed := ?_, handed_arrived := ?_ }
  · intro handout hmem hwaiting
    rcases List.mem_cons.mp hmem with rfl | hmem
    · exact ⟨i, rfl, hmaker ▸ hr⟩
    · exact h.handed handout hmem hwaiting
  · intro handout hmem
    rcases List.mem_cons.mp hmem with rfl | hmem
    · show (s.slots i).task.maker < s.arrived
      rw [hmaker]
      exact h.request_arrived i r hr
    · exact h.handed_arrived handout hmem

theorem waiting_finalize_sublist (s : Pool) (i : Nat) : (s.finalize i).waiting.Sublist s.waiting := by
  unfold finalize
  cases (s.slots i).request with
  | none => exact List.Sublist.refl _
  | some r => exact List.erase_sublist

section

variable (h : s.Inv)
include h

theorem Inv.finalize : (s.finalize i).Inv := by
  have hsub := waiting_finalize_sublist s i
  exact { h with
      waiting_nodup := h.waiting_nodup.sublist hsub
      free_idle := fun j hj r hr hwaiting => h.free_idle j hj r hr (hsub.subset hwaiting)
      handed := fun handout hmem hwaiting => h.handed handout hmem (hsub.subset hwaiting)
      waiting_arrived := fun r hr => h.waiting_arrived r (hsub.subset hr) }

theorem Inv.idle_finalize : ∀ r ∈ (s.slots i).request, r ∉ (s.finalize i).waiting := by
  intro r hr
  unfold Pool.finalize
  rw [Option.mem_def.mp hr]
  exact h.waiting_nodup.not_mem_erase

theorem Inv.updateFree (hidle : ∀ r ∈ (s.slots i).request, r ∉ s.waiting) : (s.updateFree i).Inv := by
  refine { h with free_nodup := ?_, free_idle := ?_, unassigned_busy := ?_ }
  · exact List.nodup_cons.mpr ⟨h.free_nodup.not_mem_erase, h.free_nodup.erase i⟩
  · intro j hj
    rcases List.mem_cons.mp hj with rfl | hj
    · exact hidle
    · exact h.free_idle j (List.mem_of_mem_erase hj)
  · exact fun j hj => h.unassigned_busy j (List.mem_of_mem_erase hj)

theorem Inv.removeToken (t : Nat) : { s with doTaskDict := assign s.doTaskDict t none }.Inv := by
  refine { h with dict_token := ?_ }
  intro t' j hj
  have hget : assign s.doTaskDict t none t' = some j := hj
  by_cases ht : t' = t
  · rw [ht, assign_self] at hget
    cases hget
  · rw [assign_of_ne ht] at hget
    exact h.dict_token t' j hget

theorem Inv.occupy {rest : List Nat} (hfree : s.free = i :: rest) (queue body : Bytes) :
    (s.occupy i rest queue body).Inv := by
  have hnodup : i ∉ rest ∧ rest.Nodup := List.nodup_cons.mp (hfree ▸ h.free_nodup)
  have hslot : (s.occupy i rest queue body).slots i =
      { s.slots i with request := some s.arrived, task := ⟨s.arrived, queue, body⟩ } := assign_self _
  have hother (j : Nat) (hj : j ≠ i) : (s.occupy i rest queue body).slots j = s.slots j :=
    assign_of_ne hj _
  have hbusy (j : Nat) (hj : (s.slots j).request.isSome) : ((s.occupy i rest queue body).slots j).request.isSome := by
    by_cases hji : j = i
    · rw [hji, hslot]
      rfl
    · rw [hother j hji]
      exact hj
  constructor
  · exact hnodup.2
  · refine List.nodup_cons.mpr ⟨fun hmem => ?_, h.waiting_nodup⟩
    exact Nat.lt_irrefl _ (h.waiting_arrived _ hmem)
  · intro j hj r hr hwaiting
    have hji : j ≠ i := by
      rintro rfl
      exact hnodup.1 hj
    rw [hother j hji] at hr
    rcases List.mem_cons.mp hwaiting with rfl | hwaiting
    · exact Nat.lt_irrefl _ (h.request_arrived j _ hr)
    · exact h.free_idle j (hfree ▸ List.mem_cons_of_mem i hj) r hr hwaiting
  · intro j hj
    rcases List.mem_cons.mp hj with rfl | hj
    · rw [hslot]
      rfl
    · exact hbusy j (h.unassigned_busy j hj)
  · intro j r hr
    by_cases hji : j = i
    · rw [hji, hslot] at hr ⊢
      exact Option.some.inj hr
    · rw [hother j hji] at hr ⊢
      exact h.task_maker j r hr
  · intro t j hj
    have hget : assign s.doTaskDict (s.token i) (some i) t = some j := hj
    by_cases ht : t = s.token i
    · rw [ht, assign_self] at hget
      cases hget
      rw [hslot]
      exact ⟨ht, rfl⟩
    · rw [assign_of_ne ht] at hget
      obtain ⟨htoken, hsome⟩ := h.dict_token t j hget
      exact ⟨htoken, hbusy j hsome⟩
  · intro handout hmem hwaiting
    have hne : handout.task.maker ≠ s.arrived := Nat.ne_of_lt (h.handed_arrived handout hmem)
    have hold : handout.task.maker ∈ s.waiting := (List.mem_cons.mp hwaiting).resolve_left hne
    obtain ⟨j, htoken, hj⟩ := h.handed handout hmem hold
    -- the slot of a client that waits is not free
    have hji : j ≠ i := by
      rintro rfl
      exact h.free_idle j (hfree ▸ List.mem_cons_self) _ hj hold
    exact ⟨j, htoken, by rw [hother j hji]; exact hj⟩
  · intro j r hr
    by_cases hji : j = i
    · rw [hji, hslot] at hr
      cases hr
      exact Nat.lt_succ_self _
    · rw [hother j hji] at hr
      exact Nat.lt_succ_of_lt (h.request_arrived j r hr)
  · intro r hr
    rcases List.mem_cons.mp hr with rfl | hr
    · exact Nat.lt_succ_self _
    · exact Nat.lt_succ_of_lt (h.waiting_arrived r hr)
  · exact fun handout hmem => Nat.lt_succ_of_lt (h.handed_arrived handout hmem)

theorem Inv.workers (executers : Nat → Executer) (cacheWorker freeWorker : List Nat) :
    { s with executers, cacheWorker, freeWorker }.Inv := { h with }

theorem Inv.dispatchDoTask (hbusy : (s.slots i).request.isSome) {sends : Bool} {s' : Pool}
    (hdispatch : s.dispatchDoTask i sends = some s') : s'.Inv := by
  unfold Pool.dispatchDoTask at hdispatch
  split at hdispatch
  · cases hdispatch
  · split at hdispatch
    · cases hdispatch
      exact (h.sendTask hbusy _).workers _ _ _
    · cases hdispatch

theorem Inv.doGet (maxBody : Nat) (queue : Option Bytes) (body : Bytes) (sends : Bool) :
    (s.doGet maxBody queue body sends).Inv := by
  unfold Pool.doGet
  split
  · exact h.arrive
  split
  next queue i rest hfree =>
    have hoccupy := h.occupy hfree queue body
    have hbusy := hoccupy.unassigned_busy i List.mem_cons_self
    apply Inv.setTimer
    split
    next s' hdispatch => exact (hoccupy.dispatchDoTask hbusy hdispatch).updateAssigned
    next => exact hoccupy
  · exact h.arrive

theorem Inv.claimTask (sends : Bool) : (s.claimTask sends).Inv := by
  unfold Pool.claimTask
  dsimp only
  split
  next i rest hunassigned =>
    have hbusy := h.unassigned_busy i (hunassigned ▸ List.mem_cons_self)
    have hmoved : ({ s.arrive with unassigned := rest, assigned := i :: s.assigned } : Pool).Inv := by
      apply h.arrive.move
      · intro j hj
        show j ∈ s.unassigned
        rw [hunassigned]
        exact List.mem_cons_of_mem i hj
      · exact List.Sublist.refl _
    have htimer := hmoved.setTimer (i := i) true
    split
    · apply htimer.sendTask
      rw [(request_setTimer _ i true i).1]
      exact hbusy
    · exact htimer
  next =>
    split
    · exact h.arrive
    · exact h.arrive.workers _ _ _

theorem Inv.replyTask (maxBody token : Nat) (body : Bytes) : (s.replyTask maxBody token body).Inv := by
  unfold Pool.replyTask
  split
  · exact h
  split
  · exact h
  next i _ =>
    have htimer := h.setTimer (i := i) false
    exact (htimer.finalize.removeToken _).updateFree htimer.idle_finalize

theorem Inv.onDoGetTimeout (i : Nat) : (s.onDoGetTimeout i).Inv := by
  unfold Pool.onDoGetTimeout
  split
  · -- the order of the two updates does not matter
    have htimer := h.setTimer (i := i) false
    exact htimer.finalize.updateFree htimer.idle_finalize
  · exact h

theorem Inv.onDoPostTimeout (e : Nat) : (s.onDoPostTimeout e).Inv := by
  unfold Pool.onDoPostTimeout
  split
  · exact h.workers _ _ _
  · exact h

theorem Inv.step (maxBody : Nat) (event : Event) : (s.step maxBody event).Inv := by
  cases event with
  | doGet queue body sends => exact h.doGet maxBody queue body sends
  | claim sends => exact h.claimTask sends
  | reply token about body => exact { (h.replyTask maxBody token body).arrive with }
  | getTimeout i => exact h.onDoGetTimeout i
  | postTimeout e => exact h.onDoPostTimeout e

end

def run (base slots workers maxBody : Nat) (events : List Event) : Pool :=
  Run.exec (step maxBody) (init base slots workers) events

theorem inv_run (base slots workers maxBody : Nat) (events : List Event) :
    (run base slots workers maxBody events).Inv := by
  have hall : Run.Guarded (step maxBody) (fun _ _ => True) (init base slots workers) events :=
    Run.guarded_of_forall fun _ _ => trivial
  exact hall.invariant (fun _ event h _ => h.step maxBody event) (inv_init base slots workers)

/-! ### Who gets a result -/

def Isolated (maxBody : Nat) (s : Pool) (token maker : Nat) (body : Bytes) : Prop :=
  ∀ client, s.replyTo maxBody token body = some client → client = maker ∧ client ∈ s.waiting

def Timely (maxBody : Nat) (s : Pool) (token maker : Nat) (body : Bytes) : Prop :=
  (body.length < 1 ∨ maxBody < body.length) ∨ s.doTaskDict token = none ∨ maker ∈ s.waiting

instance decidableTimely (maxBody : Nat) (s : Pool) (token maker : Nat) (body : Bytes) :
    Decidable (Timely maxBody s token maker body) :=
  inferInstanceAs (Decidable ((body.length < 1 ∨ maxBody < body.length) ∨
    s.doTaskDict token = none ∨ maker ∈ s.waiting))

theorem Inv.request_of_owed (h : s.Inv) {token maker : Nat} (howed : s.Owed token maker)
    (hwaiting : maker ∈ s.waiting) {i : Nat} (hdict : s.doTaskDict token = some i) :
    (s.slots i).request = some maker := by
  obtain ⟨handout, hmem, rfl, rfl⟩ := howed
  obtain ⟨j, htoken, hj⟩ := h.handed handout hmem hwaiting
  obtain ⟨htoken', -⟩ := h.dict_token _ i hdict
  have hij : i = j := by
    rw [htoken, token, token] at htoken'
    omega
  rw [hij]
  exact hj

theorem Inv.isolated_iff (h : s.Inv) (maxBody : Nat) {token maker : Nat} (howed : s.Owed token maker)
    (body : Bytes) : Isolated maxBody s token maker body ↔ Timely maxBody s token maker body := by
  unfold Isolated Timely replyTo
  by_cases hbody : body.length < 1 ∨ maxBody < body.length
  · rw [if_pos hbody]
    exact iff_of_true (fun _ hnone => by cases hnone) (.inl hbody)
  rw [if_neg hbody]
  cases hdict : s.doTaskDict token with
  | none => exact iff_of_true (fun _ hnone => by cases hnone) (.inr (.inl rfl))
  | some i =>
    obtain ⟨r, hr⟩ := Option.isSome_iff_exists.mp (h.dict_token token i hdict).2
    rw [Option.bind_some, hr]
    constructor
    · intro hisolated
      obtain ⟨rfl, hwaiting⟩ := hisolated r rfl
      exact .inr (.inr hwaiting)
    · intro htimely client hclient
      cases hclient
      have hwaiting : maker ∈ s.waiting :=
        (htimely.resolve_left hbody).resolve_left fun hnone => by cases hnone
      have hmaker := h.request_of_owed howed hwaiting hdict
      rw [hr] at hmaker
      cases hmaker
      exact ⟨rfl, hwaiting⟩

def TimelyEvent (maxBody : Nat) (s : Pool) : Event → Prop
  | .reply token (some maker) body => s.Owed token maker → Timely maxBody s token maker body
  | _ => True

instance decidableTimelyEvent (maxBody : Nat) (s : Pool) : ∀ event, Decidable (TimelyEvent maxBody s event)
  | .reply token (some maker) body =>
    inferInstanceAs (Decidable (s.Owed token maker → Timely maxBody s token maker body))
  | .reply _ none _ | .doGet _ _ _ | .claim _ | .getTimeout _ | .postTimeout _ =>
    inferInstanceAs (Decidable True)

def Delivered (s : Pool) : Prop := ∀ d ∈ s.delivered, d.2 = d.1

theorem delivered_step_of_ne_reply (maxBody : Nat) (event : Event)
    (hne : ∀ token about body, event ≠ .reply token about body) :
    (s.step maxBody event).delivered = s.delivered := by
  cases event with
  | reply token about body => exact absurd rfl (hne token about body)
  | doGet queue body sends =>
    show (s.doGet maxBody queue body sends).delivered = s.delivered
    unfold doGet dispatchDoTask
    dsimp only
    split
    · rfl
    split
    · split
      next s' hdispatch =>
        split at hdispatch
        · cases hdispatch
        · split at hdispatch
          · cases hdispatch
            rfl
          · cases hdispatch
      next => rfl
    · rfl
  | claim sends =>
    show (s.claimTask sends).delivered = s.delivered
    unfold claimTask
    dsimp only
    split
    · split <;> rfl
    · split <;> rfl
  | getTimeout i =>
    show (s.onDoGetTimeout i).delivered = s.delivered
    unfold onDoGetTimeout
    split <;> rfl
  | postTimeout e =>
    show (s.onDoPostTimeout e).delivered = s.delivered
    unfold onDoPostTimeout
    split <;> rfl

theorem Delivered.step (hdelivered : s.Delivered) (h : s.Inv) (maxBody : Nat) (event : Event)
    (htimely : TimelyEvent maxBody s event) : (s.step maxBody event).Delivered := by
  by_cases hreply : ∃ token about body, event = .reply token about body
  · obtain ⟨token, about, body, rfl⟩ := hreply
    show ∀ d ∈ s.record maxBody token about body, d.2 = d.1
    unfold record
    split
    next maker client hclient =>
      split
      next howed =>
        have hisolated := (h.isolated_iff maxBody howed body).mpr (htimely howed)
        intro d hd
        rcases List.mem_cons.mp hd with rfl | hd
        · exact (hisolated client hclient).1
        · exact hdelivered d hd
      next => exact hdelivered
    next => exact hdelivered
  · have hsame := delivered_step_of_ne_reply (s := s) maxBody event
      fun token about body heq => hreply ⟨token, about, body, heq⟩
    unfold Delivered
    rw [hsame]
    exact hdelivered

/-- In every state that a process reaches, a result for a task that was sent to a worker goes to the
client of the task and to nobody else exactly if it is timely; and in a run in which all results are
timely, every result went to the client of its task. -/
theorem replies_isolated_iff (base slots workers maxBody : Nat) (events : List Event) :
    let s := run base slots workers maxBody events
    (∀ token maker body, s.Owed token maker →
      (Isolated maxBody s token maker body ↔ Timely maxBody s token maker body)) ∧
    (Run.Guarded (step maxBody) (TimelyEvent maxBody) (init base slots workers) events →
      ∀ d ∈ s.delivered, d.2 = d.1) := by
  intro s
  have hinv := inv_run base slots workers maxBody events
  refine ⟨fun token maker body howed => hinv.isolated_iff maxBody howed body, fun hguarded => ?_⟩
  have hboth : s.Inv ∧ s.Delivered := by
    apply hguarded.invariant (P := fun s => s.Inv ∧ s.Delivered)
    · intro s event h htimely
      exact ⟨h.1.step maxBody event, h.2.step h.1 maxBody event htimely⟩
    · exact ⟨inv_init base slots workers, fun _ hd => (List.not_mem_nil hd).elim⟩
  exact hboth.2

/-- A client posts a task, a worker claims it and posts the result. -/
theorem replies_isolated_once :
    let events : List Event := [.doGet (some [113]) [97] true, .claim true, .reply 7 (some 0) [98]]
    (run 7 1 1 10 events).delivered = [(0, 0)] ∧ ∀ d ∈ (run 7 1 1 10 events).delivered, d.2 = d.1 := by
  intro events
  have hguarded : Run.Guarded (step 10) (TimelyEvent 10) (init 7 1 1) events := by decide
  exact ⟨by decide, (replies_isolated_iff 7 1 1 10 events).2 hguarded⟩

/-- The first client's time is up, the second one gets its slot and its token, and the result for the
first one goes to the second one. -/
theorem late_reply_reaches_next_client :
    let events : List Event :=
      [.doGet (some [113]) [97] true, .claim true, .getTimeout 0, .doGet (some [113]) [99] true,
       .reply 7 (some 0) [98]]
    (run 7 1 1 10 events).delivered = [(0, 2)] := by
  decide

end Pool

end HustStore.MqHa
