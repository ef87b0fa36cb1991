import HustStore.Base
import HustStore.Ha.Write

/-!
# The status of a write

A comment above `__post_write_data` has a table that assigns a status to the number of masters whose error is
skipped and the number of masters that failed.
-/

namespace HustStore.Ha

inductive Outcome
  | dead
  | answered (status : Nat)
  deriving DecidableEq, Repr

namespace Outcome

variable (method : Method)

def skips : Outcome → Nat
  | .dead => 0
  | .answered status => if status ≠ 200 ∧ skipError method status then 1 else 0

def errors : Outcome → Nat
  | .dead => 1
  | .answered status => if status = 200 ∨ skipError method status then 0 else 1

end Outcome

def responseTable : Nat → Nat → Option Nat
  | 0, 0 => some 200
  | 1, 0 => some 200
  | 2, 0 => some 404
  | 0, 1 => some 200
  | 1, 1 => some 404
  | 0, 2 => some 404
  | _, _ => none

structure Env.Ready (env : Env) : Prop where
  starts : env.starts = true
  encodes : env.encodes = true
  logs : env.logs = true
  syncHead : env.syncHead = true
  versionHead : env.versionHead = true

def Event.env : Event → Env
  | .start _ env => env
  | .complete _ _ env => env

structure Watched where
  run : WriteRun
  outcomes : Master → Option Outcome

namespace Watched

def init : Watched := ⟨.init, fun _ => none⟩

def passedOver (debugSync : Bool) (env : Env) (outcomes : Master → Option Outcome) :
    Master → Option Outcome :=
  if env.alive .master2 && !debugSync then outcomes else assign outcomes .master2 (some .dead)

def note (debugSync : Bool) (w : Watched) : Event → Master → Option Outcome
  | .start args env => match w.run.handler with
    | some _ => w.outcomes
    | none =>
      if args && !env.alive .master1 then
        passedOver false env (assign w.outcomes .master1 (some .dead))
      else w.outcomes
  | .complete status _ env => match w.run.handler with
    | some (.subrequest ctx) => match ctx.state with
      | .writeMaster1 =>
        passedOver debugSync env (assign w.outcomes .master1 (some (.answered status)))
      | .writeMaster2 => assign w.outcomes .master2 (some (.answered status))
      | .writeBinlog => w.outcomes
    | _ => w.outcomes

def step (debugSync : Bool) (method : Method) (w : Watched) (e : Event) : Watched :=
  ⟨w.run.step debugSync method e, w.note debugSync e⟩

def Settled (w : Watched) (o1 o2 : Outcome) : Prop :=
  w.outcomes .master1 = some o1 ∧ w.outcomes .master2 = some o2

end Watched

def Result.Ended : Result → Prop
  | .subrequest _ => False
  | .response _ _ | .error | .crash => True

def statusOf (skips errors : Nat) : Nat := if skips = 0 ∧ errors ≤ 1 then 200 else 404

def Unasked (method : Method) (o1 o2 : Outcome) : Prop :=
  (method = .del ∨ method = .hdel) ∧ o1 = .dead ∧ o2 = .dead

def Sent (method : Method) (status : Nat) (o1 o2 : Outcome) : Prop :=
  status = statusOf (o1.skips method + o2.skips method) (o1.errors method + o2.errors method) ∧ ¬ Unasked method o1 o2

def WriteCtx.Counted (method : Method) (w : Watched) (ctx : WriteCtx) : Prop :=
  match ctx.state with
  | .writeMaster1 => ctx.skipErrorCount = 0 ∧ ctx.errorCount = 0
  | .writeMaster2 => ∃ o, w.outcomes .master1 = some o ∧
    ctx.skipErrorCount = o.skips method ∧ ctx.errorCount = o.errors method
  | .writeBinlog => ∃ o1 o2, w.Settled o1 o2 ∧ o1.skips method + o2.skips method = 0 ∧
    o1.errors method + o2.errors method = 1

def Result.Counted (method : Method) (w : Watched) : Result → Prop
  | .subrequest ctx => ctx.Counted method w
  | .response status _ => ∀ o1 o2, w.Settled o1 o2 → Sent method status o1 o2
  | .error => ∀ o1 o2, w.Settled o1 o2 → Unasked method o1 o2
  | .crash => True

variable {env : Env} {w : Watched} {ctx : WriteCtx} {method : Method} {o1 o2 : Outcome}

theorem counted_update (method : Method) (ctx : WriteCtx) (status : Nat) :
    (ctx.updateError method status).skipErrorCount = ctx.skipErrorCount + (Outcome.answered status).skips method ∧
      (ctx.updateError method status).errorCount = ctx.errorCount + (Outcome.answered status).errors method := by
  unfold WriteCtx.updateError Outcome.skips Outcome.errors
  by_cases hok : status = 200
  · simp [hok]
  · by_cases hskip : skipError method status
    · simp [hok, hskip]
    · simp [hok, hskip]

/-! ### Every call ends as the counts say -/

theorem Watched.Settled.eq {p1 p2 : Outcome} (h : w.Settled o1 o2) (h' : w.Settled p1 p2) : p1 = o1 ∧ p2 = o2 :=
  ⟨Option.some.inj (h'.1.symm.trans h.1), Option.some.inj (h'.2.symm.trans h.2)⟩

theorem counted_response (hready : env.Ready) {status : Nat} (version : Option Nat)
    (h : ∀ o1 o2, w.Settled o1 o2 → Sent method status o1 o2) :
    (sendResponse env status version).Counted method w := by
  unfold sendResponse
  rw [hready.versionHead]
  exact h

theorem counted_runSubrequest (hready : env.Ready) (h : ctx.Counted method w) :
    (runSubrequest env ctx).Counted method w := by
  unfold runSubrequest
  rw [if_pos hready.starts]
  exact h

theorem counted_writeSyncData (hready : env.Ready) (h : ∀ o1 o2, w.Settled o1 o2 → Sent method 200 o1 o2) :
    (writeSyncData env ctx).result.Counted method w := by
  simp only [writeSyncData, hready.encodes, hready.logs, hready.syncHead, Bool.not_true, Bool.false_eq_true, if_false]
  cases ctx.errorPeer with
  | none => trivial
  | some server => exact counted_response hready _ h

theorem sent_of_one_failed (hskip : o1.skips method + o2.skips method = 0)
    (herror : o1.errors method + o2.errors method = 1) : Sent method 200 o1 o2 := by
  constructor
  · rw [hskip, herror]
    decide
  · rintro ⟨-, rfl, rfl⟩
    cases herror

theorem counted_writeBinlog (hready : env.Ready) (hset : w.Settled o1 o2)
    (hskip : o1.skips method + o2.skips method = 0)
    (herror : o1.errors method + o2.errors method = 1) :
    (writeBinlog env ctx).result.Counted method w := by
  have hsent : ∀ p1 p2, w.Settled p1 p2 → Sent method 200 p1 p2 := by
    intro p1 p2 hp
    obtain ⟨rfl, rfl⟩ := hset.eq hp
    exact sent_of_one_failed hskip herror
  unfold writeBinlog
  split
  · trivial
  · split
    · exact counted_writeSyncData hready hsent
    · split
      · trivial
      · exact counted_runSubrequest hready ⟨o1, o2, hset, hskip, herror⟩

theorem counted_postWriteData (hready : env.Ready) (hset : w.Settled o1 o2) (hasked : ¬ Unasked method o1 o2)
    (hskip : ctx.skipErrorCount = o1.skips method + o2.skips method)
    (herror : ctx.errorCount = o1.errors method + o2.errors method) :
    (postWriteData env ctx).result.Counted method w := by
  unfold postWriteData
  rw [hskip, herror]
  split
  · rename_i hone
    exact counted_writeBinlog hready hset hone.1 hone.2
  · rename_i hone
    split
    · rename_i hnone
      apply counted_response hready
      intro p1 p2 hp
      obtain ⟨rfl, rfl⟩ := hset.eq hp
      refine ⟨?_, hasked⟩
      rw [hnone.1, hnone.2]
      rfl
    · rename_i hnone
      apply counted_response hready
      intro p1 p2 hp
      obtain ⟨rfl, rfl⟩ := hset.eq hp
      refine ⟨?_, hasked⟩
      unfold statusOf
      rw [if_neg (by omega)]

namespace Watched

variable {debugSync : Bool}

theorem passedOver_master1 (outcomes : Master → Option Outcome) :
    passedOver debugSync env outcomes .master1 = outcomes .master1 := by
  unfold passedOver
  split
  · rfl
  · exact assign_of_ne (by decide) _

theorem counted_switchState (hready : env.Ready) {status : Nat} {version v : Option Nat}
    (hctx : ctx.Counted method w) (hhandler : w.run.handler = some (.subrequest ctx)) :
    (switchState env debugSync method status { ctx with version := v }).result.Counted method
      (w.step debugSync method (.complete status version env)) := by
  obtain ⟨peer, state, errors, skips, errorPeer, healthPeer, _⟩ := ctx
  cases state with
  | writeMaster1 =>
    obtain ⟨rfl, rfl⟩ : skips = 0 ∧ errors = 0 := hctx
    obtain ⟨hskip, herror⟩ :=
      counted_update method ⟨peer, .writeMaster1, 0, 0, errorPeer, healthPeer, v⟩ status
    rw [Nat.zero_add] at hskip herror
    have hnote : (w.step debugSync method (.complete status version env)).outcomes =
        passedOver debugSync env (assign w.outcomes .master1 (some (.answered status))) := by
      simp only [step, note, hhandler]
    have hfirst : (w.step debugSync method (.complete status version env)).outcomes .master1 =
        some (.answered status) := by rw [hnote, passedOver_master1, assign_self]
    simp only [switchState, onWriteMaster1Complete]
    split
    · exact counted_runSubrequest hready ⟨.answered status, hfirst, hskip, herror⟩
    · rename_i hdead
      have hsecond : (w.step debugSync method (.complete status version env)).outcomes .master2 =
          some .dead := by rw [hnote, passedOver, if_neg hdead, assign_self]
      exact counted_postWriteData hready ⟨hfirst, hsecond⟩ (by rintro ⟨-, hdead, -⟩; cases hdead)
        hskip (congrArg (· + 1) herror)
  | writeMaster2 =>
    obtain ⟨o, ho, hskips, herrors⟩ := hctx
    obtain rfl : skips = o.skips method := hskips
    obtain rfl : errors = o.errors method := herrors
    obtain ⟨hskip, herror⟩ := counted_update method
      ⟨peer, .writeMaster2, o.errors method, o.skips method, errorPeer, healthPeer, v⟩ status
    have hnote : (w.step debugSync method (.complete status version env)).outcomes =
        assign w.outcomes .master2 (some (.answered status)) := by
      simp only [step, note, hhandler]
    have hset : (w.step debugSync method (.complete status version env)).Settled o (.answered status) := by
      constructor
      · rw [hnote, assign_of_ne (by decide), ho]
      · rw [hnote, assign_self]
    exact counted_postWriteData hready hset (by rintro ⟨-, -, hdead⟩; cases hdead) hskip herror
  | writeBinlog =>
    obtain ⟨o1, o2, hset, hskip, herror⟩ := hctx
    have hsent : ∀ p1 p2, (w.step debugSync method (.complete status version env)).Settled p1 p2 →
        Sent method 200 p1 p2 := by
      intro p1 p2 hp
      have hsame : (w.step debugSync method (.complete status version env)).outcomes =
          w.outcomes := by simp only [step, note, hhandler]
      unfold Settled at hp
      rw [hsame] at hp
      obtain ⟨rfl, rfl⟩ := hset.eq hp
      exact sent_of_one_failed hskip herror
    simp only [switchState, onWriteBinlogComplete, hready.syncHead]
    split
    · exact counted_writeSyncData hready hsent
    · split
      · trivial
      · exact counted_response hready _ hsent

theorem counted_startWrite (hready : env.Ready) {args : Bool} (hhandler : w.run.handler = none)
    (hnone : w.outcomes = fun _ => none) :
    (startWrite env method args).Counted method (w.step debugSync method (.start args env)) := by
  have hrefused (h : ∀ o1 o2, (w.step debugSync method (.start args env)).Settled o1 o2 → o1 = .dead ∧ o2 = .dead) :
      Result.Counted method (w.step debugSync method (.start args env))
        (if method = .del ∨ method = .hdel then .error else sendResponse env 404 none) := by
    split
    · rename_i hdel
      intro o1 o2 hset
      exact ⟨hdel, h o1 o2 hset⟩
    · rename_i hother
      apply counted_response hready
      intro o1 o2 hset
      obtain ⟨rfl, rfl⟩ := h o1 o2 hset
      exact ⟨rfl, fun hdel => hother hdel.1⟩
  have hnote : (w.step debugSync method (.start args env)).outcomes =
      if args && !env.alive .master1 then
        passedOver false env (assign w.outcomes .master1 (some .dead))
      else w.outcomes := by simp only [step, note, hhandler]
  unfold startWrite initWriteArgs
  cases args with
  | false =>
    apply hrefused
    intro o1 o2 hset
    unfold Settled at hset
    rw [hnote, hnone] at hset
    cases hset.1
  | true =>
    rw [if_pos rfl]
    by_cases hfirst : env.alive .master1
    · rw [if_pos hfirst]
      exact counted_runSubrequest hready ⟨rfl, rfl⟩
    · rw [if_neg hfirst]
      have hdead : (true && !env.alive .master1) = true := by simp [hfirst]
      rw [if_pos hdead] at hnote
      have hmaster1 : (w.step debugSync method (.start true env)).outcomes .master1 =
          some .dead := by rw [hnote, passedOver_master1, assign_self]
      by_cases hsecond : env.alive .master2
      · rw [if_pos hsecond]
        exact counted_runSubrequest hready ⟨.dead, hmaster1, rfl, rfl⟩
      · rw [if_neg hsecond]
        apply hrefused
        intro o1 o2 hset
        have hmaster2 : (w.step debugSync method (.start true env)).outcomes .master2 =
            some .dead := by
          rw [hnote, passedOver, if_neg (by simp [hsecond]), assign_self]
        exact Settled.eq ⟨hmaster1, hmaster2⟩ hset

def Counted (method : Method) (w : Watched) : Prop :=
  match w.run.handler with
  | none => w.outcomes = fun _ => none
  | some result => result.Counted method w

theorem counted_step (hw : w.Counted method) {e : Event} (hready : e.env.Ready) :
    (w.step debugSync method e).Counted method := by
  unfold Counted at hw
  cases e with
  | start args env =>
    cases hhandler : w.run.handler with
    | none =>
      rw [hhandler] at hw
      have hrun : (w.step debugSync method (.start args env)).run.handler =
          some (startWrite env method args) := by simp only [step, WriteRun.step, hhandler]
      unfold Counted
      rw [hrun]
      exact counted_startWrite hready hhandler hw
    | some result =>
      have hsame : w.step debugSync method (.start args env) = w := by
        simp only [step, WriteRun.step, note, hhandler]
      rw [hsame]
      unfold Counted
      exact hw
  | complete status version env =>
    by_cases hwait : ∃ ctx, w.run.handler = some (.subrequest ctx)
    · obtain ⟨ctx, hhandler⟩ := hwait
      rw [hhandler] at hw
      obtain ⟨v, hctx⟩ := WriteRun.onSubrequestComplete_eq status version ctx
      have hrun : (w.step debugSync method (.complete status version env)).run.handler =
          some (switchState env debugSync method status { ctx with version := v }).result := by
        simp only [step, WriteRun.step, hhandler, hctx]
      unfold Counted
      rw [hrun]
      exact counted_switchState hready hw hhandler
    · have hsame : w.step debugSync method (.complete status version env) = w := by
        cases hhandler : w.run.handler with
        | none => simp only [step, WriteRun.step, note, hhandler]
        | some result =>
          cases result with
          | subrequest ctx => exact absurd ⟨ctx, hhandler⟩ hwait
          | _ => simp only [step, WriteRun.step, note, hhandler]
      rw [hsame]
      exact hw

end Watched

/-! ### The table -/

theorem Outcome.skips_add_errors (method : Method) (o : Outcome) : o.skips method + o.errors method ≤ 1 := by
  cases o with
  | dead => exact Nat.le_refl 1
  | answered status =>
    unfold Outcome.skips Outcome.errors
    by_cases hok : status = 200
    · simp [hok]
    · by_cases hskip : skipError method status
      · simp [hok, hskip]
      · simp [hok, hskip]

theorem statusOf_eq_table_iff {skips errors : Nat} (h : skips + errors ≤ 2) :
    some (statusOf skips errors) = responseTable skips errors ↔ ¬ (skips = 1 ∧ errors = 0) := by
  have hcases : (skips = 0 ∧ errors = 0) ∨ (skips = 0 ∧ errors = 1) ∨ (skips = 0 ∧ errors = 2) ∨
      (skips = 1 ∧ errors = 0) ∨ (skips = 1 ∧ errors = 1) ∨ (skips = 2 ∧ errors = 0) := by omega
  rcases hcases with ⟨rfl, rfl⟩ | ⟨rfl, rfl⟩ | ⟨rfl, rfl⟩ | ⟨rfl, rfl⟩ | ⟨rfl, rfl⟩ | ⟨rfl, rfl⟩ <;> decide

/-- In every run in which nothing runs short and both masters have been dealt with, the request ends with
the status that the table has for the skipped errors and the errors, except where one error was skipped
and nothing has failed, and where a deletion found both masters dead. -/
theorem response_follows_table_iff (debugSync : Bool) (method : Method) (events : List Event)
    (hready : ∀ e ∈ events, e.env.Ready) (w : Watched)
    (hw : w = Run.exec (Watched.step debugSync method) .init events) (o1 o2 : Outcome)
    (hset : w.Settled o1 o2) (result : Result) (hresult : w.run.handler = some result)
    (hended : result.Ended) :
    let skips := o1.skips method + o2.skips method
    let errors := o1.errors method + o2.errors method
    (∃ status version, result = .response status version ∧ some status = responseTable skips errors) ↔
      ¬ (skips = 1 ∧ errors = 0) ∧ ¬ Unasked method o1 o2 := by
  intro skips errors
  have hguard : Run.Guarded (Watched.step debugSync method) (fun _ e => e.env.Ready) .init events :=
    Run.guarded_of_forall hready
  have hcounted : w.Counted method := by
    rw [hw]
    exact hguard.invariant (P := Watched.Counted method) (fun w e hw he => Watched.counted_step hw he) rfl
  have hsound : w.run.Sound := by
    have hrun : w.run = Run.exec (WriteRun.step debugSync method) .init events := by
      rw [hw]
      exact Run.exec_simulates (fun _ _ => rfl) _ events
    have hany : Run.Guarded (WriteRun.step debugSync method) (fun _ _ => True) .init events :=
      Run.guarded_of_forall fun _ _ => trivial
    rw [hrun]
    exact hany.invariant (P := WriteRun.Sound) (fun run event hrun _ => WriteRun.sound_step hrun event)
      fun _ hresult => by cases hresult
  unfold Watched.Counted at hcounted
  rw [hresult] at hcounted
  have htwo : skips + errors ≤ 2 := by
    have h1 := o1.skips_add_errors method
    have h2 := o2.skips_add_errors method
    omega
  cases result with
  | subrequest ctx => cases hended
  | crash => cases hsound _ hresult
  | error =>
    have hdead := hcounted o1 o2 hset
    constructor
    · rintro ⟨status, version, heq, -⟩
      cases heq
    · intro h
      exact absurd hdead h.2
  | response status version =>
    obtain ⟨hstatus, hasked⟩ : status = statusOf skips errors ∧ ¬ Unasked method o1 o2 :=
      hcounted o1 o2 hset
    rw [← statusOf_eq_table_iff htwo, ← hstatus]
    constructor
    · rintro ⟨_, _, heq, htable⟩
      cases heq
      exact ⟨htable, hasked⟩
    · intro h
      exact ⟨status, version, rfl, h.1⟩

/-- The first master answers 200, the second one fails and the write is logged for it. -/
theorem response_follows_table_logged :
    let events := [.start true calm, .complete 200 (some 5) calm, .complete 500 none calm,
      .complete 200 none calm]
    let w := Run.exec (Watched.step false .del) .init events
    w.run.handler = some (.response 200 (some 5)) ∧
      ∃ status version, Result.response 200 (some 5) = .response status version ∧
        some status = responseTable 0 1 := by
  intro events w
  have hready : ∀ e ∈ events, e.env.Ready := by
    intro e he
    have henv : e.env = calm := by
      simp only [events, List.mem_cons, List.not_mem_nil, or_false] at he
      rcases he with rfl | rfl | rfl | rfl <;> rfl
    rw [henv]
    exact ⟨rfl, rfl, rfl, rfl, rfl⟩
  refine ⟨rfl, ?_⟩
  refine (response_follows_table_iff false .del events hready w rfl (.answered 200) (.answered 500)
    ⟨rfl, rfl⟩ (.response 200 (some 5)) rfl trivial).mpr ⟨by decide, ?_⟩
  rintro ⟨-, hdead, -⟩
  cases hdead

/-- A deletion that one master has carried out, and that the other one did not find, is answered
with 404. -/
theorem skipped_error_is_not_found :
    let events := [.start true calm, .complete 200 (some 5) calm, .complete 404 none calm]
    let w := Run.exec (Watched.step false .del) .init events
    w.Settled (.answered 200) (.answered 404) ∧
      (Outcome.answered 200).skips .del + (Outcome.answered 404).skips .del = 1 ∧
      (Outcome.answered 200).errors .del + (Outcome.answered 404).errors .del = 0 ∧
      responseTable 1 0 = some 200 ∧ w.run.handler = some (.response 404 (some 0)) :=
  ⟨⟨rfl, rfl⟩, by decide, by decide, rfl, rfl⟩

end HustStore.Ha
