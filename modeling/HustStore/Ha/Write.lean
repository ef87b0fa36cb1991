import HustStore.Lib.Run

/-!
# Writes through the HA module

A write of the store goes to two masters.
-/

namespace HustStore.Ha

inductive Method
  | put | del | hset | hdel | sadd | srem | zadd | zrem
  deriving DecidableEq, Repr

inductive Master
  | master1 | master2
  deriving DecidableEq, Repr

inductive WriteState
  | writeMaster1 | writeMaster2 | writeBinlog
  deriving DecidableEq, Repr

structure WriteCtx where
  peer : Master
  state : WriteState
  errorCount : Nat
  skipErrorCount : Nat
  errorPeer : Option Master
  healthPeer : Option Master
  version : Option Nat
  deriving DecidableEq, Repr

/-- What the handler meets in one call: which masters are alive, whether a subrequest can be started,
whether the record of the write can be encoded and logged, and whether the two headers can be added. -/
structure Env where
  alive : Master → Bool
  starts : Bool
  encodes : Bool
  logs : Bool
  syncHead : Bool
  versionHead : Bool

inductive Result
  | subrequest (ctx : WriteCtx)
  | response (status : Nat) (version : Option Nat)
  | error
  | crash
  deriving DecidableEq, Repr

structure Reply where
  result : Result
  synced : List Master
  deriving DecidableEq, Repr

/-! ### Errors that are skipped -/

def skipNotFoundError (method : Method) (status : Nat) : Bool :=
  status = 404 && [Method.del, .hdel, .srem, .zrem].contains method

def skipPreconditionError (method : Method) (status : Nat) : Bool :=
  status = 412 && [Method.del, .hdel, .srem, .zrem, .hset, .sadd, .zadd].contains method

def skipError (method : Method) (status : Nat) : Bool :=
  skipPreconditionError method status || skipNotFoundError method status

namespace WriteCtx

def updateError (method : Method) (status : Nat) (ctx : WriteCtx) : WriteCtx :=
  if status = 200 then { ctx with healthPeer := some ctx.peer }
  else if skipError method status then { ctx with skipErrorCount := ctx.skipErrorCount + 1 }
  else { ctx with errorCount := ctx.errorCount + 1, errorPeer := some ctx.peer }

def onSubrequestComplete (status : Nat) (version : Option Nat) (ctx : WriteCtx) : WriteCtx :=
  if status ≠ 200 then ctx
  else match version, ctx.version with
    | none, _ => ctx
    | some val, none => { ctx with version := some val }
    | some dst, some src => if dst > src then { ctx with version := some dst } else ctx

end WriteCtx

/-! ### The handler -/

variable (env : Env)

def sendResponse (status : Nat) (version : Option Nat) : Result :=
  if !env.versionHead then .error
  else .response status (if status = 200 then version else some 0)

def runSubrequest (ctx : WriteCtx) : Result := if env.starts then .subrequest ctx else .response 500 none

def writeSyncData (ctx : WriteCtx) : Reply :=
  if !env.encodes then ⟨sendResponse env 404 none, []⟩
  else match ctx.errorPeer with
    | none => ⟨.crash, []⟩
    | some server =>
      if !env.logs then ⟨sendResponse env 404 none, []⟩
      else if !env.syncHead then ⟨sendResponse env 404 none, [server]⟩
      else ⟨sendResponse env 200 ctx.version, [server]⟩

def writeBinlog (ctx : WriteCtx) : Reply :=
  match ctx.healthPeer, ctx.errorPeer with
  | none, _ => ⟨.crash, []⟩
  | some health, errorPeer =>
    if !env.alive health then writeSyncData env ctx
    else match errorPeer with
      | none => ⟨.crash, []⟩
      | some _ => ⟨runSubrequest env { ctx with state := .writeBinlog }, []⟩

def postWriteData (ctx : WriteCtx) : Reply :=
  if ctx.skipErrorCount = 0 ∧ ctx.errorCount = 1 then writeBinlog env ctx
  else if ctx.skipErrorCount = 0 ∧ ctx.errorCount = 0 then ⟨sendResponse env 200 ctx.version, []⟩
  else ⟨sendResponse env 404 none, []⟩

def onWriteMaster1Complete (debugSync : Bool) (method : Method) (status : Nat) (ctx : WriteCtx) :
    Reply :=
  let ctx := { ctx.updateError method status with peer := .master2 }
  if env.alive .master2 && !debugSync then
    ⟨runSubrequest env { ctx with state := .writeMaster2 }, []⟩
  else
    postWriteData env { ctx with errorCount := ctx.errorCount + 1, errorPeer := some .master2 }

def onWriteMaster2Complete (method : Method) (status : Nat) (ctx : WriteCtx) : Reply :=
  postWriteData env (ctx.updateError method status)

def onWriteBinlogComplete (status : Nat) (ctx : WriteCtx) : Reply :=
  if status ≠ 200 then writeSyncData env ctx
  else match ctx.errorPeer with
    | none => ⟨.crash, []⟩
    | some _ =>
      if !env.syncHead then ⟨sendResponse env 404 none, []⟩
      else ⟨sendResponse env 200 ctx.version, []⟩

def switchState (debugSync : Bool) (method : Method) (status : Nat) (ctx : WriteCtx) : Reply :=
  match ctx.state with
  | .writeMaster1 => onWriteMaster1Complete env debugSync method status ctx
  | .writeMaster2 => onWriteMaster2Complete env method status ctx
  | .writeBinlog => onWriteBinlogComplete env status ctx

def initWriteArgs : Option WriteCtx :=
  if env.alive .master1 then some ⟨.master1, .writeMaster1, 0, 0, none, none, none⟩
  else if env.alive .master2 then
    some ⟨.master2, .writeMaster2, 1, 0, some .master1, none, none⟩
  else none

def startWrite (method : Method) (args : Bool) : Result :=
  match if args then initWriteArgs env else none with
  | some ctx => runSubrequest env ctx
  | none => if method = .del ∨ method = .hdel then .error else sendResponse env 404 none

/-! ### Runs -/

/-- Where the request is, and what has happened to the write: which masters acknowledged it with 200, who
acknowledged to have recorded it for whom, and for whom it was logged. -/
structure WriteRun where
  handler : Option Result
  acks : List Master
  binlogs : List (Master × Master)
  synced : List Master
  deriving DecidableEq, Repr

inductive Event
  | start (args : Bool) (env : Env)
  | complete (status : Nat) (version : Option Nat) (env : Env)

namespace WriteRun

def init : WriteRun := ⟨none, [], [], []⟩

def observe (run : WriteRun) (ctx : WriteCtx) (status : Nat) : WriteRun :=
  if status ≠ 200 then run
  else match ctx.state with
    | .writeMaster1 | .writeMaster2 => { run with acks := run.acks ++ [ctx.peer] }
    | .writeBinlog => { run with
        binlogs := run.binlogs ++ (ctx.healthPeer.toList.zip ctx.errorPeer.toList) }

def step (debugSync : Bool) (method : Method) (run : WriteRun) : Event → WriteRun
  | .start args env => match run.handler with
    | none => { run with handler := some (startWrite env method args) }
    | some _ => run
  | .complete status version env => match run.handler with
    | some (.subrequest ctx) =>
      let reply := switchState env debugSync method status (ctx.onSubrequestComplete status version)
      let run := run.observe ctx status
      { run with handler := some reply.result, synced := run.synced ++ reply.synced }
    | _ => run

def Durable (run : WriteRun) (m : Master) : Prop :=
  m ∈ run.acks ∨ (∃ other, other ≠ m ∧ (other, m) ∈ run.binlogs) ∨ m ∈ run.synced

end WriteRun

/-! ### What a 200 means -/

def OneFailed (acks : List Master) (healthPeer errorPeer : Option Master) : Prop :=
  ∃ health error, health ≠ error ∧ healthPeer = some health ∧ errorPeer = some error ∧ health ∈ acks

inductive AfterMaster1 (acks : List Master) : Nat → Nat → Option Master → Option Master → Prop
  | acked {errorPeer} (hack : .master1 ∈ acks) : AfterMaster1 acks 0 0 (some .master1) errorPeer
  | failed {healthPeer} : AfterMaster1 acks 0 1 healthPeer (some .master1)
  | skipped {errors healthPeer errorPeer} : AfterMaster1 acks 1 errors healthPeer errorPeer

def WriteCtx.Inv (acks : List Master) (ctx : WriteCtx) : Prop :=
  match ctx.state with
  | .writeMaster1 => ctx.peer = .master1 ∧ ctx.skipErrorCount = 0 ∧ ctx.errorCount = 0
  | .writeMaster2 => ctx.peer = .master2 ∧
    AfterMaster1 acks ctx.skipErrorCount ctx.errorCount ctx.healthPeer ctx.errorPeer
  | .writeBinlog => OneFailed acks ctx.healthPeer ctx.errorPeer

structure BothOver (acks : List Master) (skips errors : Nat) (healthPeer errorPeer : Option Master) : Prop where
  acked : skips = 0 → errors = 0 → ∀ m, m ∈ acks
  failed : skips = 0 → errors = 1 → OneFailed acks healthPeer errorPeer

variable {healthPeer errorPeer : Option Master}

theorem AfterMaster1.bothOver_failed {acks : List Master} {skips errors : Nat}
    (h : AfterMaster1 acks skips errors healthPeer errorPeer) :
    BothOver acks skips (errors + 1) healthPeer (some .master2) := by
  refine ⟨fun _ herror => absurd herror (Nat.succ_ne_zero _), fun hskip herror => ?_⟩
  cases h with
  | acked hack => exact ⟨.master1, .master2, by decide, rfl, rfl, hack⟩
  | failed => cases herror
  | skipped => cases hskip

theorem AfterMaster1.bothOver_acked {acks : List Master} {skips errors : Nat}
    (h : AfterMaster1 acks skips errors healthPeer errorPeer) :
    BothOver (acks ++ [.master2]) skips errors (some .master2) errorPeer := by
  have hlast : Master.master2 ∈ acks ++ [.master2] :=
    List.mem_append_right _ (List.mem_singleton_self _)
  refine ⟨fun hskip herror m => ?_, fun hskip herror => ?_⟩
  · cases h with
    | acked hack =>
      cases m with
      | master1 => exact List.mem_append_left _ hack
      | master2 => exact hlast
    | failed => cases herror
    | skipped => cases hskip
  · cases h with
    | acked => cases herror
    | failed => exact ⟨.master2, .master1, by decide, rfl, rfl, hlast⟩
    | skipped => cases hskip

def Result.Sound (run : WriteRun) : Result → Prop
  | .subrequest ctx => ctx.Inv run.acks
  | .response status _ => status = 200 → ∀ m, run.Durable m
  | .error => True
  | .crash => False

namespace WriteRun

def sync (run : WriteRun) (peers : List Master) : WriteRun := { run with synced := run.synced ++ peers }

variable {env : Env} {run : WriteRun} {ctx : WriteCtx}

variable {status : Nat}

theorem sound_refused (version : Option Nat) (h : status ≠ 200) : (sendResponse env status version).Sound run := by
  unfold sendResponse
  split
  · trivial
  · exact fun hstatus => absurd hstatus h

theorem sound_accepted (version : Option Nat) (h : ∀ m, run.Durable m) :
    (sendResponse env 200 version).Sound run := by
  unfold sendResponse
  split
  · trivial
  · exact fun _ => h

theorem sound_runSubrequest (h : ctx.Inv run.acks) : (runSubrequest env ctx).Sound run := by
  unfold runSubrequest
  split
  · exact h
  · exact fun hstatus => absurd hstatus (by decide)

theorem durable_of_two {health error : Master} (hne : health ≠ error) (hhealth : run.Durable health)
    (herror : run.Durable error) (m : Master) : run.Durable m := by
  have heq : m = health ∨ m = error := by
    revert hne
    cases m <;> cases health <;> cases error <;> decide
  rcases heq with rfl | rfl
  · exact hhealth
  · exact herror

theorem sound_writeSyncData (h : OneFailed run.acks ctx.healthPeer ctx.errorPeer) :
    (writeSyncData env ctx).result.Sound (run.sync (writeSyncData env ctx).synced) := by
  obtain ⟨health, error, hne, -, herror, hack⟩ := h
  simp only [writeSyncData, herror]
  split
  · exact sound_refused _ (by decide)
  · split
    · exact sound_refused _ (by decide)
    · split
      · exact sound_refused _ (by decide)
      · have hsynced : error ∈ (run.sync [error]).synced := by simp [sync]
        exact sound_accepted _ (durable_of_two hne (.inl hack) (.inr (.inr hsynced)))

theorem sound_writeBinlog (h : OneFailed run.acks ctx.healthPeer ctx.errorPeer) :
    (writeBinlog env ctx).result.Sound (run.sync (writeBinlog env ctx).synced) := by
  obtain ⟨health, error, hne, hhealth, herror, hack⟩ := id h
  simp only [writeBinlog, hhealth, herror]
  split
  · exact sound_writeSyncData h
  · exact sound_runSubrequest ⟨health, error, hne, rfl, rfl, hack⟩

theorem sound_postWriteData (h : BothOver run.acks ctx.skipErrorCount ctx.errorCount ctx.healthPeer ctx.errorPeer) :
    (postWriteData env ctx).result.Sound (run.sync (postWriteData env ctx).synced) := by
  unfold postWriteData
  split
  · rename_i hone
    exact sound_writeBinlog (h.failed hone.1 hone.2)
  · split
    · rename_i hnone
      exact sound_accepted _ fun m => .inl (h.acked hnone.1 hnone.2 m)
    · exact sound_refused _ (by decide)

theorem afterMaster1 (method : Method) (hstate : ctx.state = .writeMaster1)
    (hpeer : ctx.peer = .master1) (hskip : ctx.skipErrorCount = 0) (herror : ctx.errorCount = 0) :
    let ctx' := ctx.updateError method status
    AfterMaster1 (run.observe ctx status).acks ctx'.skipErrorCount ctx'.errorCount ctx'.healthPeer
      ctx'.errorPeer := by
  obtain ⟨peer, state, errors, skips, errorPeer, healthPeer, version⟩ := ctx
  cases hstate
  cases hpeer
  cases hskip
  cases herror
  unfold WriteCtx.updateError observe
  split
  · rename_i hok
    rw [if_neg (not_not.mpr hok)]
    exact .acked (List.mem_append_right _ (List.mem_singleton_self _))
  · split
    · exact .skipped
    · exact .failed

variable {method : Method}

theorem bothOver_master2 (hstate : ctx.state = .writeMaster2) (hpeer : ctx.peer = .master2)
    (h : AfterMaster1 run.acks ctx.skipErrorCount ctx.errorCount ctx.healthPeer ctx.errorPeer) :
    let ctx' := ctx.updateError method status
    BothOver (run.observe ctx status).acks ctx'.skipErrorCount ctx'.errorCount ctx'.healthPeer
      ctx'.errorPeer := by
  obtain ⟨peer, state, errors, skips, errorPeer, healthPeer, version⟩ := ctx
  cases hstate
  cases hpeer
  unfold WriteCtx.updateError observe
  split
  · rename_i hok
    rw [if_neg (not_not.mpr hok)]
    exact h.bothOver_acked
  · split
    · exact ⟨fun hskip => absurd hskip (Nat.succ_ne_zero _), fun hskip => absurd hskip (Nat.succ_ne_zero _)⟩
    · exact h.bothOver_failed

theorem onSubrequestComplete_eq (status : Nat) (version : Option Nat) (ctx : WriteCtx) :
    ∃ v, ctx.onSubrequestComplete status version = { ctx with version := v } := by
  unfold WriteCtx.onSubrequestComplete
  split
  · exact ⟨_, rfl⟩
  · split
    · exact ⟨_, rfl⟩
    · exact ⟨_, rfl⟩
    · split
      · exact ⟨_, rfl⟩
      · exact ⟨_, rfl⟩

theorem sound_switchState {debugSync : Bool} (h : ctx.Inv run.acks) :
    (switchState env debugSync method status ctx).result.Sound
      ((run.observe ctx status).sync (switchState env debugSync method status ctx).synced) := by
  unfold switchState
  unfold WriteCtx.Inv at h
  cases hstate : ctx.state with
  | writeMaster1 =>
    rw [hstate] at h
    have hafter : AfterMaster1 (run.observe ctx status).acks _ _ _ _ :=
      afterMaster1 method hstate h.1 h.2.1 h.2.2
    simp only [onWriteMaster1Complete]
    split
    · exact sound_runSubrequest ⟨rfl, hafter⟩
    · exact sound_postWriteData hafter.bothOver_failed
  | writeMaster2 =>
    rw [hstate] at h
    exact sound_postWriteData (bothOver_master2 hstate h.1 h.2)
  | writeBinlog =>
    rw [hstate] at h
    have hacks : (run.observe ctx status).acks = run.acks := by
      unfold observe
      rw [hstate]
      split <;> rfl
    obtain ⟨health, error, hne, hhealth, herror, hack⟩ := id h
    simp only [onWriteBinlogComplete]
    split
    · exact sound_writeSyncData (by rw [hacks]; exact h)
    · rename_i hok
      simp only [herror]
      split
      · exact sound_refused _ (by decide)
      · have hbinlog : (health, error) ∈ ((run.observe ctx status).sync []).binlogs := by
          simp [observe, sync, hstate, hhealth, herror, not_not.mp hok]
        refine sound_accepted _ (durable_of_two hne (.inl ?_) (.inr (.inl ⟨health, hne, hbinlog⟩)))
        exact (congrArg (health ∈ ·) hacks).mpr hack

theorem sound_startWrite {args : Bool} : (startWrite env method args).Sound run := by
  have hrefused : Result.Sound run
      (if method = .del ∨ method = .hdel then .error else sendResponse env 404 none) := by
    split
    · trivial
    · exact sound_refused _ (by decide)
  unfold startWrite initWriteArgs
  cases args with
  | false => exact hrefused
  | true =>
    rw [if_pos rfl]
    by_cases hfirst : env.alive .master1
    · rw [if_pos hfirst]
      exact sound_runSubrequest ⟨rfl, rfl, rfl⟩
    · rw [if_neg hfirst]
      by_cases hsecond : env.alive .master2
      · rw [if_pos hsecond]
        exact sound_runSubrequest ⟨rfl, .failed⟩
      · rw [if_neg hsecond]
        exact hrefused

def Sound (run : WriteRun) : Prop := ∀ result, run.handler = some result → result.Sound run

theorem sound_step {debugSync : Bool} (hrun : run.Sound) (event : Event) :
    (run.step debugSync method event).Sound := by
  cases event with
  | start args env =>
    unfold step
    cases hhandler : run.handler with
    | none =>
      intro result hresult
      cases hresult
      exact sound_startWrite
    | some result => exact hrun
  | complete status version env =>
    unfold step
    simp only
    split
    · rename_i ctx hhandler
      have hinv : ctx.Inv run.acks := hrun _ hhandler
      obtain ⟨v, heq⟩ := onSubrequestComplete_eq status version ctx
      rw [heq]
      intro result hresult
      cases hresult
      exact sound_switchState (show WriteCtx.Inv run.acks { ctx with version := v } from hinv)
    · exact hrun

end WriteRun

/-- If the client receives 200, then each master has acknowledged the write with 200, or the write is
recorded for it, in the binlog of the other master or in the local log. -/
theorem response_200_is_durable (debugSync : Bool) (method : Method) (events : List Event) (version : Option Nat) :
    let run := Run.exec (WriteRun.step debugSync method) WriteRun.init events
    run.handler = some (.response 200 version) → ∀ m, run.Durable m := by
  intro run hresponse
  have hguard : Run.Guarded (WriteRun.step debugSync method) (fun _ _ => True) WriteRun.init events :=
    Run.guarded_of_forall fun _ _ => trivial
  have hsound : run.Sound := hguard.invariant (P := WriteRun.Sound)
    (fun run event hrun _ => WriteRun.sound_step hrun event) fun _ hresult => by cases hresult
  exact hsound _ hresponse rfl

def calm : Env := ⟨fun _ => true, true, true, true, true, true⟩

theorem response_200_is_durable_binlog :
    let events := [.start true calm, .complete 200 (some 5) calm, .complete 0 none calm,
      .complete 200 none calm]
    let run := Run.exec (WriteRun.step false .put) WriteRun.init events
    run.handler = some (.response 200 (some 5)) ∧ run.acks = [.master1] ∧ run.Durable .master2 :=
  ⟨by decide, by decide, response_200_is_durable false .put _ (some 5) (by decide) .master2⟩

end HustStore.Ha
