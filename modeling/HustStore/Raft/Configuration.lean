import HustStore.Base
import Mathlib.Data.List.Basic

/-!
# Changes of a raft configuration

`Next` clones the configuration and then changes the receiver, so that what it checks and returns is the clone.
-/

namespace HustStore.Raft

inductive Suffrage
  | voter
  | nonvoter
  | staging
  deriving DecidableEq

structure Server where
  suffrage : Suffrage
  id : Bytes
  address : Bytes
  deriving DecidableEq

inductive ConfigurationError
  | emptyId (servers : List Server)
  | emptyAddress (server : Server)
  | duplicateId (id : Bytes)
  | duplicateAddress (address : Bytes)
  | noVoter (servers : List Server)
  | changedSince (prevIndex currentIndex : Nat)
  deriving DecidableEq

/-- The loop of `Check`, with the sets of the ids and addresses it has met and the number of voters. -/
def checkLoop (all : List Server) (ids addresses : List Bytes) (voters : Nat) : List Server → Option ConfigurationError
  | [] => if voters < 1 then some (.noVoter all) else none
  | server :: rest =>
    if server.id.length < 1 then some (.emptyId all)
    else if server.address.length < 1 then some (.emptyAddress server)
    else if server.id ∈ ids then some (.duplicateId server.id)
    else if server.address ∈ addresses then some (.duplicateAddress server.address)
    else checkLoop all (server.id :: ids) (server.address :: addresses)
      (if server.suffrage = .voter then voters + 1 else voters) rest

def check (servers : List Server) : Option ConfigurationError := checkLoop servers [] [] 0 servers

inductive Command
  | addStaging
  | addNonvoter
  | demoteVoter
  | removeServer
  | promote
  deriving DecidableEq

structure ChangeRequest where
  command : Command
  serverId : Bytes
  serverAddress : Bytes
  prevIndex : Nat

/-- No index stands for -1. -/
def indexof (servers : List Server) (id : Bytes) : Option Nat := servers.findIdx? fun server => decide (server.id = id)

def addServer (servers : List Server) (index : Option Nat) (suffrage : Suffrage) (request : ChangeRequest) :
    List Server :=
  let newServer : Server := ⟨suffrage, request.serverId, request.serverAddress⟩
  match index with
  | none => servers ++ [newServer]
  | some i => servers.modify i fun server =>
      if server.suffrage = .voter then { server with address := request.serverAddress } else newServer

/-- The switch of `Next`. An index of -1 is out of range for all but the additions, and `Next` panics. -/
def change (servers : List Server) (request : ChangeRequest) : Option (List Server) :=
  let index := indexof servers request.serverId
  match request.command with
  | .addStaging => some (addServer servers index .voter request)
  | .addNonvoter => some (addServer servers index .nonvoter request)
  | .demoteVoter => index.map fun i => servers.modify i fun server => { server with suffrage := .nonvoter }
  | .removeServer => index.map servers.eraseIdx
  | .promote => index.map fun i => servers.modify i fun server =>
      if server.suffrage = .staging then { server with suffrage := .voter } else server

inductive Outcome
  | panicked
  | refused (error : ConfigurationError)
  | returned (servers : List Server)
  deriving DecidableEq

/-- `Configuration.Next`: what it returns, and what becomes of the receiver. -/
def next (servers : List Server) (currentIndex : Nat) (request : ChangeRequest) : Outcome × List Server :=
  if request.prevIndex > 0 ∧ request.prevIndex ≠ currentIndex then
    (.refused (.changedSince request.prevIndex currentIndex), servers)
  else match change servers request with
    | none => (.panicked, servers)
    | some changed =>
      -- the switch works on `this`, and the clone that was made before is checked
      match check servers with
      | some error => (.refused error, changed)
      | none => (.returned servers, changed)

/-- An error or the changed configuration comes back, which passes the check, and the receiver is as it was. -/
structure Sound (servers : List Server) (request : ChangeRequest) (out : Outcome × List Server) : Prop where
  no_panic : out.1 ≠ .panicked
  frame : out.2 = servers
  result : ∀ returned, out.1 = .returned returned → change servers request = some returned ∧ check returned = none

/-- The server is there and is already what the request makes of it. -/
def Idle (servers : List Server) (request : ChangeRequest) : Prop :=
  ∃ server, servers.find? (fun server => decide (server.id = request.serverId)) = some server ∧
    match request.command with
    | .addStaging => server.suffrage = .voter ∧ server.address = request.serverAddress
    | .addNonvoter => server.suffrage ≠ .staging ∧ server.address = request.serverAddress
    | .demoteVoter => server.suffrage = .nonvoter
    | .removeServer => False
    | .promote => server.suffrage ≠ .staging

theorem modify_eq_self_iff {servers : List Server} {i : Nat} {server : Server} (hi : servers[i]? = some server)
    (f : Server → Server) : servers.modify i f = servers ↔ f server = server := by
  constructor
  · intro h
    have hget := congrArg (·[i]?) h
    simpa [hi] using hget
  · intro h
    apply List.ext_getElem?
    intro j
    rw [List.getElem?_modify]
    split_ifs with hj
    · simp [← hj, hi, h]
    · simp

theorem find?_eq_getElem? {servers : List Server} {id : Bytes} {i : Nat} (h : indexof servers id = some i) :
    ∃ server, servers[i]? = some server ∧ server.id = id ∧
      servers.find? (fun server => decide (server.id = id)) = some server := by
  obtain ⟨hlt, hid, hfirst⟩ := List.findIdx?_eq_some_iff_getElem.mp h
  refine ⟨servers[i], List.getElem?_eq_getElem hlt, of_decide_eq_true hid, ?_⟩
  exact List.find?_eq_some_iff_getElem.mpr ⟨hid, i, hlt, rfl, fun j hj => by simpa using hfirst j hj⟩

theorem change_eq_self_iff (servers : List Server) (request : ChangeRequest) :
    change servers request = some servers ↔ Idle servers request := by
  unfold change Idle
  cases hindex : indexof servers request.serverId with
  | none =>
    have hfind : servers.find? (fun server => decide (server.id = request.serverId)) = none := by
      simpa [indexof] using hindex
    cases hcommand : request.command <;> simp [hfind, addServer]
  | some i =>
    obtain ⟨server, hi, hid, hfind⟩ := find?_eq_getElem? hindex
    have hself : server = ⟨server.suffrage, request.serverId, server.address⟩ := by rw [← hid]
    have hlt : i < servers.length := (List.getElem?_eq_some_iff.mp hi).1
    cases hcommand : request.command with
    | removeServer =>
      have hlength : servers.eraseIdx i ≠ servers := fun h => by
        have := congrArg List.length h
        rw [List.length_eraseIdx_of_lt hlt] at this
        omega
      simp [hfind, hlength]
    | addStaging | addNonvoter | demoteVoter | promote =>
      simp only [hfind, addServer, Option.map_some, Option.some.injEq, modify_eq_self_iff hi, exists_eq_left']
      rw [hself]
      cases server.suffrage <;> simp [eq_comm]

/-- For a valid configuration, `Next` does what is asked of it and leaves the receiver alone exactly if the request
is refused for its index, or asks for what is already there. -/
theorem next_sound_iff {servers : List Server} (hvalid : check servers = none) (currentIndex : Nat)
    (request : ChangeRequest) : Sound servers request (next servers currentIndex request) ↔
      (0 < request.prevIndex ∧ request.prevIndex ≠ currentIndex) ∨ Idle servers request := by
  rw [← change_eq_self_iff]
  unfold next
  by_cases hstale : request.prevIndex > 0 ∧ request.prevIndex ≠ currentIndex
  · rw [if_pos hstale]
    exact iff_of_true ⟨Outcome.noConfusion, rfl, fun _ h => Outcome.noConfusion h⟩ (Or.inl hstale)
  · rw [if_neg hstale]
    cases hchange : change servers request with
    | none => exact iff_of_false (fun h => h.no_panic rfl) (by simp [hstale])
    | some changed =>
      simp only [hvalid]
      constructor
      · intro h
        exact Or.inr (congrArg some h.frame)
      · intro h
        have hsame : changed = servers := Option.some.inj (h.resolve_left hstale)
        refine ⟨Outcome.noConfusion, hsame, fun returned h => ?_⟩
        cases h
        exact ⟨hsame ▸ hchange, hvalid⟩

def soleVoter : List Server := [⟨.voter, ascii "a", ascii "h1"⟩]

def threeServers : List Server :=
  [⟨.voter, ascii "a", ascii "h1"⟩, ⟨.staging, ascii "b", ascii "h2"⟩, ⟨.nonvoter, ascii "c", ascii "h3"⟩]

theorem next_sound_demoted : check threeServers = none ∧
    Sound threeServers ⟨.demoteVoter, ascii "c", [], 0⟩ (next threeServers 5 ⟨.demoteVoter, ascii "c", [], 0⟩) :=
  ⟨by decide, (next_sound_iff (by decide) 5 _).mpr (Or.inr ⟨_, rfl, by decide⟩)⟩

/-- The new server is in the receiver and not in what is returned, and a request for an unknown server panics. -/
theorem receiver_is_changed : check soleVoter = none ∧
    next soleVoter 0 ⟨.addNonvoter, ascii "b", ascii "h2", 0⟩ =
      (.returned soleVoter, soleVoter ++ [⟨.nonvoter, ascii "b", ascii "h2"⟩]) ∧
    (next soleVoter 0 ⟨.demoteVoter, ascii "b", [], 0⟩).1 = .panicked := by
  decide

end HustStore.Raft
