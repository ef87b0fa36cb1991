import HustStore.Raft.Configuration
import HustStore.Lib.Run
import HustStore.Lib.SortedMap
import Mathlib.Data.Finset.Card
import Mathlib.Data.List.GetD
import Mathlib.Data.List.Sort
import Mathlib.Order.Bounds.Basic

/-!
# The commit index of a raft leader

The commit index should be the largest index that a majority of the voters has matched. `match` has a value receiver:
the map of the indexes is shared with the caller, and the commit index it calculates is lost with the copy. The law is
stated over what the calls have reported, and the map is tied to that by an invariant.
-/

namespace HustStore.Raft

structure Commitment where
  matchIndexes : SortedMap Bytes Nat
  commitIndex : Nat
  startIndex : Nat

namespace Commitment

/-- The map of a configuration: a voter has the index that `old` has for it, or 0. -/
def voters (old : SortedMap Bytes Nat) (servers : List Server) : SortedMap Bytes Nat :=
  servers.foldl (fun m server =>
    if server.suffrage = .voter then m.insert server.id ((old.get? server.id).getD 0) else m) .empty

def newCommitment (servers : List Server) (startIndex : Nat) : Commitment := ⟨voters .empty servers, 0, startIndex⟩

def indexes (c : Commitment) : List Nat := c.matchIndexes.entries.map Prod.snd

def matched (c : Commitment) : List Nat := c.indexes.insertionSort (· ≤ ·)

def quorumMatchIndex (c : Commitment) : Nat := c.matched.getD ((c.matched.length - 1) / 2) 0

def recalculate (c : Commitment) : Commitment :=
  if c.matchIndexes.entries.length < 1 then c
  else if c.quorumMatchIndex > c.commitIndex ∧ c.quorumMatchIndex ≥ c.startIndex then
    { c with commitIndex := c.quorumMatchIndex }
  else c

def setConfiguration (c : Commitment) (servers : List Server) : Commitment :=
  { c with matchIndexes := voters c.matchIndexes servers }.recalculate

/-- `commitment.match` as it runs on its copy of the receiver. -/
def matchCopy (c : Commitment) (server : Bytes) (matchIndex : Nat) : Commitment :=
  match c.matchIndexes.get? server with
  | none => c
  | some currentIndex =>
    if matchIndex > currentIndex then
      { c with matchIndexes := c.matchIndexes.insert server matchIndex }.recalculate
    else c

/-- What the caller sees of it: the map is the same object, the number is not. -/
def matchServer (c : Commitment) (server : Bytes) (matchIndex : Nat) : Commitment :=
  { c with matchIndexes := (c.matchCopy server matchIndex).matchIndexes }

inductive Call
  | matchServer (server : Bytes) (matchIndex : Nat)
  | setConfiguration (servers : List Server)

def step (c : Commitment) : Call → Commitment
  | .matchServer server matchIndex => c.matchServer server matchIndex
  | .setConfiguration servers => c.setConfiguration servers

/-! ### What has been reported -/

/-- The calls so far, as their callers see them: the voters of the last configuration, the largest index that each
server has matched, and the largest that it has matched since it last became a voter. -/
structure Reports where
  voters : Finset Bytes
  matched : Bytes → Nat
  matchedAsVoter : Bytes → Nat

def voterIds (servers : List Server) : Finset Bytes :=
  ((servers.filter fun server => server.suffrage = .voter).map Server.id).toFinset

namespace Reports

def first (servers : List Server) : Reports := ⟨voterIds servers, fun _ => 0, fun _ => 0⟩

def step (r : Reports) : Call → Reports
  | .matchServer server i =>
    { r with
      matched := Function.update r.matched server (max (r.matched server) i)
      matchedAsVoter := if server ∈ r.voters
        then Function.update r.matchedAsVoter server (max (r.matchedAsVoter server) i) else r.matchedAsVoter }
  | .setConfiguration servers =>
    { r with
      voters := voterIds servers
      -- who was no voter before starts from nothing
      matchedAsVoter := fun server => if server ∈ r.voters then r.matchedAsVoter server else 0 }

end Reports

/-- A strict majority of the voters has reached the index. -/
def Majority (voters : Finset Bytes) (index : Bytes → Nat) (i : Nat) : Prop :=
  voters.card < 2 * (voters.filter fun server => i ≤ index server).card

def track (s : Commitment × Reports) (call : Call) : Commitment × Reports := (s.1.step call, s.2.step call)

/-- The law of the commit index for a call that leads from `s` to `s'`. It speaks of what has been reported only. -/
structure Lawful (s s' : Commitment × Reports) : Prop where
  mono : s.1.commitIndex ≤ s'.1.commitIndex
  no_voters : s'.2.voters = ∅ → s'.1.commitIndex = s.1.commitIndex
  majority : ∀ q, IsGreatest {i | Majority s'.2.voters s'.2.matched i} q →
    s'.1.commitIndex = if s.1.startIndex ≤ q then max s.1.commitIndex q else s.1.commitIndex

/-- No majority reaches beyond the commit index in the leader's term with the call, or the call is a new
configuration and the majority of its voters has matched the index as voters. -/
def Settled (s : Commitment × Reports) (call : Call) : Prop :=
  ∀ q, IsGreatest {i | Majority (s.2.step call).voters (s.2.step call).matched i} q →
    q ≤ s.1.commitIndex ∨ q < s.1.startIndex ∨
      (∃ servers, call = .setConfiguration servers) ∧
        Majority (s.2.step call).voters (s.2.step call).matchedAsVoter q

/-! ### The index in the middle -/

theorem le_getElem_iff {l : List Nat} (hl : l.Pairwise (· ≤ ·)) {k : Nat} (hk : k < l.length) (i : Nat) :
    i ≤ l[k] ↔ l.length - k ≤ l.countP (i ≤ ·) := by
  have hle {a b : Nat} (ha : a ≤ b) (hb : b < l.length) : l[a] ≤ l[b] :=
    (Nat.eq_or_lt_of_le ha).elim (fun h => by simp [h]) (List.pairwise_iff_getElem.mp hl a b _ hb)
  constructor
  · intro hi
    have hall : (l.drop k).countP (i ≤ ·) = (l.drop k).length := List.countP_eq_length.mpr fun x hx => by
      obtain ⟨j, hj, rfl⟩ := List.getElem_of_mem hx
      rw [List.getElem_drop, decide_eq_true_eq]
      exact hi.trans (hle (Nat.le_add_right k j) _)
    rw [← List.length_drop, ← hall]
    exact (List.drop_sublist k l).countP_le
  · intro hcount
    by_contra hlt
    have hnone : (l.take (k + 1)).countP (i ≤ ·) = 0 := List.countP_eq_zero.mpr fun x hx => by
      obtain ⟨j, hj, rfl⟩ := List.getElem_of_mem hx
      rw [List.length_take] at hj
      rw [List.getElem_take, decide_eq_true_eq]
      have := hle (show j ≤ k by omega) hk
      omega
    have hsplit : l.countP (i ≤ ·) = (l.drop (k + 1)).countP (i ≤ ·) := by
      rw [← List.take_append_drop (k + 1) l, List.countP_append, hnone, Nat.zero_add, List.take_append_drop]
    have := (l.drop (k + 1)).countP_le_length (p := (i ≤ ·))
    rw [List.length_drop] at this
    omega

theorem le_quorumMatchIndex_iff {c : Commitment} (h : c.indexes ≠ []) (i : Nat) :
    i ≤ c.quorumMatchIndex ↔ c.indexes.length < 2 * c.indexes.countP (i ≤ ·) := by
  have hperm : c.matched.Perm c.indexes := List.perm_insertionSort _ _
  have hsorted : c.matched.Pairwise (· ≤ ·) := List.pairwise_insertionSort _ _
  have hpos := List.length_pos_iff.mpr h
  have hk : (c.matched.length - 1) / 2 < c.matched.length := by
    rw [hperm.length_eq]
    omega
  unfold quorumMatchIndex
  rw [List.getD_eq_getElem _ _ hk, le_getElem_iff hsorted hk, hperm.countP_eq, hperm.length_eq]
  omega

/-! ### The map holds what the voters have reported -/

/-- The map has the voters for its keys and what they have matched as voters for its values. -/
structure Agrees (s : Commitment × Reports) : Prop where
  get? : ∀ server, s.1.matchIndexes.get? server =
    if server ∈ s.2.voters then some (s.2.matchedAsVoter server) else none
  le : ∀ server, s.2.matchedAsVoter server ≤ s.2.matched server

theorem mem_voterIds {servers : List Server} {id : Bytes} :
    id ∈ voterIds servers ↔ ∃ server ∈ servers, server.suffrage = .voter ∧ server.id = id := by
  simp [voterIds, and_assoc]

theorem get?_voters (old : SortedMap Bytes Nat) (servers : List Server) (id : Bytes) :
    (voters old servers).get? id = if id ∈ voterIds servers then some ((old.get? id).getD 0) else none := by
  have hfold (m : SortedMap Bytes Nat) : (servers.foldl (fun m server =>
      if server.suffrage = .voter then m.insert server.id ((old.get? server.id).getD 0) else m) m).get? id =
      if id ∈ voterIds servers then some ((old.get? id).getD 0) else m.get? id := by
    induction servers generalizing m with
    | nil => simp [voterIds]
    | cons server servers ih =>
      have hcons : id ∈ voterIds (server :: servers) ↔
          (server.suffrage = .voter ∧ server.id = id) ∨ id ∈ voterIds servers := by
        simp only [mem_voterIds, List.exists_mem_cons_iff]
      rw [List.foldl_cons, ih]
      by_cases hmem : id ∈ voterIds servers
      · rw [if_pos hmem, if_pos (hcons.mpr (Or.inr hmem))]
      · rw [if_neg hmem]
        by_cases hvoter : server.suffrage = .voter
        · rw [if_pos hvoter, SortedMap.get?_insert]
          by_cases hid : id = server.id
          · rw [if_pos hid, if_pos (hcons.mpr (Or.inl ⟨hvoter, hid.symm⟩)), hid]
          · rw [if_neg hid, if_neg fun h => (hcons.mp h).elim (fun hhead => hid hhead.2.symm) hmem]
        · rw [if_neg hvoter, if_neg fun h => (hcons.mp h).elim (fun hhead => hvoter hhead.1) hmem]
  exact hfold .empty

theorem matchIndexes_recalculate (c : Commitment) : c.recalculate.matchIndexes = c.matchIndexes := by
  unfold recalculate
  split_ifs <;> rfl

theorem get?_matchServer (c : Commitment) (server : Bytes) (i : Nat) (id : Bytes) :
    (c.matchServer server i).matchIndexes.get? id =
      if id = server then (c.matchIndexes.get? server).map (max · i) else c.matchIndexes.get? id := by
  unfold matchServer matchCopy
  dsimp only
  split
  · rename_i hnone
    split_ifs with hid
    · rw [hid, hnone, Option.map_none]
    · rfl
  · rename_i current hsome
    split_ifs with hlt hid hid
    · rw [matchIndexes_recalculate, SortedMap.get?_insert, if_pos hid, hsome, Option.map_some, max_eq_right hlt.le]
    · rw [matchIndexes_recalculate, SortedMap.get?_insert, if_neg hid]
    · rw [hid, hsome, Option.map_some, max_eq_left (not_lt.mp hlt)]
    · rfl

theorem agrees_first (servers : List Server) (startIndex : Nat) :
    Agrees (newCommitment servers startIndex, Reports.first servers) where
  get? server := by
    show (voters .empty servers).get? server = _
    rw [get?_voters]
    rfl
  le _ := le_rfl

theorem Agrees.track {s : Commitment × Reports} (h : Agrees s) (call : Call) : Agrees (track s call) := by
  obtain ⟨c, r⟩ := s
  cases call with
  | matchServer server i =>
    refine ⟨fun id => ?_, fun id => ?_⟩
    · have hget := h.get? id
      have hserver := h.get? server
      simp only [Commitment.track, step, Reports.step, get?_matchServer] at hget hserver ⊢
      by_cases hid : id = server
      · subst hid
        rw [if_pos rfl, hget]
        split_ifs <;> simp
      · rw [if_neg hid, hget]
        split_ifs <;> simp [Function.update_of_ne hid]
    · have hle := h.le id
      simp only [Commitment.track, Reports.step]
      by_cases hid : id = server
      · subst hid
        split_ifs <;> simp only [Function.update_self] at * <;> omega
      · split_ifs <;> simpa [Function.update_of_ne hid] using hle
  | setConfiguration servers =>
    refine ⟨fun id => ?_, fun id => ?_⟩
    · simp only [Commitment.track, step, Reports.step, setConfiguration, matchIndexes_recalculate,
        get?_voters, h.get? id]
      split_ifs <;> rfl
    · have hle := h.le id
      simp only [Commitment.track, Reports.step]
      split_ifs <;> omega

section Quorum

variable {s : Commitment × Reports} (h : Agrees s)
include h

theorem Agrees.card_filter (p : Nat → Bool) :
    s.1.indexes.countP p = (s.2.voters.filter fun server => p (s.2.matchedAsVoter server)).card := by
  have hkeys : (s.1.matchIndexes.entries.filter fun e => p e.2).map Prod.fst |>.Nodup :=
    (List.pairwise_map.mpr (s.1.matchIndexes.sorted.imp fun hlt => hlt.ne)).sublist (List.filter_sublist.map _)
  have hset : ((s.1.matchIndexes.entries.filter fun e => p e.2).map Prod.fst).toFinset =
      s.2.voters.filter fun server => p (s.2.matchedAsVoter server) := by
    ext server
    have hget := h.get? server
    simp only [List.mem_toFinset, List.mem_map, List.mem_filter, Prod.exists, exists_and_right, exists_eq_right,
      SortedMap.mem_entries, hget, Finset.mem_filter]
    split_ifs with hmem <;> simp [hmem]
  rw [← hset, List.toFinset_card_of_nodup hkeys, List.length_map, indexes, List.countP_map,
    ← List.countP_eq_length_filter]
  rfl

theorem Agrees.length_indexes : s.1.indexes.length = s.2.voters.card := by
  simpa using h.card_filter fun _ => true

/-- The quorum index is the largest index that a majority has matched as voters. -/
theorem Agrees.le_quorumMatchIndex_iff (hne : s.2.voters ≠ ∅) (i : Nat) :
    i ≤ s.1.quorumMatchIndex ↔ Majority s.2.voters s.2.matchedAsVoter i := by
  have hindexes : s.1.indexes ≠ [] := fun hnil => hne (Finset.card_eq_zero.mp (by rw [← h.length_indexes, hnil]; rfl))
  rw [Commitment.le_quorumMatchIndex_iff hindexes, h.length_indexes, h.card_filter]
  simp only [Majority, decide_eq_true_eq]

theorem Agrees.majority_mono {i : Nat} (hi : Majority s.2.voters s.2.matchedAsVoter i) :
    Majority s.2.voters s.2.matched i := by
  have hsub : (s.2.voters.filter fun server => i ≤ s.2.matchedAsVoter server) ⊆
      s.2.voters.filter fun server => i ≤ s.2.matched server :=
    Finset.monotone_filter_right _ fun server _ hle => hle.trans (h.le server)
  have := Finset.card_le_card hsub
  unfold Majority at hi ⊢
  omega

end Quorum

/-! ### One call and a sequence of calls -/

theorem commitIndex_recalculate {c : Commitment} (h : c.indexes ≠ []) :
    c.recalculate.commitIndex =
      if c.startIndex ≤ c.quorumMatchIndex then max c.commitIndex c.quorumMatchIndex else c.commitIndex := by
  have hlength : ¬ c.matchIndexes.entries.length < 1 := by simpa [indexes, Nat.pos_iff_ne_zero] using h
  rw [recalculate, if_neg hlength, apply_ite commitIndex]
  dsimp only
  split_ifs <;> omega

theorem recalculate_of_indexes {c : Commitment} (h : c.indexes = []) : c.recalculate = c := by
  unfold recalculate
  rw [if_pos (by simpa [indexes] using h)]

theorem lawful_matchServer_iff (s : Commitment × Reports) (server : Bytes) (i : Nat) :
    Lawful s (track s (.matchServer server i)) ↔ Settled s (.matchServer server i) := by
  have hkept : (track s (.matchServer server i)).1.commitIndex = s.1.commitIndex := rfl
  constructor
  · intro h q hq
    have := h.majority q hq
    rw [hkept] at this
    split_ifs at this <;> omega
  · intro h
    refine ⟨hkept.ge, fun _ => hkept, fun q hq => ?_⟩
    rw [hkept]
    obtain hle | hlt | ⟨⟨_, hcall⟩, -⟩ := h q hq
    · split_ifs <;> omega
    · split_ifs <;> omega
    · cases hcall

theorem lawful_setConfiguration_iff {s : Commitment × Reports} (h : Agrees s) (servers : List Server) :
    Lawful s (track s (.setConfiguration servers)) ↔ Settled s (.setConfiguration servers) := by
  have hagrees := h.track (.setConfiguration servers)
  set s' := track s (.setConfiguration servers) with hs'
  set c : Commitment := { s.1 with matchIndexes := voters s.1.matchIndexes servers } with hc
  have hcommit : s'.1.commitIndex = c.recalculate.commitIndex := rfl
  have hindexes : s'.1.indexes = c.indexes := by
    show c.recalculate.indexes = _
    rw [indexes, matchIndexes_recalculate, indexes]
  have hquorum : s'.1.quorumMatchIndex = c.quorumMatchIndex := by
    unfold quorumMatchIndex matched
    rw [hindexes]
  have hempty : s'.2.voters = ∅ ↔ c.indexes = [] := by
    rw [← hindexes, ← List.length_eq_zero_iff, hagrees.length_indexes, Finset.card_eq_zero]
  -- a majority has a voter, so the quorum index is calculated
  have hlaw (q : Nat) (hq : IsGreatest {i | Majority s'.2.voters s'.2.matched i} q) :
      (s'.1.commitIndex = if s.1.startIndex ≤ q then max s.1.commitIndex q else s.1.commitIndex) ↔
        q ≤ s.1.commitIndex ∨ q < s.1.startIndex ∨ Majority s'.2.voters s'.2.matchedAsVoter q := by
    have hne : s'.2.voters ≠ ∅ := fun hnil => by simpa [Majority, hnil] using hq.1
    have hquorum_le : c.quorumMatchIndex ≤ q :=
      hq.2 (hagrees.majority_mono ((hagrees.le_quorumMatchIndex_iff hne _).mp hquorum.ge))
    rw [hcommit, commitIndex_recalculate (fun hnil => hne (hempty.mpr hnil)),
      ← hagrees.le_quorumMatchIndex_iff hne, hquorum]
    show (if s.1.startIndex ≤ _ then max s.1.commitIndex _ else s.1.commitIndex) = _ ↔ _
    split_ifs <;> omega
  constructor
  · intro hlawful q hq
    exact ((hlaw q hq).mp (hlawful.majority q hq)).imp_right (Or.imp_right fun hmajority => ⟨⟨servers, rfl⟩, hmajority⟩)
  · intro hsettled
    refine ⟨?_, fun hnil => ?_, fun q hq => (hlaw q hq).mpr ?_⟩
    · by_cases hnil : c.indexes = []
      · rw [hcommit, recalculate_of_indexes hnil]
      · rw [hcommit, commitIndex_recalculate hnil]
        split_ifs
        · exact le_max_left _ _
        · exact le_rfl
    · rw [hcommit, recalculate_of_indexes (hempty.mp hnil)]
    · exact (hsettled q hq).imp_right (Or.imp_right And.right)

/-- In every sequence of calls the commit index obeys its law after each of them exactly if each call is settled. -/
theorem commit_index_law_iff (servers : List Server) (startIndex : Nat) (calls : List Call) :
    Run.Guarded track (fun s call => Lawful s (track s call))
        (newCommitment servers startIndex, Reports.first servers) calls ↔
      Run.Guarded track Settled (newCommitment servers startIndex, Reports.first servers) calls := by
  refine Run.guarded_congr (P := Agrees) (fun s call h => h.track call) (fun s call h => ?_)
    (agrees_first servers startIndex)
  cases call with
  | matchServer server i => exact lawful_matchServer_iff s server i
  | setConfiguration servers => exact lawful_setConfiguration_iff h servers

/-- The only voter matches index 3 and the commit index stays 0, where the copy has 3. -/
theorem match_is_lost :
    let s := Run.exec track (newCommitment soleVoter 1, Reports.first soleVoter) [.matchServer (ascii "a") 3]
    s.2.voters = {ascii "a"} ∧ s.2.matched (ascii "a") = 3 ∧
    ((newCommitment soleVoter 1).matchCopy (ascii "a") 3).commitIndex = 3 ∧ s.1.commitIndex = 0 ∧
    ¬ Lawful (newCommitment soleVoter 1, Reports.first soleVoter) s := by
  intro s
  have hvoters : s.2.voters = {ascii "a"} := by decide
  have hmatched : s.2.matched (ascii "a") = 3 := by decide
  have hcommit : s.1.commitIndex = 0 := by decide
  refine ⟨hvoters, hmatched, by decide, hcommit, fun h => ?_⟩
  have hiff (i : Nat) : Majority s.2.voters s.2.matched i ↔ i ≤ 3 := by
    unfold Majority
    rw [hvoters, Finset.filter_singleton, hmatched]
    split_ifs with hi <;> simp [hi]
  have := h.majority 3 ⟨(hiff 3).mpr le_rfl, fun i hi => (hiff i).mp hi⟩
  rw [hcommit] at this
  exact absurd this (by decide)

end Commitment

end HustStore.Raft
