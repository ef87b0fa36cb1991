import HustStore.Binlog.HostInfo
import HustStore.Lib.Run

/-!
# The rounds over the hosts

The cursor of `check_db` is a place in the map of hosts, which grows and shrinks between the rounds. A round is
all right as long as the cursor is not behind the end. Rounds keep it there, and so does `add_host` on a map with hosts.
-/

namespace HustStore.Binlog

namespace HostInfo

/-- The cursor does not stand behind the end of a map that has hosts. -/
def Steady (info : HostInfo) : Prop := info.hosts ≠ [] → info.cursor ≤ info.hosts.length

def probed (info : HostInfo) : List Bytes := (info.round.map Prod.fst).getD []

theorem hosts_removeHost (info : HostInfo) (host : Bytes) :
    (info.removeHost host).hosts = info.hosts.filter (· ≠ host) := by
  rw [removeHost]
  split_ifs with hhas
  · simp only [hosts, SortedMap.erase, List.filter_map]
    exact congrArg _ (List.filter_congr fun e _ => by simp)
  · refine (List.filter_eq_self.mpr fun other hother => ?_).symm
    refine decide_eq_true fun heq => hhas ?_
    exact mem_hosts.mp (heq ▸ hother)

theorem cursor_removeHost (info : HostInfo) (host : Bytes) : (info.removeHost host).cursor = info.cursor := by
  unfold removeHost
  split_ifs <;> rfl

theorem hosts_removeHosts (info : HostInfo) (gone : List Bytes) :
    (info.removeHosts gone).hosts = info.hosts.filter (· ∉ gone) := by
  induction gone generalizing info with
  | nil => simp [removeHosts]
  | cons host gone ih =>
    rw [removeHosts, List.foldl_cons]
    refine (ih _).trans ?_
    rw [hosts_removeHost, List.filter_filter]
    refine List.filter_congr fun other _ => ?_
    simp [Bool.and_comm]

theorem cursor_removeHosts (info : HostInfo) (gone : List Bytes) : (info.removeHosts gone).cursor = info.cursor := by
  induction gone generalizing info with
  | nil => rfl
  | cons host gone ih => exact (ih _).trans (cursor_removeHost info host)

theorem length_hosts_newHost (info : HostInfo) (host : Bytes) :
    info.hosts.length ≤ (info.newHost host).hosts.length := by
  rw [hosts, hosts, List.length_map, List.length_map]
  exact SortedMap.length_le_insert _ _ _

theorem hosts_newHost_of_empty {info : HostInfo} (h : info.hosts = []) (host : Bytes) :
    (info.newHost host).hosts = [host] := by
  have hentries : info.queue.entries = [] := by simpa [hosts] using h
  simp [hosts, newHost, SortedMap.insert, hentries, SortedMap.insertEntry]

theorem hosts_addHost_of_empty {info : HostInfo} (h : info.hosts = []) (host : Bytes) :
    (info.addHost host).hosts = [host] := by
  have hfind : info.findHost host = none := by
    have hnot : ¬ info.hasHost host = true := fun hhas => by simpa [h] using mem_hosts.mpr hhas
    rw [findHost, h, if_neg (by decide), if_neg hnot]
  rw [addHost, hfind]
  exact hosts_newHost_of_empty h host

theorem length_hosts_addHost (info : HostInfo) (host : Bytes) :
    info.hosts.length ≤ (info.addHost host).hosts.length := by
  unfold addHost
  split
  · exact le_rfl
  · exact length_hosts_newHost info host

theorem cursor_addHost (info : HostInfo) (host : Bytes) : (info.addHost host).cursor = info.cursor := by
  unfold addHost
  split <;> rfl

/-! ### One round -/

theorem round_eq {info : HostInfo} (h : info.Steady) (hne : info.hosts ≠ []) : info.round =
      if info.hosts.length < info.cursor + 5 then
        some (info.hosts.drop info.cursor ++ info.hosts.take (info.cursor + 5 - info.hosts.length),
          min (info.cursor + 5 - info.hosts.length) info.hosts.length)
      else some ((info.hosts.drop info.cursor).take 5, info.cursor + 5) := by
  have hle := h hne
  have hlen := List.length_drop (i := info.cursor) (l := info.hosts)
  simp only [round, if_neg hne, if_neg (Nat.not_lt.mpr hle)]
  split_ifs with hrest hend hend
  · have hsize : min (info.hosts.drop info.cursor).length 5 = (info.hosts.drop info.cursor).length := by
      omega
    have hremain : 5 - (info.hosts.drop info.cursor).length = info.cursor + 5 - info.hosts.length := by
      omega
    rw [hsize, hremain, List.take_length]
  · omega
  · omega
  · rw [show min (info.hosts.drop info.cursor).length 5 = 5 by omega]

theorem round_eq_some {info : HostInfo} (h : info.Steady) : ∃ r, info.round = some r := by
  by_cases hne : info.hosts = []
  · exact ⟨_, by rw [round, if_pos hne]⟩
  · rw [round_eq h hne]
    split_ifs
    · exact ⟨_, rfl⟩
    · exact ⟨_, rfl⟩

variable {answers : Bytes → Bool} {info info' : HostInfo}

theorem hosts_checkDb (h : info.checkDb answers = some info') : info'.hosts = info.hosts := by
  have hfold : ∀ (l : List Bytes) (info : HostInfo),
      (l.foldl (fun info host => info.setStatus host (if answers host then 1 else 0)) info).hosts =
        info.hosts := by
    intro l
    induction l with
    | nil => exact fun _ => rfl
    | cons host l ih => exact fun info => (ih _).trans rfl
  obtain ⟨⟨probed, cursor⟩, _, rfl⟩ := Option.map_eq_some_iff.mp h
  exact hfold probed info

theorem cursor_checkDb (h : info.checkDb answers = some info') : info.round.map Prod.snd = some info'.cursor := by
  obtain ⟨⟨probed, cursor⟩, hround, rfl⟩ := Option.map_eq_some_iff.mp h
  simp [hround]

theorem steady_checkDb (hsteady : info.Steady) (h : info.checkDb answers = some info') : info'.Steady := by
  have hcursor := cursor_checkDb h
  intro hne
  rw [hosts_checkDb h] at hne ⊢
  rw [round_eq hsteady hne] at hcursor
  split_ifs at hcursor <;> simp only [Option.map_some, Option.some.injEq] at hcursor <;> omega

/-! ### Rounds without a change of the hosts -/

def ahead (info : HostInfo) (i : Nat) : Nat :=
  if info.cursor ≤ i then i - info.cursor else i + info.hosts.length - info.cursor

theorem ahead_lt {info : HostInfo} (h : info.Steady) {i : Nat} (hi : i < info.hosts.length) :
    info.ahead i < info.hosts.length := by
  have hle := h (List.length_pos_iff.mp (by omega))
  unfold ahead
  split_ifs <;> omega

theorem mem_probed {info : HostInfo} (h : info.Steady) {i : Nat} {host : Bytes}
    (hi : info.hosts[i]? = some host) (hahead : info.ahead i < 5) : host ∈ info.probed := by
  obtain ⟨hlt, -⟩ := List.getElem?_eq_some_iff.mp hi
  have hne : info.hosts ≠ [] := List.length_pos_iff.mp (by omega)
  have hle := h hne
  unfold ahead at hahead
  rw [probed, round_eq h hne]
  by_cases hcase : info.cursor ≤ i
  · -- The host stands at the cursor or behind it.
    rw [if_pos hcase] at hahead
    have hget : (info.hosts.drop info.cursor)[i - info.cursor]? = some host := by
      rw [List.getElem?_drop, Nat.add_sub_cancel' hcase, hi]
    split_ifs
    · exact List.mem_append_left _ (List.mem_of_getElem? hget)
    · refine List.mem_iff_getElem?.mpr ⟨i - info.cursor, ?_⟩
      exact (List.getElem?_take_of_lt hahead).trans hget
  · -- The round gets around the end and as far as the host.
    rw [if_neg hcase] at hahead
    rw [if_pos (by omega)]
    refine List.mem_append_right _ (List.mem_iff_getElem?.mpr ⟨i, ?_⟩)
    rw [List.getElem?_take_of_lt (by omega), hi]

theorem ahead_checkDb (h : info.Steady)
    (hround : info.checkDb answers = some info') {i : Nat} (hi : i < info.hosts.length)
    (hahead : 5 ≤ info.ahead i) : info'.ahead i + 5 = info.ahead i := by
  have hne : info.hosts ≠ [] := List.length_pos_iff.mp (by omega)
  have hle := h hne
  have hcursor := cursor_checkDb hround
  have hhosts := hosts_checkDb hround
  rw [round_eq h hne] at hcursor
  unfold ahead at hahead ⊢
  rw [hhosts]
  split_ifs at hcursor with hrest <;>
    simp only [Option.map_some, Option.some.injEq] at hcursor <;> split_ifs at hahead ⊢ <;> omega

end HostInfo

/-! ### Runs -/

inductive HostAct
  | addHost (host : Bytes)
  | removeHosts (hosts : List Bytes)
  | checkDb (answers : Bytes → Bool)

namespace HostAct

def step (s : Option HostInfo) (act : HostAct) : Option HostInfo :=
  s.bind fun info =>
    match act with
    | .addHost host => some (info.addHost host)
    | .removeHosts hosts => some (info.removeHosts hosts)
    | .checkDb answers => info.checkDb answers

/-- What a step has to leave the cursor: a place in the map it makes. -/
def Keeps (s : Option HostInfo) (act : HostAct) : Prop :=
  ∀ info ∈ s,
    match act with
    | .addHost _ => info.hosts = [] → info.cursor ≤ 1
    | .removeHosts gone =>
      info.hosts.filter (· ∉ gone) ≠ [] → info.cursor ≤ (info.hosts.filter (· ∉ gone)).length
    | .checkDb _ => True

end HostAct

def InBounds (s : Option HostInfo) : Prop := ∃ info, s = some info ∧ info.Steady

theorem inBounds_some {info : HostInfo} : InBounds (some info) ↔ info.Steady := by simp [InBounds]

theorem keeps_iff {s : Option HostInfo} (h : InBounds s) (act : HostAct) :
    act.Keeps s ↔ InBounds (HostAct.step s act) := by
  obtain ⟨info, rfl, hsteady⟩ := h
  simp only [HostAct.Keeps, HostAct.step, Option.mem_some_iff, forall_eq', Option.bind_some]
  cases act with
  | addHost host =>
    simp only [inBounds_some, HostInfo.Steady, HostInfo.cursor_addHost]
    constructor
    · intro hkeeps hne
      by_cases hempty : info.hosts = []
      · rw [HostInfo.hosts_addHost_of_empty hempty]
        exact hkeeps hempty
      · exact (hsteady hempty).trans (HostInfo.length_hosts_addHost info host)
    · intro hadded hempty
      rw [HostInfo.hosts_addHost_of_empty hempty] at hadded
      exact hadded (List.cons_ne_nil _ _)
  | removeHosts gone =>
    simp only [inBounds_some, HostInfo.Steady, HostInfo.hosts_removeHosts, HostInfo.cursor_removeHosts]
  | checkDb answers =>
    obtain ⟨r, hr⟩ := HostInfo.round_eq_some hsteady
    have hround : info.checkDb answers ≠ none := by simp [HostInfo.checkDb, hr]
    obtain ⟨info', hinfo'⟩ := Option.ne_none_iff_exists'.mp hround
    simp [hinfo', inBounds_some, HostInfo.steady_checkDb hsteady hinfo']

theorem probed_within {info : HostInfo} (h : info.Steady) {i : Nat} {host : Bytes}
    (hi : info.hosts[i]? = some host) (rounds : List (Bytes → Bool))
    (hlong : info.ahead i / 5 < rounds.length) :
    ∃ k < rounds.length, ∃ info', Run.exec HostAct.step (some info) ((rounds.take k).map .checkDb) =
      some info' ∧ host ∈ info'.probed := by
  induction rounds generalizing info with
  | nil => exact absurd hlong (Nat.not_lt_zero _)
  | cons answers rounds ih =>
    by_cases hnear : info.ahead i < 5
    · exact ⟨0, Nat.succ_pos _, info, rfl, HostInfo.mem_probed h hi hnear⟩
    · -- The round leaves the hosts as they are and brings the cursor nearer.
      obtain ⟨r, hr⟩ := HostInfo.round_eq_some h
      obtain ⟨next, hnext⟩ : ∃ next, info.checkDb answers = some next :=
        ⟨_, by rw [HostInfo.checkDb, hr]; rfl⟩
      obtain ⟨hlt, -⟩ := List.getElem?_eq_some_iff.mp hi
      have hahead := HostInfo.ahead_checkDb h hnext hlt (Nat.not_lt.mp hnear)
      have hi' : next.hosts[i]? = some host := by rwa [HostInfo.hosts_checkDb hnext]
      rw [List.length_cons] at hlong
      obtain ⟨k, hk, info', hexec, hmem⟩ :=
        ih (HostInfo.steady_checkDb h hnext) hi' (by omega)
      refine ⟨k + 1, Nat.succ_lt_succ hk, info', ?_, hmem⟩
      rw [List.take_succ_cons, List.map_cons, Run.exec_cons]
      simpa only [HostAct.step, Option.bind_some, hnext] using hexec

/-- Every host is probed within `ceil(n/5) + 1` rounds. -/
def HostInfo.Fair (info : HostInfo) : Prop :=
  ∀ host ∈ info.hosts, ∀ rounds : List (Bytes → Bool), rounds.length = (info.hosts.length + 4) / 5 + 1 →
    ∃ k < rounds.length, ∃ info', Run.exec HostAct.step (some info) ((rounds.take k).map .checkDb) =
      some info' ∧ host ∈ info'.probed

theorem HostInfo.Steady.fair {info : HostInfo} (h : info.Steady) : info.Fair := by
  intro host hmem rounds hlen
  obtain ⟨i, hi⟩ := List.mem_iff_getElem?.mp hmem
  obtain ⟨hlt, -⟩ := List.getElem?_eq_some_iff.mp hi
  have hahead := HostInfo.ahead_lt h hlt
  exact probed_within h hi rounds (by omega)

/-- The runs along which a round never leaves the map, and the hosts have their turns, are those
whose removals and additions keep the cursor in the map. -/
theorem rounds_in_bounds_iff (acts : List HostAct) : (∀ taken, taken <+: acts → ∃ info,
      Run.exec HostAct.step (some .create) taken = some info ∧
        (info.hosts ≠ [] → info.cursor ≤ info.hosts.length) ∧ info.Fair) ↔
    Run.Guarded HostAct.step (fun s act => act.Keeps s) (some .create) acts := by
  have hcreate : InBounds (some .create) := inBounds_some.mpr fun hne => absurd rfl hne
  rw [Run.guarded_iff_prefixes (P := InBounds) (fun s act hs => keeps_iff hs act) hcreate]
  refine forall₂_congr fun taken _ => exists_congr fun info => and_congr_right fun _ => ?_
  exact ⟨fun h => h.1, fun h => ⟨h, HostInfo.Steady.fair h⟩⟩

def sixHosts : List HostAct :=
  [.addHost [1], .addHost [2], .addHost [3], .addHost [4], .addHost [5], .addHost [6],
    .checkDb fun _ => true, .removeHosts [[1], [2], [3]]]

/-- The cursor is behind the third host then, and the next round advances past the end. -/
theorem removals_strand_cursor : (∃ info, Run.exec HostAct.step (some .create) sixHosts = some info ∧
      info.hosts.length = 3 ∧ info.cursor = 5) ∧
    Run.exec HostAct.step (some .create) (sixHosts ++ [.checkDb fun _ => true]) = none := by
  refine ⟨⟨_, rfl, by decide, by decide⟩, by rfl⟩

end HustStore.Binlog
