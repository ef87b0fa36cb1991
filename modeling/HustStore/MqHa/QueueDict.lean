import HustStore.Lib.Run
import HustStore.MqHa.Merge

/-!
# The dictionary of queues

A round of statistics marks the items of the hosts, writes what the hosts report over them, adds new queues while
the counter is below the limit, and cleans the dictionary when the counter has reached it. A name is looked up whole
and stored without what follows its first 64 bytes, so that a longer name is added again with each report.
-/

namespace HustStore.MqHa

/-- A queue as a host reports it: a C string, and `base` without `ready` and `valid`. -/
structure QueueReport where
  queue : Bytes
  base : QueueBase
  ready : List Int32

structure BackendStat where
  host : Bytes
  reports : List QueueReport

structure StatRound where
  statusCache : Bool
  arr : List BackendStat

def StatRound.reports (round : StatRound) : List (Bytes × QueueReport) :=
  round.arr.flatMap fun stat => stat.reports.map (stat.host, ·)

/-- The names of the queues, the items of each by their hosts, and `queue_items`, a `size_t`. -/
structure QueueDict where
  keys : List Bytes
  hosts : Bytes → List (Bytes × QueueBase)
  queueItems : UInt64
  nodup : keys.Nodup

/-- The order in which a dictionary is walked. -/
structure DictOrder where
  walk : List Bytes → List Bytes
  perm : ∀ keys, (walk keys).Perm keys

def updateQueueData (src : QueueReport) (dst : QueueBase) : QueueBase :=
  { src.base with ready := fun i => src.ready.getD i (dst.ready i), valid := true }

def createItem (it : QueueReport) : QueueBase :=
  updateQueueData it ⟨⟨0, 0, 0⟩, fun _ => 0, .normal, 0, 0, 0, 0, false⟩

def updateItem (host : Bytes) (it : QueueReport) (items : List (Bytes × QueueBase)) : List (Bytes × QueueBase) :=
  if (items.map Prod.fst).contains host then
    items.map fun item => if item.1 = host then (host, updateQueueData it item.2) else item
  else items ++ [(host, createItem it)]

namespace QueueDict

def init : QueueDict := ⟨[], fun _ => [], 0, .nil⟩

/-- The name is cut at `HUSTMQ_HA_QUEUE_SIZE`. -/
def addItem (max : UInt64) (host : Bytes) (it : QueueReport) (d : QueueDict) : QueueDict :=
  if d.queueItems > max - 1 then d
  else
    { keys := d.keys.insert (it.queue.take 64)
      hosts := assign d.hosts (it.queue.take 64) [(host, createItem it)]
      queueItems := d.queueItems + 1
      nodup := d.nodup.insert }

def updateQueue (max : UInt64) (d : QueueDict) (report : Bytes × QueueReport) : QueueDict :=
  let (host, it) := report
  if d.keys.contains it.queue then { d with hosts := assign d.hosts it.queue (updateItem host it (d.hosts it.queue)) }
  else d.addItem max host it

def resetStatus (round : StatRound) (d : QueueDict) : QueueDict :=
  { d with
    queueItems := 0
    hosts := fun queue => (d.hosts queue).map fun item =>
      if round.statusCache && !round.arr.any (·.host <+: item.1) then item
      else (item.1, { item.2 with valid := false }) }

def isInvalid (d : QueueDict) (queue : Bytes) : Bool := (d.hosts queue).any (!·.2.valid)

def invalidKeys (order : DictOrder) (d : QueueDict) : List Bytes := ((order.walk d.keys).filter d.isInvalid).take 1024

def cleanInvalidItems (order : DictOrder) (d : QueueDict) : QueueDict :=
  { d with
    keys := d.keys.filter fun queue => !(d.invalidKeys order).contains queue
    queueItems := d.queueItems - UInt64.ofNat (d.invalidKeys order).length
    nodup := d.nodup.filter _ }

def collect (max : UInt64) (round : StatRound) (d : QueueDict) : QueueDict :=
  round.reports.foldl (updateQueue max) (d.resetStatus round)

def updateQueueDict (order : DictOrder) (max : UInt64) (d : QueueDict) (round : StatRound) : QueueDict :=
  let d := d.collect max round
  if d.queueItems > max - 1 then d.cleanInvalidItems order else d

/-- A host reports the queue that has this name in the dictionary. -/
def Reported (round : StatRound) (queue : Bytes) : Prop := ∃ report ∈ round.reports, report.2.queue.take 64 = queue

/-- After the round the counter is the number of queues and within the limit, and no queue that a host reports has
been removed. -/
structure Exact (order : DictOrder) (max : UInt64) (d : QueueDict) (round : StatRound) : Prop where
  counted : (d.updateQueueDict order max round).queueItems.toNat = (d.updateQueueDict order max round).keys.length
  bounded : (d.updateQueueDict order max round).queueItems ≤ max
  kept : ∀ queue ∈ (d.collect max round).keys, queue ∉ (d.updateQueueDict order max round).keys → ¬ Reported round queue

/-- The report adds a queue over the one that has the first 64 bytes of its name. -/
def addsOver (max : UInt64) (d : QueueDict) (report : Bytes × QueueReport) : Bool :=
  !d.keys.contains report.2.queue && d.keys.contains (report.2.queue.take 64) && decide (d.queueItems ≤ max - 1)

def countOver (max : UInt64) : QueueDict → List (Bytes × QueueReport) → Nat
  | _, [] => 0
  | d, report :: rest => (if d.addsOver max report then 1 else 0) + countOver max (d.updateQueue max report) rest

/-- What makes up for the queues that a round finds and does not count are queues that it counts twice. A limit of 0
is none, and the cleaning must not find a stale item with a queue that is reported. -/
structure Countable (order : DictOrder) (max : UInt64) (d : QueueDict) (round : StatRound) : Prop where
  found : countOver max (d.resetStatus round) round.reports = d.keys.length
  limited : max = 0 → d.keys = [] ∧ round.reports = []
  fresh : (d.collect max round).queueItems > max - 1 →
    ∀ queue ∈ (d.collect max round).invalidKeys order, ¬ Reported round queue

/-! ### The reports of a round -/

variable {order : DictOrder} {max : UInt64} {d d' : QueueDict} {round : StatRound}

theorem toNat_sub_one (hmax : 0 < max) : (max - 1).toNat + 1 = max.toNat := by
  have hpos : 1 ≤ max.toNat := UInt64.lt_iff_toNat_lt.mp hmax
  rw [UInt64.toNat_sub_of_le max 1 (UInt64.le_iff_toNat_le.mpr hpos)]
  exact Nat.sub_add_cancel hpos

theorem toNat_add_one {a : UInt64} (hmax : 0 < max) (ha : ¬ a > max - 1) :
    (a + 1).toNat = a.toNat + 1 ∧ a.toNat < max.toNat := by
  have hlimit := toNat_sub_one hmax
  have hle : a.toNat ≤ (max - 1).toNat := UInt64.le_iff_toNat_le.mp (UInt64.not_lt.mp ha)
  have hmod := max.toNat_lt
  refine ⟨?_, by omega⟩
  rw [UInt64.toNat_add, UInt64.toNat_one, Nat.mod_eq_of_lt (by omega)]

theorem length_insert_add (keys : List Bytes) (queue : Bytes) :
    (keys.insert queue).length + (if keys.contains queue then 1 else 0) = keys.length + 1 := by
  by_cases h : queue ∈ keys <;> simp [h]

theorem count_updateQueue (hmax : 0 < max) (h : d.queueItems ≤ max) (report : Bytes × QueueReport) :
    (d.updateQueue max report).queueItems.toNat + d.keys.length =
      d.queueItems.toNat + (d.updateQueue max report).keys.length + (if d.addsOver max report then 1 else 0) ∧
    (d.updateQueue max report).queueItems ≤ max := by
  obtain ⟨host, it⟩ := report
  unfold updateQueue addsOver
  dsimp only
  by_cases hmem : d.keys.contains it.queue = true
  · simp only [hmem, if_true, Bool.not_true, Bool.false_and, Bool.false_eq_true, if_false]
    exact ⟨by omega, h⟩
  · rw [if_neg hmem, Bool.not_eq_true] at *
    unfold addItem
    by_cases hfull : d.queueItems > max - 1
    · rw [if_pos hfull, decide_eq_false (UInt64.not_le.mpr hfull), Bool.and_false]
      exact ⟨by simp, h⟩
    · obtain ⟨hadd, hlt⟩ := toNat_add_one hmax hfull
      have hlength := length_insert_add d.keys (it.queue.take 64)
      rw [if_neg hfull, decide_eq_true (UInt64.not_lt.mp hfull), hmem, Bool.not_false, Bool.true_and, Bool.and_true]
      dsimp only
      exact ⟨by omega, UInt64.le_iff_toNat_le.mpr (by omega)⟩

theorem count_foldl (hmax : 0 < max) (h : d.queueItems ≤ max) (reports : List (Bytes × QueueReport)) :
    (reports.foldl (updateQueue max) d).queueItems.toNat + d.keys.length =
      d.queueItems.toNat + (reports.foldl (updateQueue max) d).keys.length + countOver max d reports ∧
    (reports.foldl (updateQueue max) d).queueItems ≤ max := by
  induction reports generalizing d with
  | nil => exact ⟨by simp [countOver], h⟩
  | cons report rest ih =>
    obtain ⟨hcount, hbound⟩ := count_updateQueue hmax h report
    obtain ⟨hrest, hlast⟩ := ih hbound
    rw [List.foldl_cons, countOver]
    exact ⟨by omega, hlast⟩

theorem count_collect (hmax : 0 < max) (d : QueueDict) (round : StatRound) :
    (d.collect max round).queueItems.toNat + d.keys.length =
      (d.collect max round).keys.length + countOver max (d.resetStatus round) round.reports ∧
    (d.collect max round).queueItems ≤ max := by
  obtain ⟨hcount, hbound⟩ := count_foldl hmax (d := d.resetStatus round) (UInt64.zero_le) round.reports
  refine ⟨?_, hbound⟩
  rw [show (d.resetStatus round).keys = d.keys from rfl, show (d.resetStatus round).queueItems.toNat = 0 from rfl,
    Nat.zero_add] at hcount
  exact hcount

/-! ### Without a limit -/

theorem keys_updateQueue (d : QueueDict) (report : Bytes × QueueReport) :
    d.keys ⊆ (d.updateQueue max report).keys := by
  unfold updateQueue addItem
  dsimp only
  split_ifs
  · exact List.Subset.refl _
  · exact List.Subset.refl _
  · exact fun queue hqueue => List.mem_insert_of_mem hqueue

theorem keys_foldl (reports : List (Bytes × QueueReport)) (d : QueueDict) :
    d.keys ⊆ (reports.foldl (updateQueue max) d).keys := by
  induction reports generalizing d with
  | nil => exact List.Subset.refl _
  | cons report rest ih => exact List.Subset.trans (keys_updateQueue d report) (ih _)

theorem collect_of_limit_zero (h : (d.collect 0 round).keys = []) : d.keys = [] ∧ round.reports = [] := by
  have hkeys : d.keys = [] := List.subset_nil.mp (h ▸ keys_foldl round.reports (d.resetStatus round))
  refine ⟨hkeys, ?_⟩
  cases hreports : round.reports with
  | nil => rfl
  | cons report rest =>
    obtain ⟨host, it⟩ := report
    -- the first report finds nothing and is added
    have hfirst : it.queue.take 64 ∈ ((d.resetStatus round).updateQueue 0 (host, it)).keys := by
      have hnone : ¬ (d.resetStatus round).keys.contains it.queue = true := by
        rw [show (d.resetStatus round).keys = d.keys from rfl, hkeys]
        exact Bool.false_ne_true
      have hroom : ¬ (d.resetStatus round).queueItems > 0 - 1 := by
        rw [show (d.resetStatus round).queueItems = 0 from rfl]
        decide
      unfold updateQueue addItem
      dsimp only
      rw [if_neg hnone, if_neg hroom]
      exact List.mem_insert_self
    have hlast := @keys_foldl 0 rest _ _ hfirst
    rw [collect, hreports, List.foldl_cons] at h
    rw [h] at hlast
    cases hlast

/-! ### The cleaning -/

theorem length_cleanInvalidItems (order : DictOrder) (d : QueueDict) :
    (d.cleanInvalidItems order).keys.length + (d.invalidKeys order).length = d.keys.length := by
  have hnodup : (d.invalidKeys order).Nodup :=
    (((order.perm d.keys).nodup_iff.mpr d.nodup).filter _).sublist (List.take_sublist _ _)
  have hsub : d.invalidKeys order ⊆ d.keys := fun queue hqueue =>
    (order.perm d.keys).mem_iff.mp (List.mem_of_mem_filter (List.mem_of_mem_take hqueue))
  have hremoved : (d.keys.filter (· ∈ d.invalidKeys order)).Perm (d.invalidKeys order) :=
    (List.perm_ext_iff_of_nodup (d.nodup.filter _) hnodup).mpr fun queue => by
      simpa using fun h => hsub h
  rw [← hremoved.length_eq, Nat.add_comm]
  simpa [cleanInvalidItems] using (List.filter_append_perm (· ∈ d.invalidKeys order) d.keys).length_eq

theorem length_invalidKeys_le (order : DictOrder) (d : QueueDict) : (d.invalidKeys order).length ≤ 1024 :=
  List.length_take_le _ _

theorem mem_cleanInvalidItems {queue : Bytes} :
    queue ∈ (d.cleanInvalidItems order).keys ↔ queue ∈ d.keys ∧ queue ∉ d.invalidKeys order := by
  simp [cleanInvalidItems]

theorem counted_cleanInvalidItems_iff (order : DictOrder) (hfull : d.queueItems > max - 1) (hmax : 0 < max)
    (hbound : d.queueItems ≤ max) :
    (d.cleanInvalidItems order).queueItems.toNat = (d.cleanInvalidItems order).keys.length ∧
        (d.cleanInvalidItems order).queueItems ≤ max ↔
      d.queueItems.toNat = d.keys.length := by
  have hlength := length_cleanInvalidItems order d
  have hfew := length_invalidKeys_le order d
  have hlimit := toNat_sub_one hmax
  have hge : (max - 1).toNat < d.queueItems.toNat := UInt64.lt_iff_toNat_lt.mp hfull
  have hle : d.queueItems.toNat ≤ max.toNat := UInt64.le_iff_toNat_le.mp hbound
  have hmod := max.toNat_lt
  have hsub : (d.cleanInvalidItems order).queueItems.toNat =
      (2 ^ 64 - (d.invalidKeys order).length + d.queueItems.toNat) % 2 ^ 64 := by
    rw [show (d.cleanInvalidItems order).queueItems = d.queueItems - UInt64.ofNat (d.invalidKeys order).length from rfl,
      UInt64.toNat_sub, UInt64.toNat_ofNat', Nat.mod_eq_of_lt (by omega : (d.invalidKeys order).length < 2 ^ 64)]
  rw [UInt64.le_iff_toNat_le, hsub]
  -- a counter that wraps is far above the limit
  constructor
  · rintro ⟨hcounted, hbelow⟩
    omega
  · intro hcounted
    omega

theorem exact_zero_iff (order : DictOrder) (d : QueueDict) (round : StatRound) :
    d.Exact order 0 round ↔ d.Countable order 0 round := by
  have hnever : ¬ (d.collect 0 round).queueItems > 0 - 1 := fun h => by
    have := UInt64.lt_iff_toNat_lt.mp h
    have hlt := (d.collect 0 round).queueItems.toNat_lt
    rw [show ((0 : UInt64) - 1).toNat = 2 ^ 64 - 1 from rfl] at this
    omega
  have hsame : d.updateQueueDict order 0 round = d.collect 0 round := if_neg hnever
  constructor
  · intro h
    have hcounted := h.counted
    have hzero : (d.collect 0 round).queueItems.toNat ≤ 0 := UInt64.le_iff_toNat_le.mp (hsame ▸ h.bounded)
    rw [hsame, Nat.le_zero.mp hzero] at hcounted
    obtain ⟨hkeys, hreports⟩ := collect_of_limit_zero (List.length_eq_zero_iff.mp hcounted.symm)
    exact ⟨by rw [hreports, hkeys]; rfl, fun _ => ⟨hkeys, hreports⟩, fun hfull => absurd hfull hnever⟩
  · intro h
    obtain ⟨hkeys, hreports⟩ := h.limited rfl
    have hcollect : d.collect 0 round = d.resetStatus round := by rw [collect, hreports, List.foldl_nil]
    refine ⟨?_, ?_, ?_⟩ <;> rw [hsame]
    · rw [hcollect, show (d.resetStatus round).keys = d.keys from rfl, hkeys]
      rfl
    · rw [hcollect]
      exact UInt64.zero_le
    · exact fun queue hqueue hremoved => absurd hqueue hremoved

theorem exact_iff (order : DictOrder) (max : UInt64) (d : QueueDict) (round : StatRound) :
    d.Exact order max round ↔ d.Countable order max round := by
  obtain rfl | hmax : max = 0 ∨ 0 < max := by
    rw [← UInt64.toNat_inj, UInt64.lt_iff_toNat_lt, UInt64.toNat_zero]
    omega
  · exact exact_zero_iff order d round
  · obtain ⟨hcount, hbound⟩ := count_collect hmax d round
    have hfound : countOver max (d.resetStatus round) round.reports = d.keys.length ↔
        (d.collect max round).queueItems.toNat = (d.collect max round).keys.length := by omega
    have hpos : max ≠ 0 := fun h => absurd hmax (by simp [h])
    by_cases hfull : (d.collect max round).queueItems > max - 1
    · have hclean : d.updateQueueDict order max round = (d.collect max round).cleanInvalidItems order := if_pos hfull
      have hiff := counted_cleanInvalidItems_iff order hfull hmax hbound
      constructor
      · intro h
        have hcounted := hiff.mp (hclean ▸ ⟨h.counted, h.bounded⟩)
        refine ⟨hfound.mpr hcounted, fun hzero => absurd hzero hpos, fun _ queue hqueue => h.kept queue ?_ ?_⟩
        · exact (order.perm _).mem_iff.mp (List.mem_of_mem_filter (List.mem_of_mem_take hqueue))
        · rw [hclean]
          exact fun hmem => (mem_cleanInvalidItems.mp hmem).2 hqueue
      · intro h
        obtain ⟨hcounted, hbounded⟩ := hiff.mpr (hfound.mp h.found)
        refine ⟨hclean ▸ hcounted, hclean ▸ hbounded, fun queue hqueue hremoved => h.fresh hfull queue ?_⟩
        by_contra hvalid
        rw [hclean] at hremoved
        exact hremoved (mem_cleanInvalidItems.mpr ⟨hqueue, hvalid⟩)
    · have hsame : d.updateQueueDict order max round = d.collect max round := if_neg hfull
      constructor
      · intro h
        exact ⟨hfound.mpr (hsame ▸ h.counted), fun hzero => absurd hzero hpos, fun habs => absurd habs hfull⟩
      · intro h
        refine ⟨hsame ▸ hfound.mp h.found, hsame ▸ hbound, fun queue hqueue hremoved => ?_⟩
        rw [hsame] at hremoved
        exact absurd hqueue hremoved

theorem any_invalid_updateItem {host : Bytes} {it : QueueReport} {items : List (Bytes × QueueBase)}
    (h : items.any (!·.2.valid) = false) : (updateItem host it items).any (!·.2.valid) = false := by
  unfold updateItem
  split
  · rw [List.any_eq_false] at h ⊢
    intro item hitem
    obtain ⟨old, hold, rfl⟩ := List.mem_map.mp hitem
    split
    · simp [updateQueueData]
    · exact h old hold
  · simp [List.any_append, h, createItem, updateQueueData]

theorem valid_updateQueue (h : ∀ queue ∈ d.keys, d.isInvalid queue = false) (report : Bytes × QueueReport) :
    ∀ queue ∈ (d.updateQueue max report).keys, (d.updateQueue max report).isInvalid queue = false := by
  obtain ⟨host, it⟩ := report
  unfold updateQueue
  dsimp only
  split
  · intro queue hqueue
    have hvalid : (d.hosts queue).any _ = false := h queue hqueue
    show (assign d.hosts it.queue _ queue).any _ = false
    by_cases heq : queue = it.queue
    · subst heq
      rw [assign_self]
      exact any_invalid_updateItem hvalid
    · rwa [assign_of_ne heq]
  · unfold addItem
    split
    · exact h
    · intro queue hqueue
      show (assign d.hosts (it.queue.take 64) _ queue).any _ = false
      by_cases heq : queue = it.queue.take 64
      · simp [heq, createItem, updateQueueData]
      · rw [assign_of_ne heq]
        exact h queue ((List.mem_insert_iff.mp hqueue).resolve_left heq)

theorem countOver_of_short {reports : List (Bytes × QueueReport)} (h : ∀ report ∈ reports, report.2.queue.length ≤ 64) :
    countOver max d reports = 0 := by
  induction reports generalizing d with
  | nil => rfl
  | cons report rest ih =>
    have hcut : report.2.queue.take 64 = report.2.queue := List.take_of_length_le (h report List.mem_cons_self)
    have hnot : d.addsOver max report = false := by simp [addsOver, hcut]
    rw [countOver, hnot, ih fun report hreport => h report (List.mem_cons_of_mem _ hreport)]
    rfl

/-- A round whose names are not cut is countable if and only if it finds no queue. -/
theorem countable_iff_of_short (order : DictOrder) (hmax : 0 < max)
    (hshort : ∀ report ∈ round.reports, report.2.queue.length ≤ 64) : d.Countable order max round ↔ d.keys = [] := by
  constructor
  · intro h
    exact List.length_eq_zero_iff.mp (h.found.symm.trans (countOver_of_short hshort))
  · intro hkeys
    have hvalid : ∀ queue ∈ (d.collect max round).keys, (d.collect max round).isInvalid queue = false := by
      refine List.foldlRecOn round.reports (updateQueue max)
        (motive := fun d => ∀ queue ∈ d.keys, d.isInvalid queue = false)
        (fun queue hqueue => ?_) fun d' h report _ => valid_updateQueue h report
      rw [show (d.resetStatus round).keys = d.keys from rfl, hkeys] at hqueue
      cases hqueue
    refine ⟨by rw [countOver_of_short hshort, hkeys]; rfl, fun hzero => absurd hmax (by simp [hzero]),
      fun _ queue hqueue => ?_⟩
    have hmem := List.mem_filter.mp (List.mem_of_mem_take hqueue)
    rw [hvalid queue ((order.perm _).mem_iff.mp hmem.1)] at hmem
    cases hmem.2

def sameOrder : DictOrder := ⟨id, fun _ => .refl _⟩

def lettersOf (letters : List UInt8) : StatRound := ⟨false, [⟨[104], letters.map fun b => ⟨[b], hostReport 0 0, []⟩⟩]⟩

end QueueDict

end HustStore.MqHa
