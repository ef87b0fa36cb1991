import HustStore.Base
import Mathlib.Data.Fintype.Basic

/-!
# The merge of the statistics of a queue

`hustmq_ha_traverse_host_dict` walks the hosts of a queue in the order of a hash table and merges what they
report.
-/

namespace HustStore

namespace MqHa

def maxQueueItemNum : Nat := 5000000

/-- `hustmq_ha_idx_t`. -/
structure Idx where
  startIdx : Nat
  consistentIdx : Nat
  timestamp : Int
  deriving DecidableEq

/-- `hustmq_queue_type_t`. -/
inductive QueueType
  | normal
  | push
  deriving DecidableEq

/-- `hustmq_ha_queue_base_t`. -/
@[ext]
structure QueueBase where
  idx : Idx
  ready : Fin 3 → Int32
  type : QueueType
  max : Int
  lock : Int32
  unacked : Int32
  timeout : Int
  valid : Bool
  deriving DecidableEq

/-- Every field is overwritten. -/
def initQueueBase (src : QueueBase) : QueueBase := { src with valid := true }

def mergeType (src dst : QueueType) : QueueType := if src = .push then src else dst

def mergeMax (src dst : Int) : Int :=
  if src > 0 then
    if dst = 0 then src else if src < dst then src else dst
  else dst

def mergeTimeout (src dst : Int) : Int := if src > dst then src else dst

def greaterThan (src dst : Nat) : Bool :=
  if src > dst then src - dst < maxQueueItemNum else !(dst - src < maxQueueItemNum)

def mergeIdx (src dst : Idx) : Idx :=
  if greaterThan src.consistentIdx dst.consistentIdx && src.timestamp > dst.timestamp then src else dst

/-- `hustmq_ha_merge_queue_base`. -/
def mergeQueueBase (src dst : QueueBase) : QueueBase :=
  { idx := mergeIdx src.idx dst.idx
    ready := fun i => dst.ready i + src.ready i
    type := mergeType src.type dst.type
    max := mergeMax src.max dst.max
    lock := dst.lock ||| src.lock
    unacked := dst.unacked + src.unacked
    timeout := mergeTimeout src.timeout dst.timeout
    valid := dst.valid }

/-- Which is also what `__merge_queue_item` does to the numbers. -/
def mergeQueueBaseItem (item it : QueueBase) : Bool × QueueBase :=
  if item.valid then (true, if it.valid then mergeQueueBase item it else initQueueBase item) else (false, it)

/-- `hustmq_ha_traverse_host_dict` with this handler, behind `base.valid = false`. -/
def traverseHostDict (hosts : List QueueBase) (it : QueueBase) : Bool × QueueBase :=
  hosts.foldl (fun s item => let r := mergeQueueBaseItem item s.2; (s.1 || r.1, r.2))
    (false, { it with valid := false })

/-- No index is later than this one, and none of the same time follows it on the ring. -/
structure Newest (hosts : List QueueBase) (idx : Idx) : Prop where
  reported : ∃ h ∈ hosts, h.valid ∧ h.idx = idx
  latest : ∀ h ∈ hosts, h.valid → h.idx.timestamp ≤ idx.timestamp
  last : ∀ h ∈ hosts, h.valid → h.idx.timestamp = idx.timestamp →
    greaterThan h.idx.consistentIdx idx.consistentIdx = false

def Beats (r x : Idx) : Prop :=
  x = r ∨ greaterThan r.consistentIdx x.consistentIdx ∧ x.timestamp < r.timestamp

/-- One index replaces every other, and if a limit is negative, then all hosts have this limit. -/
def Settled (hosts : List QueueBase) : Prop :=
  (∀ x ∈ hosts, ∀ y ∈ hosts, x.max < 0 → y.max = x.max) ∧ (hosts ≠ [] → ∃ r ∈ hosts, ∀ x ∈ hosts, Beats r.idx x.idx)

/-! ### The loop -/

/-- What is left of the valid entries behind the first of them. -/
def mergeAll (v : QueueBase) (hosts : List QueueBase) : QueueBase :=
  hosts.foldl (fun dst src => mergeQueueBase src dst) v

theorem initQueueBase_eq {v : QueueBase} (h : v.valid) : initQueueBase v = v := by
  cases v
  cases h
  rfl

theorem mergeQueueBaseItem_invalid {item : QueueBase} (h : ¬ item.valid) (it : QueueBase) :
    mergeQueueBaseItem item it = (false, it) := if_neg h

theorem foldl_valid (hosts : List QueueBase) {it : QueueBase} (hit : it.valid) :
    hosts.foldl (fun s item => let r := mergeQueueBaseItem item s.2; (s.1 || r.1, r.2)) (true, it) =
      (true, mergeAll it (hosts.filter (·.valid))) := by
  induction hosts generalizing it with
  | nil => rfl
  | cons h hosts ih =>
    by_cases hv : h.valid
    · rw [List.filter_cons_of_pos hv, List.foldl_cons]
      simp only [mergeQueueBaseItem, if_pos hv, if_pos hit, Bool.or_true]
      exact ih hit
    · rw [List.filter_cons_of_neg hv, List.foldl_cons]
      simp only [mergeQueueBaseItem_invalid hv, Bool.or_false]
      exact ih hit

theorem traverseHostDict_eq (hosts : List QueueBase) (it : QueueBase) :
    traverseHostDict hosts it = match hosts.filter (·.valid) with
      | [] => (false, { it with valid := false })
      | v :: vs => (true, mergeAll v vs) := by
  unfold traverseHostDict
  induction hosts with
  | nil => rfl
  | cons h hosts ih =>
    by_cases hv : h.valid
    · rw [List.filter_cons_of_pos hv, List.foldl_cons]
      simp only [mergeQueueBaseItem, if_pos hv, Bool.false_eq_true, if_false, Bool.or_true, initQueueBase_eq hv]
      exact foldl_valid hosts hv
    · rw [List.filter_cons_of_neg hv, List.foldl_cons]
      simp only [mergeQueueBaseItem_invalid hv, Bool.or_false]
      exact ih

/-! ### One field at a time -/

theorem idx_mergeAll (v : QueueBase) (hosts : List QueueBase) :
    (mergeAll v hosts).idx = hosts.foldl (fun dst src => mergeIdx src.idx dst) v.idx := by
  induction hosts generalizing v with
  | nil => rfl
  | cons h hosts ih => exact ih _

theorem max_mergeAll_of_neg {v : QueueBase} (hv : v.max < 0) (hosts : List QueueBase) :
    (mergeAll v hosts).max = v.max := by
  induction hosts generalizing v with
  | nil => rfl
  | cons h hosts ih =>
    have hstep : (mergeQueueBase h v).max = v.max := by
      show mergeMax h.max v.max = v.max
      unfold mergeMax
      split_ifs <;> omega
    exact (ih (hstep ▸ hv)).trans hstep

theorem max_mergeAll_nonneg {v : QueueBase} (hv : 0 ≤ v.max) (hosts : List QueueBase) : 0 ≤ (mergeAll v hosts).max := by
  induction hosts generalizing v with
  | nil => exact hv
  | cons h hosts ih =>
    refine ih (?_ : 0 ≤ mergeMax h.max v.max)
    unfold mergeMax
    split_ifs <;> omega

theorem mergeIdx_choice (src dst : Idx) : mergeIdx src dst = src ∨ mergeIdx src dst = dst := by
  unfold mergeIdx
  split
  · exact Or.inl rfl
  · exact Or.inr rfl

theorem beats_iff {r x : Idx} : Beats r x ↔ mergeIdx r x = r := by
  constructor
  · rintro (rfl | ⟨hgt, htime⟩)
    · exact (mergeIdx_choice _ _).elim id id
    · exact if_pos (by simp [hgt, htime])
  · intro h
    unfold mergeIdx at h
    split at h
    next hcond =>
      simp only [Bool.and_eq_true, decide_eq_true_eq] at hcond
      exact Or.inr hcond
    next => exact Or.inl h

theorem Beats.keeps {r x : Idx} (h : Beats r x) : mergeIdx x r = r := by
  rcases h with rfl | ⟨-, htime⟩
  · exact (mergeIdx_choice _ _).elim id id
  · exact if_neg fun h => by
      simp only [Bool.and_eq_true, decide_eq_true_eq] at h
      omega

theorem foldl_mergeIdx_of_beats {r d : Idx} {hosts : List QueueBase} (hd : Beats r d)
    (hbeats : ∀ x ∈ hosts, Beats r x.idx) (hr : d = r ∨ ∃ x ∈ hosts, x.idx = r) :
    hosts.foldl (fun dst src => mergeIdx src.idx dst) d = r := by
  induction hosts generalizing d with
  | nil => exact hr.resolve_right (by simp)
  | cons h hosts ih =>
    obtain ⟨hh, hbeats⟩ := List.forall_mem_cons.mp hbeats
    refine ih (?_ : Beats r (mergeIdx h.idx d)) hbeats (?_ : mergeIdx h.idx d = r ∨ _)
    · rcases mergeIdx_choice h.idx d with heq | heq
      · exact heq.symm ▸ hh
      · rw [heq]
        exact hd
    · rcases hr with rfl | ⟨x, hx, hxr⟩
      · exact Or.inl hh.keeps
      rcases List.mem_cons.mp hx with rfl | hx
      · rw [hxr]
        exact Or.inl (beats_iff.mp hd)
      · exact Or.inr ⟨x, hx, hxr⟩

theorem idx_mergeAll_of_beats {r v : QueueBase} {hosts : List QueueBase} (hbeats : ∀ x ∈ v :: hosts, Beats r.idx x.idx)
    (hr : r ∈ v :: hosts) : (mergeAll v hosts).idx = r.idx := by
  rw [idx_mergeAll]
  refine foldl_mergeIdx_of_beats (hbeats v List.mem_cons_self) (fun x hx => hbeats x (List.mem_cons_of_mem _ hx)) ?_
  rcases List.mem_cons.mp hr with rfl | hr
  · exact Or.inl rfl
  · exact Or.inr ⟨r, hr, rfl⟩

theorem exists_idx_mergeAll (v : QueueBase) (hosts : List QueueBase) :
    ∃ r ∈ v :: hosts, r.idx = (mergeAll v hosts).idx := by
  rw [idx_mergeAll]
  refine List.foldlRecOn hosts _ (motive := fun d => ∃ r ∈ v :: hosts, r.idx = d) ⟨v, List.mem_cons_self, rfl⟩ ?_
  intro d hd y hy
  rcases mergeIdx_choice y.idx d with heq | heq
  · exact ⟨y, List.mem_cons_of_mem _ hy, heq.symm⟩
  · exact heq.symm ▸ hd

theorem beats_of_mergeAll {r : Idx} {x : QueueBase} {same others : List QueueBase}
    (hsame : ∀ y ∈ same, y.idx = r) (hothers : ∀ y ∈ others, y.idx ≠ r)
    (h : (mergeAll x (same ++ others)).idx = r) : Beats r x.idx := by
  by_contra hbeats
  have hx : mergeIdx r x.idx = x.idx := (mergeIdx_choice _ _).resolve_left fun h => hbeats (beats_iff.mpr h)
  rw [idx_mergeAll, List.foldl_append] at h
  have hstay : same.foldl (fun dst src => mergeIdx src.idx dst) x.idx = x.idx :=
    List.foldlRecOn same _ (motive := (· = x.idx)) rfl fun d hd y hy => by rw [hd, hsame y hy, hx]
  rw [hstay] at h
  refine List.foldlRecOn others (fun dst src => mergeIdx src.idx dst) (motive := (· ≠ r))
    (fun heq => hbeats (Or.inl heq))
    (fun d hd y hy => ?_) h
  rcases mergeIdx_choice y.idx d with heq | heq
  · exact fun h => hothers y hy (heq.symm.trans h)
  · exact fun h => hd (heq.symm.trans h)

/-! ### The other fields -/

theorem foldl_perm_of_comm {α : Type} {op : α → α → α} {x y : α} {xs ys : List α} (hperm : (x :: xs).Perm (y :: ys))
    (hcomm : ∀ a ∈ x :: xs, ∀ b ∈ x :: xs, op a b = op b a) (hswap : ∀ z a b, op (op z a) b = op (op z b) a) :
    xs.foldl op x = ys.foldl op y := by
  let step (o : Option α) (a : α) : Option α := some (o.elim a (op · a))
  have hfold (l : List α) (z : α) : l.foldl step (some z) = some (l.foldl op z) := by
    induction l generalizing z with
    | nil => rfl
    | cons a l ih => exact ih _
  have hstep : ∀ a ∈ x :: xs, ∀ b ∈ x :: xs, ∀ o, step (step o a) b = step (step o b) a := by
    intro a ha b hb o
    cases o with
    | none => exact congrArg some (hcomm a ha b hb)
    | some z => exact congrArg some (hswap z a b)
  have h := hperm.foldl_eq' hstep none
  rw [List.foldl_cons, List.foldl_cons] at h
  exact Option.some.inj (((hfold xs x).symm.trans h).trans (hfold ys y))

def QueueBase.strip (b : QueueBase) : QueueBase := { b with idx := ⟨0, 0, 0⟩ }

theorem strip_mergeAll (v : QueueBase) (hosts : List QueueBase) : (mergeAll v hosts).strip =
      (hosts.map QueueBase.strip).foldl (fun dst src => (mergeQueueBase src dst).strip) v.strip := by
  induction hosts generalizing v with
  | nil => rfl
  | cons h hosts ih => exact ih _

theorem mergeMax_comm {a b : Int} (h : a < 0 → b = a) (h' : b < 0 → a = b) : mergeMax a b = mergeMax b a := by
  unfold mergeMax
  split_ifs <;> omega

theorem mergeMax_swap (a b z : Int) : mergeMax b (mergeMax a z) = mergeMax a (mergeMax b z) := by
  unfold mergeMax
  split_ifs <;> omega

theorem mergeTimeout_eq (a z : Int) : mergeTimeout a z = Max.max a z := by
  unfold mergeTimeout
  split_ifs <;> omega

theorem strip_merge_swap (z a b : QueueBase) : (mergeQueueBase b (mergeQueueBase a z).strip).strip =
    (mergeQueueBase a (mergeQueueBase b z).strip).strip := by
  ext1
  · rfl
  · exact funext fun i => by simp only [QueueBase.strip, mergeQueueBase, Int32.add_assoc, Int32.add_comm (a.ready i)]
  · show mergeType b.type (mergeType a.type z.type) = mergeType a.type (mergeType b.type z.type)
    unfold mergeType
    split_ifs with hb ha <;> first | rfl | exact hb.trans ha.symm
  · exact mergeMax_swap a.max b.max z.max
  · show z.lock ||| a.lock ||| b.lock = z.lock ||| b.lock ||| a.lock
    rw [Int32.or_assoc, Int32.or_comm a.lock, Int32.or_assoc]
  · simp only [QueueBase.strip, mergeQueueBase, Int32.add_assoc, Int32.add_comm a.unacked]
  · show mergeTimeout b.timeout (mergeTimeout a.timeout z.timeout)
      = mergeTimeout a.timeout (mergeTimeout b.timeout z.timeout)
    rw [mergeTimeout_eq, mergeTimeout_eq, mergeTimeout_eq, mergeTimeout_eq, max_left_comm]
  · rfl

theorem strip_merge_comm {a b : QueueBase} (hvalid : a.valid = b.valid) (h : a.max < 0 → b.max = a.max)
    (h' : b.max < 0 → a.max = b.max) : (mergeQueueBase b a).strip = (mergeQueueBase a b).strip := by
  ext1
  · rfl
  · exact funext fun i => Int32.add_comm (a.ready i) (b.ready i)
  · show mergeType b.type a.type = mergeType a.type b.type
    unfold mergeType
    cases a.type <;> cases b.type <;> rfl
  · exact mergeMax_comm h' h
  · exact Int32.or_comm _ _
  · exact Int32.add_comm a.unacked b.unacked
  · show mergeTimeout b.timeout a.timeout = mergeTimeout a.timeout b.timeout
    rw [mergeTimeout_eq, mergeTimeout_eq, max_comm]
  · exact hvalid

theorem mergeAll_perm {v w : QueueBase} {vs ws : List QueueBase} (hperm : (v :: vs).Perm (w :: ws))
    (hvalid : ∀ x ∈ v :: vs, x.valid) (h : Settled (v :: vs)) : mergeAll v vs = mergeAll w ws := by
  obtain ⟨r, hr, hbeats⟩ := h.2 (List.cons_ne_nil _ _)
  have hidx : (mergeAll v vs).idx = (mergeAll w ws).idx := (idx_mergeAll_of_beats hbeats hr).trans
    (idx_mergeAll_of_beats (fun x hx => hbeats x (hperm.mem_iff.mpr hx)) (hperm.mem_iff.mp hr)).symm
  have hstrip : (mergeAll v vs).strip = (mergeAll w ws).strip := by
    rw [strip_mergeAll, strip_mergeAll]
    refine foldl_perm_of_comm (hperm.map QueueBase.strip) ?_ strip_merge_swap
    rw [← List.map_cons]
    intro _ ha' _ hb'
    obtain ⟨a, ha, rfl⟩ := List.mem_map.mp ha'
    obtain ⟨b, hb, rfl⟩ := List.mem_map.mp hb'
    exact strip_merge_comm ((hvalid a ha).trans (hvalid b hb).symm) (h.1 a ha b hb) (h.1 b hb a ha)
  cases hm : mergeAll v vs
  cases hm' : mergeAll w ws
  simp_all [QueueBase.strip]

/-! ### Every order -/

theorem traverseHostDict_congr {hosts hosts' : List QueueBase} (h : hosts.filter (·.valid) = hosts'.filter (·.valid))
    (it : QueueBase) : traverseHostDict hosts it = traverseHostDict hosts' it := by
  rw [traverseHostDict_eq, traverseHostDict_eq, h]

theorem settled_of_orders {vs : List QueueBase} (hvs : vs.filter (·.valid) = vs) (it : QueueBase)
    (h : ∀ order : List QueueBase, order.Perm vs → traverseHostDict order it = traverseHostDict vs it) :
    Settled vs := by
  have hmerge {x : QueueBase} {l : List QueueBase} (hl : (x :: l).Perm vs) :
      mergeAll x l = (traverseHostDict vs it).2 := by
    have hvalid : (x :: l).filter (·.valid) = x :: l :=
      List.filter_eq_self.mpr fun y hy => List.filter_eq_self.mp hvs y (hl.mem_iff.mp hy)
    rw [← h _ hl, traverseHostDict_eq, hvalid]
  refine ⟨fun x hx y hy hneg => ?_, fun hne => ?_⟩
  · have hmax : (mergeAll y (vs.erase y)).max = x.max :=
      (congrArg _ ((hmerge (List.perm_cons_erase hy).symm).trans (hmerge (List.perm_cons_erase hx).symm).symm)).trans
        (max_mergeAll_of_neg hneg _)
    by_cases hy' : y.max < 0
    · exact (max_mergeAll_of_neg hy' _).symm.trans hmax
    · have := max_mergeAll_nonneg (Int.not_lt.mp hy') (vs.erase y)
      omega
  · obtain ⟨v, l, rfl⟩ := List.exists_cons_of_ne_nil hne
    obtain ⟨r, hr, hidx⟩ := exists_idx_mergeAll v l
    refine ⟨r, hr, fun x hx => ?_⟩
    -- the entries with this index right behind `x`, the others last
    have horder := (List.filter_append_perm (fun y => decide (y.idx = r.idx)) ((v :: l).erase x)).cons x
    refine beats_of_mergeAll (fun y hy => of_decide_eq_true (List.mem_filter.mp hy).2)
      (fun y hy heq => ?_) ((congrArg _ (hmerge (horder.trans (List.perm_cons_erase hx).symm))).trans ?_)
    · simpa [heq] using (List.mem_filter.mp hy).2
    · rw [hidx, hmerge (List.Perm.refl _)]

/-- The merged statistics of a queue are the same in every order of the hosts, and with the newest index, exactly if
one index of the valid entries replaces every other and negative limits are equal to all. -/
theorem merge_order_free_iff (hosts : List QueueBase) (it : QueueBase) :
    ((∀ order : List QueueBase, order.Perm hosts → traverseHostDict order it = traverseHostDict hosts it) ∧
      ((traverseHostDict hosts it).1 = true → Newest hosts (traverseHostDict hosts it).2.idx)) ↔
    Settled (hosts.filter (·.valid)) := by
  have hidem : (hosts.filter (·.valid)).filter (·.valid) = hosts.filter (·.valid) := by simp
  constructor
  · rintro ⟨horders, -⟩
    refine settled_of_orders hidem it fun order hperm => ?_
    have hvalid : (order ++ hosts.filter (!·.valid)).filter (·.valid) = order.filter (·.valid) := by
      simp [List.filter_append]
    calc traverseHostDict order it = traverseHostDict (order ++ hosts.filter (!·.valid)) it :=
          traverseHostDict_congr hvalid.symm it
      _ = traverseHostDict hosts it := horders _ ((hperm.append_right _).trans (List.filter_append_perm _ _))
      _ = traverseHostDict (hosts.filter (·.valid)) it := traverseHostDict_congr hidem.symm it
  · intro h
    have hvalid (x : QueueBase) (hx : x ∈ hosts.filter (·.valid)) : x.valid = true := (List.mem_filter.mp hx).2
    refine ⟨fun order hperm => ?_, fun hsome => ?_⟩
    · have hfilter := hperm.filter (·.valid)
      rw [traverseHostDict_eq, traverseHostDict_eq]
      cases hv : hosts.filter (·.valid) with
      | nil =>
        rw [hv] at hfilter
        rw [hfilter.eq_nil]
      | cons v vs =>
        cases hw : order.filter (·.valid) with
        | nil => exact absurd (hv ▸ hw ▸ hfilter).symm.eq_nil (List.cons_ne_nil _ _)
        | cons w ws =>
          rw [hv] at h hvalid
          exact congrArg _ (mergeAll_perm (hv ▸ hw ▸ hfilter).symm hvalid h).symm
    · rw [traverseHostDict_eq] at hsome ⊢
      cases hv : hosts.filter (·.valid) with
      | nil => simp [hv] at hsome
      | cons v vs =>
        obtain ⟨r, hr, hbeats⟩ := h.2 (hv ▸ List.cons_ne_nil _ _)
        have hall (x : QueueBase) (hx : x ∈ hosts) (hxv : x.valid) := hbeats x (List.mem_filter.mpr ⟨hx, hxv⟩)
        show Newest hosts (mergeAll v vs).idx
        rw [idx_mergeAll_of_beats (hv ▸ hbeats) (hv ▸ hr)]
        refine ⟨⟨r, (List.mem_filter.mp hr).1, hvalid r hr, rfl⟩, fun x hx hxv => ?_, fun x hx hxv htime => ?_⟩
        · rcases hall x hx hxv with heq | ⟨-, hlt⟩
          · rw [heq]
          · exact hlt.le
        · rcases hall x hx hxv with heq | ⟨-, hlt⟩
          · rw [heq]
            simp [greaterThan, maxQueueItemNum]
          · exact absurd htime hlt.ne

def hostReport (ci : Nat) (tm : Int) : QueueBase :=
  { idx := ⟨0, ci, tm⟩, ready := fun _ => 0, type := .push, max := 0, lock := 0, unacked := 0, timeout := 0,
    valid := true }

/-- A later report of a smaller index: the host that comes first decides. -/
theorem merge_order_matters :
    (traverseHostDict [hostReport 5 10, hostReport 3 20] (hostReport 0 0)).2.idx = ⟨0, 5, 10⟩ ∧
      (traverseHostDict [hostReport 3 20, hostReport 5 10] (hostReport 0 0)).2.idx = ⟨0, 3, 20⟩ := by
  decide

end MqHa

end HustStore
