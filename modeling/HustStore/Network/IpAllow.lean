import HustStore.Base
import HustStore.Lib.Decimal
import HustStore.Lib.Halving
import Mathlib.Data.List.Dedup
import Mathlib.Data.List.Sort

/-!
# The addresses that may connect

The configuration lists the addresses and ranges of addresses that may connect to the server.
-/

namespace HustStore.Network

structure IpRange where
  start : Nat
  stop : Nat
  deriving DecidableEq, Repr

def IpRange.holds (r : IpRange) (ip : Nat) : Bool := r.start ≤ ip && ip ≤ r.stop

def addUniqSort (start stop : Nat) : List IpRange → List IpRange
  | [] => [⟨start, stop⟩]
  | r :: rest =>
    if start = r.start then (if stop > r.stop then { r with stop } else r) :: rest
    else if start < r.start then ⟨start, stop⟩ :: r :: rest
    else r :: addUniqSort start stop rest

def comma : UInt8 := 44

def dash : UInt8 := 45

/-- What the loop of `get_ip_allow_map` carries on: the text since the last separator, that
separator, the address before it, and the table. -/
structure AllowLoop where
  token : Bytes
  flag : UInt8
  prevIp : Nat
  ipMap : List IpRange

section

variable (addr : Bytes → Nat)

def allowLoop : Bytes → AllowLoop → AllowLoop
  | [], st => st
  | b :: rest, st =>
    if st.ipMap.length < 1023 then
      if b = comma ∨ b = dash then
        let curIp := addr st.token
        let ipMap :=
          if st.flag = comma ∧ b = comma then addUniqSort curIp curIp st.ipMap
          else if st.flag = dash then addUniqSort st.prevIp curIp st.ipMap
          else st.ipMap
        allowLoop rest ⟨[], b, curIp, ipMap⟩
      else allowLoop rest { st with token := st.token ++ [b] }
    else st

def AllowLoop.finish (st : AllowLoop) : List IpRange :=
  let curIp := addr st.token
  if st.flag = comma then addUniqSort curIp curIp st.ipMap
  else if st.flag = dash then addUniqSort st.prevIp curIp st.ipMap
  else st.ipMap

def isAllowByte (b : UInt8) : Bool := Decimal.isDigit b || b = dash || b = 46 || b = comma

def getIpAllowMap (list : Bytes) : List IpRange :=
  if list.length = 0 ∨ list.length > 8192 then []
  else if !list.all isAllowByte then []
  else (allowLoop addr list ⟨[], comma, 0, []⟩).finish addr

end

def verdict (ipMap : List IpRange) (ip i : Nat) : Halving.Verdict :=
  match ipMap[i]? with
  | none => .before
  | some r => if r.holds ip then .hit else if r.start > ip then .before else .behind

def canAccess (ipMap : List IpRange) (ip : Nat) : Bool :=
  Halving.search (verdict ipMap ip) ipMap.length 0 ipMap.length

def onPostAccept (ipMap : List IpRange) (ip : Nat) : Bool :=
  !(0 < ipMap.length && !canAccess ipMap ip)

/-! ### Lists of addresses and ranges -/

inductive AllowItem
  | single (a : Bytes)
  | span (a b : Bytes)
  deriving DecidableEq, Repr

namespace AllowItem

def text : AllowItem → Bytes
  | .single a => a
  | .span a b => a ++ dash :: b

def addresses : AllowItem → List Bytes
  | .single a => [a]
  | .span a b => [a, b]

def range (addr : Bytes → Nat) : AllowItem → IpRange
  | .single a => ⟨addr a, addr a⟩
  | .span a b => ⟨addr a, addr b⟩

end AllowItem

def IsAddressText (a : Bytes) : Prop :=
  a ≠ [] ∧ a.length ≤ 15 ∧ ∀ b ∈ a, Decimal.isDigit b ∨ b = 46

def AllowItem.Valid (addr : Bytes → Nat) (item : AllowItem) : Prop :=
  (item.range addr).start ≤ (item.range addr).stop ∧ (item.range addr).stop < 2 ^ 32 ∧
    ∀ a ∈ item.addresses, IsAddressText a

instance (addr : Bytes → Nat) (item : AllowItem) : Decidable (item.Valid addr) :=
  inferInstanceAs (Decidable (_ ∧ _ ∧ ∀ a ∈ item.addresses, a ≠ [] ∧ a.length ≤ 15 ∧
    ∀ b ∈ a, Decimal.isDigit b ∨ b = 46))

def listText : List AllowItem → Bytes
  | [] => []
  | [item] => item.text
  | item :: rest => item.text ++ comma :: listText rest

def stopAt (ranges : List IpRange) (start : Nat) : Nat :=
  ((ranges.filter (·.start = start)).map IpRange.stop).foldr max 0

def byStart (ranges : List IpRange) : List IpRange :=
  ((ranges.map IpRange.start).dedup.insertionSort (· ≤ ·)).map fun start =>
    ⟨start, stopAt ranges start⟩

def lookedAt (ipMap : List IpRange) (gap : Nat) : List Nat :=
  Halving.probes ipMap.length 0 ipMap.length gap

/-- A range never hides another one: whatever range starts before a gap and reaches beyond what the
search looks at on its way to the gap, the next range takes over right there. -/
def Unhidden (ipMap : List IpRange) : Prop :=
  ∀ gap ≤ ipMap.length, ∀ r ∈ ipMap.take gap, ∃ i ∈ lookedAt ipMap gap, i < gap ∧
    ipMap[i]?.any fun p => r.stop ≤ p.stop || ipMap[gap]?.any fun q => q.start ≤ p.stop + 1

instance (ipMap : List IpRange) : Decidable (Unhidden ipMap) :=
  inferInstanceAs (Decidable (∀ gap ≤ ipMap.length, ∀ r ∈ ipMap.take gap, ∃ i ∈ lookedAt ipMap gap,
    i < gap ∧ ipMap[i]?.any fun p => r.stop ≤ p.stop || ipMap[gap]?.any fun q => q.start ≤ p.stop + 1))

/-! ### Reading the list -/

theorem length_addUniqSort_le (start stop : Nat) (ipMap : List IpRange) :
    (addUniqSort start stop ipMap).length ≤ ipMap.length + 1 := by
  induction ipMap with
  | nil => rfl
  | cons r rest ih =>
    rw [addUniqSort]
    split_ifs <;> simp only [List.length_cons] <;> omega

def addAll (ranges : List IpRange) (ipMap : List IpRange) : List IpRange :=
  ranges.foldl (fun ipMap r => addUniqSort r.start r.stop ipMap) ipMap

variable {addr : Bytes → Nat}

variable {b : UInt8}

theorem separator_of_isAddressText {a : Bytes} (h : IsAddressText a) (hb : b ∈ a) : ¬(b = comma ∨ b = dash) := by
  rintro (rfl | rfl)
  · exact absurd (h.2.2 _ hb) (by decide)
  · exact absurd (h.2.2 _ hb) (by decide)

theorem allowLoop_text {a : Bytes} (ha : ∀ b ∈ a, ¬(b = comma ∨ b = dash)) (rest : Bytes)
    (st : AllowLoop) (hroom : st.ipMap.length < 1023) :
    allowLoop addr (a ++ rest) st = allowLoop addr rest { st with token := st.token ++ a } := by
  induction a generalizing st with
  | nil => simp
  | cons b a ih =>
    have hnext := ih (fun c hc => ha c (List.mem_cons_of_mem _ hc)) { st with token := st.token ++ [b] } hroom
    rw [List.cons_append, allowLoop, if_pos hroom, if_neg (ha b List.mem_cons_self), hnext]
    simp

variable {ipMap : List IpRange} {item : AllowItem}

/-- The state in which the loop has read an item: at a comma, and at the end of the list, it adds the range. -/
theorem allowLoop_item (h : item.Valid addr) (prev : Nat) (hroom : ipMap.length < 1023) :
    ∃ st, (∀ rest, allowLoop addr (item.text ++ rest) ⟨[], comma, prev, ipMap⟩ = allowLoop addr rest st) ∧
      (∀ rest, allowLoop addr (comma :: rest) st = allowLoop addr rest ⟨[], comma, (item.range addr).stop,
        addUniqSort (item.range addr).start (item.range addr).stop ipMap⟩) ∧
      st.finish addr = addUniqSort (item.range addr).start (item.range addr).stop ipMap := by
  cases item with
  | single a =>
    have ha := h.2.2 a List.mem_cons_self
    refine ⟨⟨a, comma, prev, ipMap⟩, fun rest => ?_, fun rest => ?_, ?_⟩
    · exact allowLoop_text (fun _ => separator_of_isAddressText ha) rest _ hroom
    · rw [allowLoop, if_pos hroom, if_pos (.inl rfl)]
      simp [AllowItem.range]
    · simp [AllowLoop.finish, AllowItem.range]
  | span a b =>
    obtain ⟨ha, hb⟩ : IsAddressText a ∧ IsAddressText b := by simpa [AllowItem.addresses] using h.2.2
    refine ⟨⟨b, dash, addr a, ipMap⟩, fun rest => ?_, fun rest => ?_, ?_⟩
    · rw [AllowItem.text, List.append_assoc, List.cons_append,
        allowLoop_text (fun _ => separator_of_isAddressText ha) _ _ hroom, allowLoop, if_pos hroom, if_pos (.inr rfl)]
      exact allowLoop_text (fun _ => separator_of_isAddressText hb) rest _ (by simpa [comma, dash] using hroom)
    · rw [allowLoop, if_pos hroom, if_pos (.inl rfl)]
      simp [AllowItem.range, comma, dash]
    · simp [AllowLoop.finish, AllowItem.range, comma, dash]

variable {items : List AllowItem}

theorem finish_allowLoop (h : ∀ i ∈ item :: items, i.Valid addr) {prev : Nat}
    (hroom : ipMap.length + items.length < 1023) :
    (allowLoop addr (listText (item :: items)) ⟨[], comma, prev, ipMap⟩).finish addr =
      addAll ((item :: items).map (AllowItem.range addr)) ipMap := by
  induction items generalizing item prev ipMap with
  | nil =>
    obtain ⟨st, hread, -, hfinish⟩ := allowLoop_item (h _ List.mem_cons_self) prev (by simpa using hroom)
    rw [listText, ← List.append_nil item.text, hread, allowLoop, hfinish]
    rfl
  | cons next items ih =>
    have hlen := length_addUniqSort_le (item.range addr).start (item.range addr).stop ipMap
    rw [List.length_cons] at hroom
    obtain ⟨st, hread, hcomma, -⟩ := allowLoop_item (h _ List.mem_cons_self) prev (show ipMap.length < 1023 by omega)
    rw [listText, hread, hcomma, ih (fun i hi => h i (List.mem_cons_of_mem _ hi)) (by omega)]
    · rfl
    · simp

theorem isAllowByte_of_isAddressText {a : Bytes} (h : IsAddressText a) (hb : b ∈ a) :
    isAllowByte b := by
  obtain hdigit | hdot := h.2.2 b hb
  · simp [isAllowByte, hdigit]
  · simp [isAllowByte, hdot]

theorem isAllowByte_of_mem_text (h : item.Valid addr) (hb : b ∈ item.text) : isAllowByte b := by
  cases item with
  | single a => exact isAllowByte_of_isAddressText (h.2.2 a List.mem_cons_self) hb
  | span a c =>
    obtain hb | hb := List.mem_append.mp hb
    · exact isAllowByte_of_isAddressText (h.2.2 a (by simp [AllowItem.addresses])) hb
    · obtain rfl | hb := List.mem_cons.mp hb
      · decide
      · exact isAllowByte_of_isAddressText (h.2.2 c (by simp [AllowItem.addresses])) hb

theorem isAllowByte_of_mem_listText (h : ∀ i ∈ items, i.Valid addr) (hb : b ∈ listText items) : isAllowByte b := by
  fun_induction listText items with
  | case1 => simp at hb
  | case2 item => exact isAllowByte_of_mem_text (h _ List.mem_cons_self) hb
  | case3 item rest hrest ih =>
    obtain hb | hb := List.mem_append.mp hb
    · exact isAllowByte_of_mem_text (h _ List.mem_cons_self) hb
    · obtain rfl | hb := List.mem_cons.mp hb
      · decide
      · exact ih (fun i hi => h i (List.mem_cons_of_mem _ hi)) hb

theorem listText_ne_nil (h : item.Valid addr) :
    listText (item :: items) ≠ [] := by
  have htext : item.text ≠ [] := by
    cases item with
    | single a => exact (h.2.2 a List.mem_cons_self).1
    | span a b => simp [AllowItem.text]
  cases items with
  | nil => exact htext
  | cons next items => simp [listText, htext]

theorem getIpAllowMap_listText (h : ∀ i ∈ items, i.Valid addr)
    (hcount : items.length < 1023) (hlen : (listText items).length ≤ 8192) :
    getIpAllowMap addr (listText items) = addAll (items.map (AllowItem.range addr)) [] := by
  cases items with
  | nil => rfl
  | cons item items =>
    have hbytes : (listText (item :: items)).all isAllowByte := by
      rw [List.all_eq_true]
      intro b hb
      exact isAllowByte_of_mem_listText h hb
    have hne : (listText (item :: items)).length ≠ 0 := by
      rw [Ne, List.length_eq_zero_iff]
      exact listText_ne_nil (h _ List.mem_cons_self)
    rw [getIpAllowMap, if_neg (by omega), hbytes, if_neg (by simp)]
    apply finish_allowLoop h
    rw [List.length_cons] at hcount
    simp only [List.length_nil]
    omega

/-! ### The table -/

def Ascending (ipMap : List IpRange) : Prop := ipMap.Pairwise fun p q => p.start < q.start

theorem stopAt_cons (r : IpRange) (ranges : List IpRange) (start : Nat) : stopAt (r :: ranges) start =
      if r.start = start then max r.stop (stopAt ranges start) else stopAt ranges start := by
  unfold stopAt
  split_ifs with h <;> simp [h]

theorem stopAt_eq_zero {ranges : List IpRange} {start : Nat} (h : ∀ r ∈ ranges, r.start ≠ start) :
    stopAt ranges start = 0 := by
  have hnone : ranges.filter (·.start = start) = [] := by
    simpa [List.filter_eq_nil_iff] using h
  simp [stopAt, hnone]

theorem mem_start_addUniqSort {start stop s : Nat} :
    (∃ r ∈ addUniqSort start stop ipMap, r.start = s) ↔ s = start ∨ ∃ r ∈ ipMap, r.start = s := by
  induction ipMap with
  | nil => simp [addUniqSort, eq_comm]
  | cons r rest ih =>
    rw [addUniqSort]
    split_ifs with heq hstop hlt <;> simp only [List.mem_cons, exists_eq_or_imp, ih] <;> grind

theorem Ascending.addUniqSort (h : Ascending ipMap) (start stop : Nat) :
    Ascending (addUniqSort start stop ipMap) := by
  induction ipMap with
  | nil => simp [Network.addUniqSort, Ascending]
  | cons r rest ih =>
    obtain ⟨hr, hrest⟩ := List.pairwise_cons.mp h
    rw [Network.addUniqSort]
    split_ifs with heq hstop hlt
    · exact List.pairwise_cons.mpr ⟨hr, hrest⟩
    · exact h
    · refine List.pairwise_cons.mpr ⟨fun q hq => ?_, h⟩
      obtain rfl | hq := List.mem_cons.mp hq
      · exact hlt
      · exact hlt.trans (hr q hq)
    · refine List.pairwise_cons.mpr ⟨fun q hq => ?_, ih hrest⟩
      obtain hq | ⟨p, hp, hpq⟩ := mem_start_addUniqSort.mp ⟨q, hq, rfl⟩
      · omega
      · exact hpq ▸ hr p hp

theorem stopAt_addUniqSort (h : Ascending ipMap) (start stop s : Nat) : stopAt (addUniqSort start stop ipMap) s =
      if s = start then max stop (stopAt ipMap s) else stopAt ipMap s := by
  induction ipMap with
  | nil => simp [addUniqSort, stopAt_cons, eq_comm]
  | cons r rest ih =>
    obtain ⟨hr, hrest⟩ := List.pairwise_cons.mp h
    rw [addUniqSort]
    split_ifs with heq hstop hlt hs hs <;> simp only [stopAt_cons, ih hrest] <;> grind

variable {r : IpRange}

theorem stopAt_of_mem (h : Ascending ipMap) (hr : r ∈ ipMap) : stopAt ipMap r.start = r.stop := by
  induction ipMap with
  | nil => simp at hr
  | cons p rest ih =>
    obtain ⟨hp, hrest⟩ := List.pairwise_cons.mp h
    rw [stopAt_cons]
    obtain rfl | hr := List.mem_cons.mp hr
    · rw [if_pos rfl, stopAt_eq_zero fun q hq => (hp q hq).ne', Nat.max_zero]
    · rw [if_neg (hp r hr).ne, ih hrest hr]

theorem byStart_of_ascending (h : Ascending ipMap) : byStart ipMap = ipMap := by
  have hstarts : (ipMap.map IpRange.start).Pairwise (· < ·) := List.pairwise_map.mpr h
  have hnodup : (ipMap.map IpRange.start).Nodup := hstarts.imp Nat.ne_of_lt
  have hsorted : (ipMap.map IpRange.start).Pairwise (· ≤ ·) := hstarts.imp Nat.le_of_lt
  rw [byStart, List.dedup_eq_self.mpr hnodup, hsorted.insertionSort_eq, List.map_map]
  refine (List.map_congr_left fun r hr => ?_).trans (List.map_id ipMap)
  simp only [Function.comp_apply, stopAt_of_mem h hr, id_eq]

theorem byStart_congr {ranges ranges' : List IpRange}
    (hstart : ∀ s, (∃ r ∈ ranges, r.start = s) ↔ ∃ r ∈ ranges', r.start = s)
    (hstop : ∀ s, stopAt ranges s = stopAt ranges' s) : byStart ranges = byStart ranges' := by
  have hsort : (ranges.map IpRange.start).dedup.insertionSort (· ≤ ·) =
      (ranges'.map IpRange.start).dedup.insertionSort (· ≤ ·) := by
    apply List.Perm.eq_of_pairwise' (List.pairwise_insertionSort _ _) (List.pairwise_insertionSort _ _)
    refine (List.perm_insertionSort _ _).trans (.trans ?_ (List.perm_insertionSort _ _).symm)
    rw [List.perm_ext_iff_of_nodup (List.nodup_dedup _) (List.nodup_dedup _)]
    intro s
    simpa using hstart s
  have hfun : stopAt ranges = stopAt ranges' := funext hstop
  rw [byStart, byStart, hsort, hfun]

theorem exists_addAll_iff {Q : IpRange → Prop} (hadd : ∀ (r : IpRange) (ipMap : List IpRange),
      (∃ q ∈ addUniqSort r.start r.stop ipMap, Q q) ↔ Q r ∨ ∃ q ∈ ipMap, Q q)
    {ranges ipMap : List IpRange} :
    (∃ r ∈ addAll ranges ipMap, Q r) ↔ (∃ r ∈ ranges, Q r) ∨ ∃ r ∈ ipMap, Q r := by
  induction ranges generalizing ipMap with
  | nil => simp [addAll]
  | cons r ranges ih =>
    rw [addAll, List.foldl_cons]
    refine ih.trans ?_
    rw [hadd]
    simp only [List.mem_cons, exists_eq_or_imp]
    exact or_left_comm.trans or_assoc.symm

theorem mem_start_addAll {ranges ipMap : List IpRange} {s : Nat} : (∃ r ∈ addAll ranges ipMap, r.start = s) ↔
      (∃ r ∈ ranges, r.start = s) ∨ ∃ r ∈ ipMap, r.start = s :=
  exists_addAll_iff fun r ipMap => by rw [mem_start_addUniqSort, eq_comm]

theorem Ascending.addAll (h : Ascending ipMap) (ranges : List IpRange) :
    Ascending (addAll ranges ipMap) := by
  induction ranges generalizing ipMap with
  | nil => exact h
  | cons r ranges ih => exact ih (h.addUniqSort r.start r.stop)

theorem stopAt_addAll (h : Ascending ipMap) (ranges : List IpRange) (s : Nat) :
    stopAt (addAll ranges ipMap) s = max (stopAt ranges s) (stopAt ipMap s) := by
  induction ranges generalizing ipMap with
  | nil => simp [addAll, stopAt]
  | cons r ranges ih =>
    have hnext := ih (h.addUniqSort r.start r.stop)
    rw [addAll, List.foldl_cons]
    refine hnext.trans ?_
    rw [stopAt_addUniqSort h, stopAt_cons]
    grind

theorem addAll_eq_byStart (ranges : List IpRange) : addAll ranges [] = byStart ranges := by
  have hempty : Ascending [] := List.Pairwise.nil
  rw [← byStart_of_ascending (hempty.addAll ranges)]
  apply byStart_congr
  · intro s
    simp [mem_start_addAll]
  · intro s
    rw [stopAt_addAll hempty]
    exact Nat.max_zero _

/-! ### Looking an address up -/

def gapOf (ipMap : List IpRange) (ip : Nat) : Nat := (ipMap.takeWhile (·.start ≤ ip)).length

theorem gapOf_le (ipMap : List IpRange) (ip : Nat) : gapOf ipMap ip ≤ ipMap.length :=
  (List.takeWhile_prefix _).length_le

theorem start_le_iff (h : Ascending ipMap) {i : Nat}
    (hi : ipMap[i]? = some r) (ip : Nat) : r.start ≤ ip ↔ i < gapOf ipMap ip := by
  induction ipMap generalizing i with
  | nil => simp at hi
  | cons p rest ih =>
    obtain ⟨hp, hrest⟩ := List.pairwise_cons.mp h
    by_cases hle : p.start ≤ ip
    · have hgap : gapOf (p :: rest) ip = gapOf rest ip + 1 := by simp [gapOf, hle]
      cases i with
      | zero =>
        obtain rfl : p = r := by simpa using hi
        omega
      | succ i =>
        rw [hgap, Nat.add_lt_add_iff_right]
        exact ih hrest (by simpa using hi)
    · have hgap : gapOf (p :: rest) ip = 0 := by simp [gapOf, hle]
      have hr : p.start ≤ r.start := by
        obtain rfl | hr := List.mem_cons.mp (List.mem_of_getElem? hi)
        · exact le_rfl
        · exact (hp r hr).le
      omega

variable {ip : Nat}

theorem holds_iff : r.holds ip = true ↔ r.start ≤ ip ∧ ip ≤ r.stop := by
  simp [IpRange.holds]

theorem verdict_eq {ip i : Nat} (h : ipMap[i]? = some r) :
    verdict ipMap ip i = if r.holds ip then .hit else if r.start > ip then .before else .behind := by
  simp [verdict, h]

theorem canAccess_iff (h : Ascending ipMap) (ip : Nat) : canAccess ipMap ip = true ↔
      ∃ i ∈ lookedAt ipMap (gapOf ipMap ip), ∃ r, ipMap[i]? = some r ∧ r.holds ip = true := by
  have hget : ∀ i < ipMap.length, ∃ r, ipMap[i]? = some r := by
    intro i hi
    exact ⟨ipMap[i], List.getElem?_eq_getElem hi⟩
  rw [canAccess, Halving.search_eq_any (gapOf ipMap ip)]
  · simp only [List.any_eq_true, decide_eq_true_eq]
    refine exists_congr fun i => and_congr_right fun hi => ?_
    obtain ⟨r, hr⟩ := hget i (Halving.lt_of_mem_probes hi)
    rw [verdict_eq hr]
    simp only [hr, Option.some.injEq, exists_eq_left']
    split_ifs <;> simp_all
  · intro i hi hv
    obtain ⟨r, hr⟩ := hget i hi
    rw [verdict_eq hr] at hv
    have hstart := start_le_iff h hr ip
    split_ifs at hv with _ hgt
    omega
  · intro i hi hv
    obtain ⟨r, hr⟩ := hget i hi
    rw [verdict_eq hr] at hv
    have hstart := start_le_iff h hr ip
    split_ifs at hv with _ hgt
    omega

theorem gapOf_eq (h : Ascending ipMap) {gap ip : Nat} (hgap : 0 < gap)
    (hle : gap ≤ ipMap.length) (hbefore : ∀ p, ipMap[gap - 1]? = some p → p.start ≤ ip)
    (hbehind : ∀ q, ipMap[gap]? = some q → ip < q.start) : gapOf ipMap ip = gap := by
  have hlast : gap - 1 < ipMap.length := by omega
  have hlow := (start_le_iff h (List.getElem?_eq_getElem hlast) ip).mp (hbefore _ (List.getElem?_eq_getElem hlast))
  have hbound := gapOf_le ipMap ip
  by_cases hend : gap < ipMap.length
  · have hhigh := start_le_iff h (List.getElem?_eq_getElem hend) ip
    have hnext := hbehind _ (List.getElem?_eq_getElem hend)
    omega
  · omega

theorem mem_take_gapOf (h : Ascending ipMap) (hr : r ∈ ipMap)
    (hip : r.start ≤ ip) : r ∈ ipMap.take (gapOf ipMap ip) := by
  obtain ⟨j, hj⟩ := List.mem_iff_getElem?.mp hr
  refine List.mem_iff_getElem?.mpr ⟨j, ?_⟩
  rw [List.getElem?_take_of_lt ((start_le_iff h hj ip).mp hip), hj]

theorem canAccess_of_unhidden (h : Ascending ipMap) (hu : Unhidden ipMap) (hr : r ∈ ipMap) (hip : r.holds ip = true) :
    canAccess ipMap ip = true := by
  obtain ⟨hstart, hstop⟩ := holds_iff.mp hip
  obtain ⟨i, hi, hlt, hp⟩ := hu _ (gapOf_le ipMap ip) r (mem_take_gapOf h hr hstart)
  obtain ⟨p, hget, hp⟩ := (Option.any_eq_true _ _).mp hp
  refine (canAccess_iff h ip).mpr ⟨i, hi, p, hget, holds_iff.mpr ⟨(start_le_iff h hget ip).mpr hlt, ?_⟩⟩
  obtain hp | hp := (Bool.or_eq_true _ _).mp hp
  · exact hstop.trans (of_decide_eq_true hp)
  · obtain ⟨q, hq, hp⟩ := (Option.any_eq_true _ _).mp hp
    have hnext := start_le_iff h hq ip
    have hreach := of_decide_eq_true hp
    omega

theorem unhidden_of_canAccess (h : Ascending ipMap) (hproper : ∀ r ∈ ipMap, r.start ≤ r.stop ∧ r.stop < 2 ^ 32)
    (hall : ∀ r ∈ ipMap, ∀ ip < 2 ^ 32, r.holds ip = true → canAccess ipMap ip = true) :
    Unhidden ipMap := by
  intro gap hle r hr
  by_contra hnone
  have hgap : 0 < gap := by
    by_contra hzero
    simp [show gap = 0 by omega] at hr
  have hlast : gap - 1 < ipMap.length := by omega
  -- What the search looks at ends before both the end of the range and the next start.
  have hshort : ∀ i ∈ lookedAt ipMap gap, i < gap → ∀ p, ipMap[i]? = some p →
      p.stop < r.stop ∧ ∀ q, ipMap[gap]? = some q → p.stop + 1 < q.start := by
    intro i hi hlt p hp
    by_contra hlong
    refine hnone ⟨i, hi, hlt, ?_⟩
    grind
  obtain ⟨ip, hstop, hnext, hpast⟩ : ∃ ip ≤ r.stop, (∀ q, ipMap[gap]? = some q → ip < q.start) ∧
      ∀ i ∈ lookedAt ipMap gap, i < gap → ∀ p, ipMap[i]? = some p → p.stop < ip := by
    cases hq : ipMap[gap]? with
    | none => exact ⟨r.stop, le_rfl, by simp, fun i hi hlt p hp => (hshort i hi hlt p hp).1⟩
    | some q =>
      have hbound : ∀ i ∈ lookedAt ipMap gap, i < gap → ∀ p, ipMap[i]? = some p →
          p.stop < min r.stop (q.start - 1) := by
        intro i hi hlt p hp
        have hp := hshort i hi hlt p hp
        have hq := hp.2 q hq
        omega
      have hpos := hbound _ (Halving.pred_mem_probes hgap hle (by omega)) (by omega) _
        (List.getElem?_eq_getElem hlast)
      refine ⟨min r.stop (q.start - 1), min_le_left _ _, fun q' hq' => ?_, hbound⟩
      obtain rfl : q = q' := by simpa using hq'
      omega
  have hpred := hpast _ (Halving.pred_mem_probes hgap hle (by omega)) (by omega) _ (List.getElem?_eq_getElem hlast)
  have hlastProper := (hproper _ (List.getElem_mem hlast)).1
  have hgapOf : gapOf ipMap ip = gap := by
    refine gapOf_eq h hgap hle (fun p hp => ?_) hnext
    rw [List.getElem?_eq_getElem hlast, Option.some.injEq] at hp
    rw [← hp]
    omega
  -- The range starts before the gap and holds the address, so that the address must be let in.
  obtain ⟨j, hj⟩ := List.mem_iff_getElem?.mp hr
  rw [List.getElem?_take] at hj
  split_ifs at hj with hjgap
  have hmem : r ∈ ipMap := List.mem_of_getElem? hj
  have hstart : r.start ≤ ip := (start_le_iff h hj ip).mpr (by omega)
  have hip : ip < 2 ^ 32 := hstop.trans_lt (hproper r hmem).2
  have haccess := hall r hmem ip hip (holds_iff.mpr ⟨hstart, hstop⟩)
  obtain ⟨i, hi, p, hp, hholds⟩ := (canAccess_iff h ip).mp haccess
  rw [hgapOf] at hi
  obtain ⟨hpstart, hpstop⟩ := holds_iff.mp hholds
  have hlt : i < gap := hgapOf ▸ (start_le_iff h hp ip).mp hpstart
  have := hpast i hi hlt p hp
  omega

/-! ### The list and the answers -/

theorem exists_holds_addUniqSort {start stop ip : Nat} : (∃ r ∈ addUniqSort start stop ipMap, r.holds ip = true) ↔
      (start ≤ ip ∧ ip ≤ stop) ∨ ∃ r ∈ ipMap, r.holds ip = true := by
  induction ipMap with
  | nil => simp [addUniqSort, holds_iff]
  | cons r rest ih =>
    rw [addUniqSort]
    split_ifs with heq hstop hlt <;> simp only [List.mem_cons, exists_eq_or_imp]
    · generalize (∃ q ∈ rest, q.holds ip = true) = inRest
      grind [holds_iff]
    · generalize (∃ q ∈ rest, q.holds ip = true) = inRest
      grind [holds_iff]
    · exact or_congr holds_iff Iff.rfl
    · rw [ih]
      exact or_left_comm

theorem exists_holds_addAll {ranges ipMap : List IpRange} : (∃ r ∈ addAll ranges ipMap, r.holds ip = true) ↔
      (∃ r ∈ ranges, r.holds ip = true) ∨ ∃ r ∈ ipMap, r.holds ip = true :=
  exists_addAll_iff fun r ipMap => by rw [exists_holds_addUniqSort, ← holds_iff]

theorem forall_addUniqSort {P : IpRange → Prop} {start stop : Nat}
    (hnew : P ⟨start, stop⟩) (h : ∀ r ∈ ipMap, P r) : ∀ r ∈ addUniqSort start stop ipMap, P r := by
  induction ipMap with
  | nil => simpa [addUniqSort] using hnew
  | cons r rest ih =>
    have hrest := ih fun q hq => h q (List.mem_cons_of_mem _ hq)
    rw [addUniqSort]
    split_ifs with heq hstop hlt <;> simp only [List.mem_cons, forall_eq_or_imp] at h ⊢
    · exact ⟨heq ▸ hnew, h.2⟩
    · exact h
    · exact ⟨hnew, h⟩
    · exact ⟨h.1, hrest⟩

theorem forall_addAll {P : IpRange → Prop} {ranges ipMap : List IpRange}
    (hnew : ∀ r ∈ ranges, P r) (h : ∀ r ∈ ipMap, P r) : ∀ r ∈ addAll ranges ipMap, P r := by
  induction ranges generalizing ipMap with
  | nil => exact h
  | cons r ranges ih =>
    exact ih (fun q hq => hnew q (List.mem_cons_of_mem _ hq)) (forall_addUniqSort (hnew r List.mem_cons_self) h)

theorem canAccess_of_too_long (list : Bytes) (h : list.length > 8192) (ip : Nat) :
    canAccess (getIpAllowMap addr list) ip = false := by
  rw [getIpAllowMap, if_pos (.inr h)]
  rfl

theorem onPostAccept_of_too_long (list : Bytes) (h : list.length > 8192) (ip : Nat) :
    onPostAccept (getIpAllowMap addr list) ip = true := by
  rw [getIpAllowMap, if_pos (.inr h)]
  rfl

/-- The lookup answers for exactly the listed addresses when the list is short enough to be read and
none of its ranges hides another one. -/
theorem canAccess_exact_iff {items : List AllowItem} (h : ∀ i ∈ items, i.Valid addr) (hcount : items.length < 1023) :
    (∀ ip < 2 ^ 32, canAccess (getIpAllowMap addr (listText items)) ip = true ↔
      ∃ i ∈ items, (i.range addr).holds ip = true) ↔
    (listText items).length ≤ 8192 ∧ Unhidden (byStart (items.map (AllowItem.range addr))) := by
  by_cases hlen : (listText items).length ≤ 8192
  · have hempty : Ascending [] := List.Pairwise.nil
    have hsorted := hempty.addAll (items.map (AllowItem.range addr))
    have hproper : ∀ r ∈ addAll (items.map (AllowItem.range addr)) [],
        r.start ≤ r.stop ∧ r.stop < 2 ^ 32 := by
      refine forall_addAll (fun r hr => ?_) (by simp)
      obtain ⟨i, hi, rfl⟩ := List.mem_map.mp hr
      exact ⟨(h i hi).1, (h i hi).2.1⟩
    have hunion : ∀ ip, (∃ r ∈ addAll (items.map (AllowItem.range addr)) [], r.holds ip = true) ↔
        ∃ i ∈ items, (i.range addr).holds ip = true := by
      intro ip
      rw [exists_holds_addAll]
      simp
    rw [getIpAllowMap_listText h hcount hlen, ← addAll_eq_byStart]
    simp only [← hunion, hlen, true_and]
    constructor
    · intro hexact
      exact unhidden_of_canAccess hsorted hproper fun r hr ip hip hholds =>
        (hexact ip hip).mpr ⟨r, hr, hholds⟩
    · intro hu ip _
      constructor
      · intro haccess
        obtain ⟨i, _, r, hr, hholds⟩ := (canAccess_iff hsorted ip).mp haccess
        exact ⟨r, List.mem_of_getElem? hr, hholds⟩
      · rintro ⟨r, hr, hholds⟩
        exact canAccess_of_unhidden hsorted hu hr hholds
  · simp only [hlen, false_and, iff_false]
    intro hexact
    cases items with
    | nil => exact hlen (by simp [listText])
    | cons item items =>
      have hitem := h item List.mem_cons_self
      have hstart := (hexact _ (hitem.1.trans_lt hitem.2.1)).mpr
        ⟨item, List.mem_cons_self, holds_iff.mpr ⟨le_rfl, hitem.1⟩⟩
      rw [canAccess_of_too_long _ (by omega)] at hstart
      exact absurd hstart (by decide)

def dottedAddr (text : Bytes) : Nat :=
  (text.splitOn 46).foldl (fun n part => n * 256 + Decimal.ofDigits part) 0

def apart : List AllowItem :=
  [.single (ascii "10.0.0.9"), .span (ascii "10.0.0.1") (ascii "10.0.0.5"), .single (ascii "127.0.0.1")]

theorem apart_valid : ∀ i ∈ apart, i.Valid dottedAddr := by decide +kernel

theorem canAccess_exact_apart : (∀ i ∈ apart, i.Valid dottedAddr) ∧ apart.length < 1023 ∧
      ∀ ip < 2 ^ 32, canAccess (getIpAllowMap dottedAddr (listText apart)) ip = true ↔
        ∃ i ∈ apart, (i.range dottedAddr).holds ip = true :=
  ⟨apart_valid, by decide,
    (canAccess_exact_iff apart_valid (by decide)).mpr ⟨by decide, by decide⟩⟩

def nested : List AllowItem :=
  [.span (ascii "10.0.0.0") (ascii "10.0.0.255"), .single (ascii "10.0.0.5"), .single (ascii "10.0.0.10")]

/-- The address 10.0.0.200 is in the range and is not found. -/
theorem canAccess_misses_nested :
    canAccess (getIpAllowMap dottedAddr (listText nested)) (dottedAddr (ascii "10.0.0.200")) = false ∧
      (∃ i ∈ nested, (i.range dottedAddr).holds (dottedAddr (ascii "10.0.0.200")) = true) := by
  decide

end HustStore.Network
