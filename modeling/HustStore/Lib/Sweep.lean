import HustStore.Lib.Run
import HustStore.Lib.SortedMap
import Mathlib.Tactic.SplitIfs

/-!
# Sweeps over an ordered map

A sweep goes through an ordered map page by page. It removes what is dead from the page, and the next page
begins at the last key of this one, or at the bottom when the page was short.
-/

universe u v

structure Sweep (K : Type u) (V : Type v) [LinearOrder K] where
  index : SortedMap K V
  seek : K

namespace Sweep

variable {K : Type u} {V : Type v} [LinearOrder K]

def high (s : Sweep K V) : List (K × V) := s.index.entries.filter fun e => s.seek ≤ e.1

def low (s : Sweep K V) : List (K × V) := s.index.entries.filter fun e => e.1 < s.seek

def order (s : Sweep K V) : List (K × V) := s.high ++ s.low

def before (k : K) (l : List (K × V)) : List (K × V) := l.takeWhile fun e => e.1 ≠ k

def ahead (s : Sweep K V) (k : K) : List (K × V) := before k s.order

def page (size : Nat) (s : Sweep K V) : List (K × V) := s.high.take size

def step (bot : K) (size : Nat) (s : Sweep K V) (dead : V → Bool) : Sweep K V where
  index := (((s.page size).filter fun e => dead e.2).map Prod.fst).foldl SortedMap.erase s.index
  seek := if (s.page size).length < size then bot
    else ((s.page size).getLast?.map Prod.fst).getD s.seek

def Clear (due : V → Bool) (s : Sweep K V) : Prop :=
  ∀ x ∈ s.index.entries, due x.2 = true → ∀ e ∈ s.ahead x.1, due e.2 = true

instance (due : V → Bool) (s : Sweep K V) : Decidable (s.Clear due) :=
  inferInstanceAs (Decidable (∀ x ∈ s.index.entries, _))

/-! ### Splitting at a key -/

theorem filter_split (l₁ l₂ : List (K × V)) {k : K} (h₁ : ∀ e ∈ l₁, e.1 < k) (h₂ : ∀ e ∈ l₂, k ≤ e.1) :
    ((l₁ ++ l₂).filter fun e => e.1 < k) = l₁ ∧ ((l₁ ++ l₂).filter fun e => k ≤ e.1) = l₂ := by
  have hlow : (l₁.filter fun e => e.1 < k) = l₁ :=
    List.filter_eq_self.mpr fun e he => decide_eq_true (h₁ e he)
  have hhigh : (l₂.filter fun e => k ≤ e.1) = l₂ :=
    List.filter_eq_self.mpr fun e he => decide_eq_true (h₂ e he)
  have hlow' : (l₂.filter fun e => e.1 < k) = [] :=
    List.filter_eq_nil_iff.mpr fun e he => by simpa using h₂ e he
  have hhigh' : (l₁.filter fun e => k ≤ e.1) = [] :=
    List.filter_eq_nil_iff.mpr fun e he => by simpa using h₁ e he
  rw [List.filter_append, List.filter_append, hlow, hhigh, hlow', hhigh', List.append_nil, List.nil_append]
  exact ⟨rfl, rfl⟩

variable (s : Sweep K V)

theorem low_append_high : s.low ++ s.high = s.index.entries := by
  have hsplit (l : List (K × V)) (hl : l.Pairwise fun a b => a.1 < b.1) :
      (l.filter fun e => e.1 < s.seek) ++ (l.filter fun e => s.seek ≤ e.1) = l := by
    induction l with
    | nil => rfl
    | cons e l ih =>
      obtain ⟨hhead, htail⟩ := List.pairwise_cons.mp hl
      by_cases he : e.1 < s.seek
      · rw [List.filter_cons_of_pos (by simpa using he), List.filter_cons_of_neg (by simpa using he),
          List.cons_append, ih htail]
      · have hall : ∀ e' ∈ e :: l, s.seek ≤ e'.1 := by
          intro e' he'
          obtain rfl | he' := List.mem_cons.mp he'
          · exact not_lt.mp he
          · exact (not_lt.mp he).trans (hhead e' he').le
        have hsplit := filter_split [] _ (fun _ h => absurd h List.not_mem_nil) hall
        rw [List.nil_append] at hsplit
        rw [hsplit.1, hsplit.2, List.nil_append]
  exact hsplit _ s.index.sorted

variable {e : K × V}

theorem mem_order : e ∈ s.order ↔ e ∈ s.index.entries := by
  rw [← low_append_high, order, List.mem_append, List.mem_append, or_comm]

theorem lt_seek_of_mem_low (h : e ∈ s.low) : e.1 < s.seek :=
  of_decide_eq_true (List.mem_filter.mp h).2

theorem seek_le_of_mem_high (h : e ∈ s.high) : s.seek ≤ e.1 :=
  of_decide_eq_true (List.mem_filter.mp h).2

theorem eq_of_key {e e' : K × V} (h : e ∈ s.index.entries) (h' : e' ∈ s.index.entries) (heq : e.1 = e'.1) :
    e = e' := by
  obtain ⟨k, v⟩ := e
  obtain ⟨k', v'⟩ := e'
  obtain rfl : k = k' := heq
  exact Prod.ext rfl (Option.some.inj ((SortedMap.mem_entries.mp h).symm.trans (SortedMap.mem_entries.mp h')))

/-! ### One page -/

variable {s} {bot : K} {size : Nat} {dead due : V → Bool}

def alive (dead : V → Bool) (l : List (K × V)) : List (K × V) := l.filter fun e => !dead e.2

omit [LinearOrder K] in
theorem mem_alive {l : List (K × V)} {e : K × V} : e ∈ alive dead l ↔ e ∈ l ∧ dead e.2 = false := by
  rw [alive, List.mem_filter, Bool.not_eq_true']

theorem mem_step_iff : e ∈ (s.step bot size dead).index.entries ↔
      e ∈ s.index.entries ∧ ¬(e ∈ s.page size ∧ dead e.2 = true) := by
  rw [step, SortedMap.entries_foldl_erase s.index
    (p := fun e => decide (e.1 ∉ ((s.page size).filter fun e => dead e.2).map Prod.fst))
    fun e => decide_eq_true_iff, List.mem_filter, decide_eq_true_iff]
  refine and_congr_right fun he => not_congr ⟨fun hkey => ?_, fun hdead => ?_⟩
  · obtain ⟨e', he', heq⟩ := List.mem_map.mp hkey
    obtain ⟨hpage, hdead⟩ := List.mem_filter.mp he'
    obtain rfl := s.eq_of_key (List.mem_filter.mp (List.mem_of_mem_take hpage)).1 he heq
    exact ⟨hpage, hdead⟩
  · exact List.mem_map.mpr ⟨e, List.mem_filter.mpr hdead, rfl⟩

theorem mem_of_mem_step (h : e ∈ (s.step bot size dead).index.entries) : e ∈ s.index.entries :=
  (mem_step_iff.mp h).1

theorem entries_step {rest : List (K × V)} (hrest : s.high = s.page size ++ rest) :
    (s.step bot size dead).index.entries = s.low ++ alive dead (s.page size) ++ rest := by
  have hentries : s.low ++ s.page size ++ rest = s.index.entries := by
    rw [List.append_assoc, ← hrest, low_append_high]
  have hsorted := s.index.sorted
  have hsub : ∀ e ∈ s.page size, e ∈ s.index.entries := by
    intro e he
    rw [← hentries]
    simp [he]
  rw [step, SortedMap.entries_foldl_erase s.index
    (p := fun e => decide (e.1 ∉ ((s.page size).filter fun e => dead e.2).map Prod.fst))
    fun e => decide_eq_true_iff]
  rw [← hentries] at hsorted ⊢
  rw [List.pairwise_append, List.pairwise_append] at hsorted
  obtain ⟨⟨-, -, hlow⟩, -, hhigh⟩ := hsorted
  have hapart {e : K × V} (hne : ∀ e' ∈ s.page size, e'.1 ≠ e.1) :
      decide (e.1 ∉ ((s.page size).filter fun e => dead e.2).map Prod.fst) = true := by
    refine decide_eq_true fun hmem => ?_
    obtain ⟨e', he', heq⟩ := List.mem_map.mp hmem
    exact hne e' (List.mem_filter.mp he').1 heq
  rw [List.filter_append, List.filter_append]
  congr 1
  · congr 1
    · exact List.filter_eq_self.mpr fun e he => hapart fun e' he' => (hlow e he e' he').ne'
    · refine List.filter_congr fun e he => ?_
      rw [Bool.eq_iff_iff, decide_eq_true_iff, Bool.not_eq_true', ← Bool.not_eq_true]
      refine not_congr ⟨fun hmem => ?_, fun hdead => ?_⟩
      · obtain ⟨e', he', heq⟩ := List.mem_map.mp hmem
        obtain ⟨hpage, hdead⟩ := List.mem_filter.mp he'
        obtain rfl := s.eq_of_key (hsub e' hpage) (hsub e he) heq
        exact hdead
      · exact List.mem_map.mpr ⟨e, List.mem_filter.mpr ⟨he, hdead⟩, rfl⟩
  · exact List.filter_eq_self.mpr fun e he => hapart fun e' he' =>
      (hhigh e' (List.mem_append_right _ he') e he).ne

/-- What a page can be: a full one, whose last entry is first in the new order unless it is dead, or a short
one, after which the order is that of the keys. -/
inductive Turn (size : Nat) (dead : V → Bool) (s s' : Sweep K V) : Prop
  | full {init rest : List (K × V)} {last : K × V} (high_eq : s.high = init ++ last :: rest)
      (length_eq : init.length + 1 = size) (high_step : s'.high = alive dead [last] ++ rest)
      (low_step : s'.low = s.low ++ alive dead init)
  | short (length_lt : s.high.length < size) (high_step : s'.high = s.low ++ alive dead s.high)
      (low_step : s'.low = [])

theorem turn_step (hbot : ∀ k, bot ≤ k) (hsize : 0 < size) (s : Sweep K V) (dead : V → Bool) :
    Turn size dead s (s.step bot size dead) := by
  have hsorted := s.index.sorted
  rw [← low_append_high] at hsorted
  obtain ⟨-, hhigh, -⟩ := List.pairwise_append.mp hsorted
  by_cases hlen : s.high.length < size
  · have hpage : s.page size = s.high := List.take_of_length_le hlen.le
    have hentries : (s.step bot size dead).index.entries = s.low ++ alive dead s.high := by
      have hrest : s.high = s.page size ++ [] := by rw [hpage, List.append_nil]
      rw [entries_step hrest, hpage, List.append_nil]
    have hseek : (s.step bot size dead).seek = bot := if_pos (by rwa [hpage])
    have hsplit := filter_split [] (s.low ++ alive dead s.high) (k := bot)
      (fun _ h => absurd h List.not_mem_nil) fun e _ => hbot e.1
    rw [List.nil_append] at hsplit
    refine .short hlen ?_ ?_
    · rw [high, hentries, hseek, hsplit.2]
    · rw [low, hentries, hseek, hsplit.1]
  · obtain ⟨n, rfl⟩ : ∃ n, size = n + 1 := ⟨size - 1, by omega⟩
    rw [not_lt] at hlen
    have hlt : n < s.high.length := hlen
    -- The last entry of the page parts the entries.
    have hpage : s.page (n + 1) = s.high.take n ++ [s.high[n]] := List.take_succ_eq_append_getElem hlt
    have hhigh_eq : s.high = s.page (n + 1) ++ s.high.drop (n + 1) := (List.take_append_drop _ _).symm
    have hcons : s.high = s.high.take n ++ s.high[n] :: s.high.drop (n + 1) := by
      rw [List.getElem_cons_drop hlt, List.take_append_drop]
    generalize s.high[n] = last at hpage hcons
    have hinit : (s.high.take n).length = n := by rw [List.length_take]; omega
    generalize s.high.take n = init at hpage hcons hinit
    generalize s.high.drop (n + 1) = rest at hhigh_eq hcons
    have hentries : (s.step bot (n + 1) dead).index.entries =
        (s.low ++ alive dead init) ++ (alive dead [last] ++ rest) := by
      rw [entries_step hhigh_eq, hpage]
      simp only [alive, List.filter_append, List.append_assoc]
    have hseek : (s.step bot (n + 1) dead).seek = last.1 := by
      have hfull : ¬(s.page (n + 1)).length < n + 1 := by
        rw [hpage, List.length_append, List.length_singleton]
        omega
      rw [step, if_neg hfull, hpage, List.getLast?_concat]
      rfl
    have hlast : last ∈ s.high := by rw [hcons]; simp
    rw [hcons, List.pairwise_append, List.pairwise_cons] at hhigh
    obtain ⟨-, ⟨hrest, -⟩, hbefore⟩ := hhigh
    have hsplit := filter_split (s.low ++ alive dead init) (alive dead [last] ++ rest) (k := last.1) (by
        intro e he
        rcases List.mem_append.mp he with he | he
        · exact (s.lt_seek_of_mem_low he).trans_le (s.seek_le_of_mem_high hlast)
        · exact hbefore e (mem_alive.mp he).1 last (List.mem_cons_self ..))
      (by
        intro e he
        rcases List.mem_append.mp he with he | he
        · exact (congrArg Prod.fst (List.mem_singleton.mp (mem_alive.mp he).1)).ge
        · exact (hrest e he).le)
    refine .full hcons (by omega) ?_ ?_
    · rw [high, hentries, hseek, hsplit.2]
    · rw [low, hentries, hseek, hsplit.1]

/-! ### What is ahead of a key -/

section Ahead

variable {k : K} {v : V} {l l' : List (K × V)}

theorem before_append_of_mem (h : (k, v) ∈ l) (l' : List (K × V)) : before k (l ++ l') = before k l := by
  induction l with
  | nil => cases h
  | cons e l ih =>
    unfold before at ih ⊢
    by_cases he : e.1 = k
    · rw [List.cons_append, List.takeWhile_cons_of_neg (by simpa using he),
        List.takeWhile_cons_of_neg (by simpa using he)]
    · have hmem : (k, v) ∈ l := (List.mem_cons.mp h).resolve_left fun heq => he (congrArg Prod.fst heq.symm)
      rw [List.cons_append, List.takeWhile_cons_of_pos (by simpa using he),
        List.takeWhile_cons_of_pos (by simpa using he), ih hmem]

theorem before_append_of_forall (h : ∀ e ∈ l, e.1 ≠ k) (l' : List (K × V)) : before k (l ++ l') = l ++ before k l' :=
  List.takeWhile_append_of_pos fun e he => decide_eq_true (h e he)

theorem ne_of_mem_step (hx : (k, v) ∈ s.index.entries) (hdead : dead v = true)
    (hx' : (k, v) ∈ (s.step bot size dead).index.entries) : ∀ e ∈ s.page size, e.1 ≠ k := by
  intro e he heq
  have hentry : e ∈ s.index.entries := (List.mem_filter.mp (List.mem_of_mem_take he)).1
  obtain rfl : e = (k, v) := s.eq_of_key hentry hx heq
  exact (mem_step_iff.mp hx').2 ⟨he, hdead⟩

section Full

variable {s' : Sweep K V} {init rest : List (K × V)} {last : K × V}

theorem mem_behind_page (hhigh : s.high = init ++ last :: rest) (hpage : ∀ e ∈ init ++ [last], e.1 ≠ k)
    (hmem : (k, v) ∈ s.order) : (k, v) ∈ rest ++ s.low := by
  rw [order, hhigh, List.append_cons, List.append_assoc] at hmem
  exact (List.mem_append.mp hmem).resolve_left fun hmem => hpage _ hmem rfl

theorem ahead_of_full (hhigh : s.high = init ++ last :: rest) (hpage : ∀ e ∈ init ++ [last], e.1 ≠ k) :
    s.ahead k = init ++ [last] ++ before k (rest ++ s.low) := by
  rw [ahead, order, hhigh, ← before_append_of_forall hpage, List.append_cons, List.append_assoc]

theorem ahead_step_of_full (hhigh' : s'.high = alive dead [last] ++ rest)
    (hlow' : s'.low = s.low ++ alive dead init) (hlast : last.1 ≠ k) (hrest : (k, v) ∈ rest ++ s.low) :
    s'.ahead k = alive dead [last] ++ before k (rest ++ s.low) := by
  have hkept : ∀ e ∈ alive dead [last], e.1 ≠ k := fun e he =>
    List.mem_singleton.mp (mem_alive.mp he).1 ▸ hlast
  rw [ahead, order, hhigh', hlow', List.append_assoc, before_append_of_forall hkept, ← List.append_assoc,
    before_append_of_mem hrest]

end Full

def rank (s : Sweep K V) (k : K) : Nat := 2 * (s.ahead k).length + if s.high = [] then 1 else 0

theorem rank_step (hbot : ∀ k, bot ≤ k) (hsize : 0 < size) (hx : (k, v) ∈ s.index.entries)
    (hdead : dead v = true) (hx' : (k, v) ∈ (s.step bot size dead).index.entries)
    (hgoes : 2 ≤ size ∨ ∀ e ∈ s.ahead k, dead e.2 = true) :
    (s.step bot size dead).rank k < s.rank k ∧ ∀ e ∈ (s.step bot size dead).ahead k, e ∈ s.ahead k := by
  have hpage := ne_of_mem_step hx hdead hx'
  have hmem := s.mem_order.mpr hx
  have hturn := turn_step hbot hsize s dead
  generalize s.step bot size dead = s' at hturn
  unfold page at hpage
  cases hturn with
  | @full init rest last hhigh hlen hhigh' hlow' =>
    have htake : s.high.take size = init ++ [last] := by
      rw [hhigh, ← hlen, List.append_cons, List.take_left' (by simp)]
    rw [htake] at hpage
    have hahead := ahead_of_full hhigh hpage
    have hahead' := ahead_step_of_full hhigh' hlow' (hpage last (by simp)) (mem_behind_page hhigh hpage hmem)
    rw [hahead] at hgoes
    rw [rank, rank, hahead, hahead']
    refine ⟨?_, fun e he => ?_⟩
    · simp only [List.length_append, List.length_singleton]
      cases hstays : dead last.2 with
      | true =>
        have hnil : alive dead [last] = [] := by simp [alive, hstays]
        rw [hnil, List.length_nil]
        split_ifs <;> omega
      | false =>
        -- The last entry stays, so the page had another one.
        have hsingle : alive dead [last] = [last] := by simp [alive, hstays]
        have htwo : 2 ≤ size := hgoes.resolve_right fun hall => by
          rw [hall last (by simp)] at hstays
          cases hstays
        have hne : s'.high ≠ [] := by rw [hhigh', hsingle]; simp
        rw [if_neg hne, hsingle, List.length_singleton]
        omega
    · rcases List.mem_append.mp he with he | he
      · exact List.mem_append_left _ (List.mem_append_right _ (mem_alive.mp he).1)
      · exact List.mem_append_right _ he
  | short hlen hhigh' hlow' =>
    rw [List.take_of_length_le hlen.le] at hpage
    have hlow : (k, v) ∈ s.low :=
      (List.mem_append.mp hmem).resolve_left fun hhigh => hpage _ hhigh rfl
    have hahead : s.ahead k = s.high ++ before k s.low := before_append_of_forall hpage _
    have hahead' : s'.ahead k = before k s.low := by
      rw [ahead, order, hhigh', hlow', List.append_nil, before_append_of_mem hlow]
    have hne : s'.high ≠ [] := by
      rw [hhigh']
      exact List.ne_nil_of_mem (List.mem_append_left _ hlow)
    rw [rank, rank, hahead, hahead', if_neg hne]
    refine ⟨?_, fun e he => List.mem_append_right _ he⟩
    rw [List.length_append]
    split_ifs with hnil
    · omega
    · have := List.length_pos_iff.mpr hnil
      omega

theorem blocked_step (hbot : ∀ k, bot ≤ k) (hx : (k, v) ∈ s.index.entries)
    (hblocked : ∃ e ∈ s.ahead k, due e.2 = false) :
    (k, v) ∈ (s.step bot 1 due).index.entries ∧ ∃ e ∈ (s.step bot 1 due).ahead k, due e.2 = false := by
  have hmem := s.mem_order.mpr hx
  have hturn := turn_step hbot Nat.one_pos s due
  obtain ⟨e, he, halive⟩ := hblocked
  rw [← mem_order]
  generalize s.step bot 1 due = s' at hturn ⊢
  cases hturn with
  | @full init rest last hhigh hlen hhigh' hlow' =>
    obtain rfl : init = [] := List.length_eq_zero_iff.mp (by omega)
    have hlast : last.1 ≠ k := fun heq => by
      rw [ahead, order, hhigh, List.nil_append, List.cons_append, before,
        List.takeWhile_cons_of_neg (by simpa using heq)] at he
      cases he
    have hpage : ∀ e ∈ [] ++ [last], e.1 ≠ k := fun e he => List.mem_singleton.mp he ▸ hlast
    have hrest := mem_behind_page hhigh hpage hmem
    rw [ahead_of_full hhigh hpage] at he
    rw [ahead_step_of_full hhigh' hlow' hlast hrest]
    refine ⟨?_, e, ?_, halive⟩
    · rw [order, hhigh', hlow']
      exact List.mem_append.mpr ((List.mem_append.mp hrest).imp (List.mem_append_right _) (List.mem_append_left _))
    · refine List.mem_append.mpr ((List.mem_append.mp he).imp_left fun hpage => ?_)
      exact mem_alive.mpr ⟨hpage, halive⟩
  | short hlen hhigh' hlow' =>
    have hnil : s.high = [] := List.length_eq_zero_iff.mp (by omega)
    unfold ahead order at *
    rw [hhigh', hlow', hnil]
    rw [hnil] at hmem he
    simp only [alive, List.filter_nil, List.append_nil, List.nil_append] at hmem he ⊢
    exact ⟨hmem, e, he, halive⟩

end Ahead

/-! ### All pages -/

theorem mem_of_mem_exec {deads : List (V → Bool)}
    (h : e ∈ (Run.exec (step bot size) s deads).index.entries) : e ∈ s.index.entries := by
  induction deads generalizing s with
  | nil => exact h
  | cons dead deads ih => exact mem_of_mem_step (ih h)

theorem not_mem_exec (hbot : ∀ k, bot ≤ k) (hsize : 0 < size) {k : K} {v : V} {deads : List (V → Bool)}
    (hdue : due v = true) (hdeads : ∀ dead ∈ deads, ∀ v, due v = true → dead v = true)
    (hgoes : 2 ≤ size ∨ ∀ e ∈ s.ahead k, due e.2 = true) (hrank : s.rank k < deads.length) :
    (k, v) ∉ (Run.exec (step bot size) s deads).index.entries := by
  induction deads generalizing s with
  | nil => exact absurd hrank (Nat.not_lt_zero _)
  | cons dead deads ih =>
    have hdead := hdeads dead (List.mem_cons_self ..)
    by_cases hx' : (k, v) ∈ (s.step bot size dead).index.entries
    · obtain ⟨hlt, hsub⟩ := rank_step hbot hsize (mem_of_mem_step hx') (hdead v hdue) hx'
        (hgoes.imp_right fun hall e he => hdead e.2 (hall e he))
      refine ih (fun d hd => hdeads d (List.mem_cons_of_mem _ hd))
        (hgoes.imp_right fun hall e he => hall e (hsub e he)) ?_
      rw [List.length_cons] at hrank
      omega
    · exact fun hmem => hx' (mem_of_mem_exec hmem)

theorem mem_exec_of_blocked (hbot : ∀ k, bot ≤ k) {k : K} {v : V} (hx : (k, v) ∈ s.index.entries)
    (hblocked : ∃ e ∈ s.ahead k, due e.2 = false) (n : Nat) :
    (k, v) ∈ (Run.exec (step bot 1) s (List.replicate n due)).index.entries := by
  induction n generalizing s with
  | zero => exact hx
  | succ n ih =>
    obtain ⟨hx', hblocked'⟩ := blocked_step hbot hx hblocked
    exact ih hx' hblocked'

theorem rank_le (s : Sweep K V) (k : K) : s.rank k ≤ 2 * s.index.entries.length + 1 := by
  have hahead : (s.ahead k).length ≤ s.index.entries.length := by
    rw [← low_append_high, List.length_append, Nat.add_comm, ← List.length_append]
    exact (List.takeWhile_sublist _).length_le
  unfold rank
  split_ifs <;> omega

theorem takes_out_iff {T : Type*} (hbot : ∀ k, bot ≤ k) (hsize : 0 < size) (s : Sweep K V)
    (dead : T → V → Bool) (t : T) :
    (∃ n, ∀ times : List T, n ≤ times.length → (∀ now ∈ times, ∀ v, dead t v = true → dead now v = true) →
          ∀ e ∈ s.index.entries, dead t e.2 = true →
            e ∉ (Run.exec (step bot size) s (times.map dead)).index.entries) ↔
      2 ≤ size ∨ s.Clear (dead t) := by
  constructor
  · rintro ⟨n, hn⟩
    by_contra hnot
    rw [not_or] at hnot
    obtain rfl : size = 1 := by omega
    refine hnot.2 fun x hx hdue e he => ?_
    by_contra halive
    have hstays := mem_exec_of_blocked hbot hx ⟨e, he, Bool.not_eq_true _ ▸ halive⟩ n
    refine hn (List.replicate n t) (by simp) ?_ x hx hdue (by rwa [List.map_replicate])
    intro now hnow v hv
    rwa [List.eq_of_mem_replicate hnow]
  · intro hgoes
    refine ⟨2 * s.index.entries.length + 2, fun times hlen htimes x hx hdue => ?_⟩
    refine not_mem_exec hbot hsize hdue ?_ (hgoes.imp_right fun hclear => hclear x hx hdue) ?_
    · intro d hd
      obtain ⟨now, hnow, rfl⟩ := List.mem_map.mp hd
      exact htimes now hnow
    · have := s.rank_le x.1
      rw [List.length_map]
      omega

end Sweep
