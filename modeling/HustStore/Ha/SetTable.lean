import HustStore.Base
import HustStore.Lib.Decimal
import HustStore.Lib.Run
import Mathlib.Data.List.Nodup
import Mathlib.Data.List.Range

/-!
# The identifiers of `set_table`

Who wants to overwrite the hash table asks for an identifier first and posts the table with it. The identifiers
live in a fixed pool of items in shared memory, each in one of two queues.
-/

namespace HustStore.Ha

/-! ### Shared memory -/

structure Identifier where
  exptime : Nat
  id : Bytes
  number : Nat
  deriving DecidableEq, Repr

structure Match where
  item : Nat
  number : Nat
  deriving DecidableEq, Repr

structure Shctx where
  items : Nat → Identifier
  cache : List Nat
  free : List Nat
  matched : List Match
  clock : Nat
  generated : Nat
  expiry : Nat → Nat
  attempts : List (Nat × Nat)
  revoked : List Nat

inductive Generated where
  | ok (id : Bytes)
  | conflict
  | notFound
  | notAllowed
  deriving DecidableEq, Repr

namespace Shctx

def init (size : Nat) : Shctx where
  items _ := ⟨0, [], 0⟩
  cache := []
  free := (List.range size).reverse
  matched := []
  clock := 0
  generated := 0
  expiry _ := 0
  attempts := []
  revoked := []

def freeIdentifier (s : Shctx) (i : Nat) : Shctx :=
  { s with cache := s.cache.erase i, free := i :: s.free.erase i }

def release (s : Shctx) (i : Nat) : Shctx :=
  { s with items := assign s.items i { s.items i with exptime := 0 } }.freeIdentifier i

def matchId (s : Shctx) (id : Bytes) : Option Nat := s.cache.find? fun i => (s.items i).id = id

def refreshExpired (s : Shctx) (now : Nat) : Shctx :=
  match s.cache.find? fun i => (s.items i).exptime < now ∧ 0 < (s.items i).exptime with
  | none => s
  | some i => s.release i

def genIdentifier (time : Nat) : Bytes := Decimal.digits 20 time

def fill (s : Shctx) (i : Nat) (id : Bytes) (exptime : Nat) : Shctx :=
  { s with
    items := assign s.items i ⟨exptime, id, s.generated⟩
    generated := s.generated + 1
    expiry := assign s.expiry s.generated exptime }

def generateIdentifier (s : Shctx) (timeout now time : Nat) (encrypts : Bool) : Generated × Shctx :=
  let s := s.refreshExpired now
  let id := genIdentifier time
  if (s.matchId id).isSome then (.conflict, s)
  else
    match s.free with
    | [] => (.notFound, s)
    | i :: rest =>
      let s := { s with cache := i :: s.cache, free := rest }
      if encrypts then (.ok id, s.fill i id (now + timeout)) else (.notAllowed, s.freeIdentifier i)

def matchPost (s : Shctx) (key : Bytes) : Shctx :=
  match s.matchId key with
  | none => s
  | some i => { s with matched := ⟨i, (s.items i).number⟩ :: s.matched }

def consumePost (s : Shctx) (m : Match) : Shctx :=
  if m ∈ s.matched then
    { s.release m.item with
      matched := s.matched.erase m
      attempts := (m.number, s.clock) :: s.attempts
      revoked :=
        if m.item ∈ s.cache ∧ (s.items m.item).number ≠ m.number then
          (s.items m.item).number :: s.revoked
        else s.revoked }
  else s

inductive Section where
  | pass (time : Nat)
  | generate (behind time : Nat) (encrypts : Bool)
  | first (key : Bytes)
  | second (post : Match)

def step (timeout : Nat) (s : Shctx) : Section → Shctx
  | .pass time => { s with clock := s.clock + time }
  | .generate behind time encrypts =>
    (s.generateIdentifier timeout (s.clock - behind) time encrypts).2
  | .first key => s.matchPost key
  | .second post => s.consumePost post

/-! ### The queues -/

variable {s : Shctx} {size i : Nat}

/-- What holds between any two sections: the queues share the pool, the items of the cache hold different
identifiers with their expiry times, and an identifier that is not in the cache has gone for a reason. -/
structure Inv (size : Nat) (s : Shctx) : Prop where
  perm : (s.cache ++ s.free).Perm (List.range size)
  number_lt : ∀ i ∈ s.cache, (s.items i).number < s.generated
  number_inj : ∀ i ∈ s.cache, ∀ j ∈ s.cache, (s.items i).number = (s.items j).number → i = j
  exptime_eq : ∀ i ∈ s.cache, (s.items i).exptime = s.expiry (s.items i).number
  matched_lt : ∀ m ∈ s.matched, m.item < size ∧ m.number < s.generated
  matched_item : ∀ m ∈ s.matched, ∀ i ∈ s.cache, (s.items i).number = m.number → i = m.item
  attempts_lt : ∀ a ∈ s.attempts, a.1 < s.generated
  attempts_gone : ∀ a ∈ s.attempts, ∀ i ∈ s.cache, (s.items i).number ≠ a.1
  gone : ∀ g < s.generated, (∃ i ∈ s.cache, (s.items i).number = g) ∨ (∃ a ∈ s.attempts, a.1 = g) ∨
    s.expiry g < s.clock ∨ g ∈ s.revoked

theorem inv_init (size : Nat) : (init size).Inv size := by
  constructor
  case perm => exact List.reverse_perm _
  case gone =>
    intro g hg
    exact absurd hg (Nat.not_lt_zero g)
  all_goals
    intro x hx
    cases hx

theorem Inv.nodup (h : s.Inv size) : (s.cache ++ s.free).Nodup :=
  h.perm.nodup_iff.mpr List.nodup_range

theorem Inv.cache_nodup (h : s.Inv size) : s.cache.Nodup := h.nodup.of_append_left

theorem Inv.mem_iff (h : s.Inv size) : i ∈ s.cache ∨ i ∈ s.free ↔ i < size := by
  rw [← List.mem_append, h.perm.mem_iff, List.mem_range]

theorem Inv.perm_freeIdentifier (h : s.Inv size) (hi : i < size) :
    (s.cache.erase i ++ i :: s.free.erase i).Perm (List.range size) := by
  apply List.perm_middle.trans
  refine List.Perm.trans ?_ h.perm
  rcases h.mem_iff.mpr hi with hcache | hfree
  · have hnot : i ∉ s.free := fun hfree => List.disjoint_of_nodup_append h.nodup hcache hfree
    rw [List.erase_of_not_mem hnot]
    exact (List.perm_cons_erase hcache).symm.append_right s.free
  · have hnot : i ∉ s.cache := fun hcache => List.disjoint_of_nodup_append h.nodup hcache hfree
    rw [List.erase_of_not_mem hnot]
    exact List.perm_middle.symm.trans ((List.perm_cons_erase hfree).symm.append_left s.cache)

theorem Inv.of_mem_release (h : s.Inv size) {j : Nat} (hj : j ∈ (s.release i).cache) :
    j ≠ i ∧ j ∈ s.cache ∧ (s.release i).items j = s.items j := by
  obtain ⟨hne, hmem⟩ := h.cache_nodup.mem_erase_iff.mp hj
  exact ⟨hne, hmem, assign_of_ne hne _⟩

theorem mem_release {j : Nat} (hj : j ∈ s.cache) (hne : j ≠ i) :
    j ∈ (s.release i).cache ∧ (s.release i).items j = s.items j :=
  ⟨(List.mem_erase_of_ne hne).mpr hj, assign_of_ne hne _⟩

theorem Inv.release (h : s.Inv size) (hi : i < size) {matched : List Match}
    {attempts : List (Nat × Nat)} {revoked : List Nat}
    (hmatched : ∀ m ∈ matched, m ∈ s.matched)
    (hattempts : ∀ a ∈ attempts, a ∈ s.attempts ∨
      (a.1 < s.generated ∧ ∀ j ∈ s.cache, (s.items j).number = a.1 → j = i))
    (hkept : ∀ a ∈ s.attempts, a ∈ attempts) (hrevoked : ∀ g ∈ s.revoked, g ∈ revoked)
    (hreason : i ∈ s.cache → (∃ a ∈ attempts, a.1 = (s.items i).number) ∨
      s.expiry (s.items i).number < s.clock ∨ (s.items i).number ∈ revoked) :
    { s.release i with matched, attempts, revoked }.Inv size := by
  constructor
  · exact h.perm_freeIdentifier hi
  · intro j hj
    obtain ⟨-, hmem, heq⟩ := h.of_mem_release hj
    show ((s.release i).items j).number < _
    rw [heq]
    exact h.number_lt j hmem
  · intro j hj k hk hnumber
    obtain ⟨-, hmem, heq⟩ := h.of_mem_release hj
    obtain ⟨-, hmem', heq'⟩ := h.of_mem_release hk
    apply h.number_inj j hmem k hmem'
    rw [← heq, ← heq']
    exact hnumber
  · intro j hj
    obtain ⟨-, hmem, heq⟩ := h.of_mem_release hj
    show ((s.release i).items j).exptime = s.expiry ((s.release i).items j).number
    rw [heq]
    exact h.exptime_eq j hmem
  · exact fun m hm => h.matched_lt m (hmatched m hm)
  · intro m hm j hj hnumber
    obtain ⟨-, hmem, heq⟩ := h.of_mem_release hj
    apply h.matched_item m (hmatched m hm) j hmem
    rw [← heq]
    exact hnumber
  · intro a ha
    rcases hattempts a ha with hold | ⟨hlt, -⟩
    · exact h.attempts_lt a hold
    · exact hlt
  · intro a ha j hj hnumber
    obtain ⟨hne, hmem, heq⟩ := h.of_mem_release hj
    have hsame : (s.items j).number = a.1 := heq ▸ hnumber
    rcases hattempts a ha with hold | ⟨-, hitem⟩
    · exact h.attempts_gone a hold j hmem hsame
    · exact hne (hitem j hmem hsame)
  · intro g hg
    rcases h.gone g hg with ⟨j, hj, hnumber⟩ | ⟨a, ha, hag⟩ | hexpired | hgone
    · by_cases hji : j = i
      · subst hji hnumber
        exact .inr (hreason hj)
      · obtain ⟨hmem, heq⟩ := mem_release hj hji
        exact .inl ⟨j, hmem, (congrArg Identifier.number heq).trans hnumber⟩
    · exact .inr (.inl ⟨a, hkept a ha, hag⟩)
    · exact .inr (.inr (.inl hexpired))
    · exact .inr (.inr (.inr (hrevoked g hgone)))

/-! ### One section -/

theorem Inv.refreshExpired (h : s.Inv size) {now : Nat} (hnow : now ≤ s.clock) : (s.refreshExpired now).Inv size := by
  unfold Shctx.refreshExpired
  split
  · exact h
  next i hfind =>
    have hi : i ∈ s.cache := List.mem_of_find?_eq_some hfind
    have htest := List.find?_some hfind
    have hexpired : (s.items i).exptime < now := (of_decide_eq_true htest).1
    apply h.release (h.mem_iff.mp (.inl hi)) (fun _ hm => hm) (fun _ ha => .inl ha) (fun _ ha => ha) fun _ hg => hg
    intro _
    rw [h.exptime_eq i hi] at hexpired
    exact .inr (.inl (Nat.lt_of_lt_of_le hexpired hnow))

theorem Inv.fill (h : s.Inv size) {rest : List Nat} (hfree : s.free = i :: rest) (id : Bytes)
    (exptime : Nat) : ({ s with cache := i :: s.cache, free := rest }.fill i id exptime).Inv size := by
  have hnot : i ∉ s.cache := fun hcache =>
    List.disjoint_of_nodup_append h.nodup hcache (hfree ▸ List.mem_cons_self)
  let s' := { s with cache := i :: s.cache, free := rest }.fill i id exptime
  have hnew : s'.items i = ⟨exptime, id, s.generated⟩ := assign_self _
  have hold (j : Nat) (hj : j ∈ s.cache) : s'.items j = s.items j := by
    apply assign_of_ne
    rintro rfl
    exact hnot hj
  have hexpiry (g : Nat) (hg : g < s.generated) : s'.expiry g = s.expiry g :=
    assign_of_ne (Nat.ne_of_lt hg) _
  show s'.Inv size
  constructor
  · refine List.Perm.trans ?_ h.perm
    rw [hfree]
    exact List.perm_middle.symm
  · intro j hj
    rcases List.mem_cons.mp hj with rfl | hj
    · rw [hnew]
      exact Nat.lt_succ_self _
    · rw [hold j hj]
      exact Nat.lt_succ_of_lt (h.number_lt j hj)
  · intro j hj k hk hnumber
    rcases List.mem_cons.mp hj with hji | hjold <;> rcases List.mem_cons.mp hk with hki | hkold
    · rw [hji, hki]
    · rw [hji, hnew, hold k hkold] at hnumber
      exact absurd hnumber.symm (Nat.ne_of_lt (h.number_lt k hkold))
    · rw [hki, hnew, hold j hjold] at hnumber
      exact absurd hnumber (Nat.ne_of_lt (h.number_lt j hjold))
    · rw [hold j hjold, hold k hkold] at hnumber
      exact h.number_inj j hjold k hkold hnumber
  · intro j hj
    rcases List.mem_cons.mp hj with rfl | hj
    · rw [hnew]
      exact (assign_self _).symm
    · rw [hold j hj, hexpiry _ (h.number_lt j hj)]
      exact h.exptime_eq j hj
  · intro m hm
    obtain ⟨hitem, hnumber⟩ := h.matched_lt m hm
    exact ⟨hitem, Nat.lt_succ_of_lt hnumber⟩
  · intro m hm j hj hnumber
    rcases List.mem_cons.mp hj with rfl | hj
    · rw [hnew] at hnumber
      exact absurd hnumber.symm (Nat.ne_of_lt (h.matched_lt m hm).2)
    · rw [hold j hj] at hnumber
      exact h.matched_item m hm j hj hnumber
  · exact fun a ha => Nat.lt_succ_of_lt (h.attempts_lt a ha)
  · intro a ha j hj hnumber
    rcases List.mem_cons.mp hj with rfl | hj
    · rw [hnew] at hnumber
      exact absurd hnumber.symm (Nat.ne_of_lt (h.attempts_lt a ha))
    · rw [hold j hj] at hnumber
      exact h.attempts_gone a ha j hj hnumber
  · intro g hg
    rcases Nat.lt_succ_iff_lt_or_eq.mp hg with hlt | rfl
    · rw [hexpiry g hlt]
      rcases h.gone g hlt with ⟨j, hj, hnumber⟩ | hgone
      · exact .inl ⟨j, List.mem_cons_of_mem i hj, by rw [hold j hj]; exact hnumber⟩
      · exact .inr hgone
    · exact .inl ⟨i, List.mem_cons_self, by rw [hnew]⟩

theorem freeIdentifier_alloc {rest : List Nat} (hfree : s.free = i :: rest) (hnot : i ∉ rest) :
    { s with cache := i :: s.cache, free := rest }.freeIdentifier i = s := by
  cases s
  cases hfree
  simp only [freeIdentifier, List.erase_cons_head, List.erase_of_not_mem hnot]

theorem Inv.generateIdentifier (h : s.Inv size) (timeout : Nat) {now : Nat} (hnow : now ≤ s.clock)
    (time : Nat) (encrypts : Bool) : (s.generateIdentifier timeout now time encrypts).2.Inv size := by
  have hrefresh := h.refreshExpired hnow
  unfold Shctx.generateIdentifier
  dsimp only
  split
  · exact hrefresh
  split
  · exact hrefresh
  next i rest hfree =>
    split
    · exact hrefresh.fill hfree _ _
    · have hnodup : (i :: rest).Nodup := hfree ▸ hrefresh.nodup.of_append_right
      show (Shctx.freeIdentifier _ i).Inv size
      rw [freeIdentifier_alloc hfree (List.nodup_cons.mp hnodup).1]
      exact hrefresh

theorem Inv.matchPost (h : s.Inv size) (key : Bytes) : (s.matchPost key).Inv size := by
  unfold Shctx.matchPost
  split
  · exact h
  next i hfind =>
    have hi : i ∈ s.cache := List.mem_of_find?_eq_some hfind
    refine { h with matched_lt := ?_, matched_item := ?_ }
    · intro m hm
      rcases List.mem_cons.mp hm with rfl | hm
      · exact ⟨h.mem_iff.mp (.inl hi), h.number_lt i hi⟩
      · exact h.matched_lt m hm
    · intro m hm j hj hnumber
      rcases List.mem_cons.mp hm with rfl | hm
      · exact h.number_inj j hj i hi hnumber
      · exact h.matched_item m hm j hj hnumber

theorem Inv.consumePost (h : s.Inv size) (m : Match) : (s.consumePost m).Inv size := by
  unfold Shctx.consumePost
  split
  next hm =>
    obtain ⟨hitem, hnumber⟩ := h.matched_lt m hm
    apply h.release hitem
    · exact fun m' hm' => List.mem_of_mem_erase hm'
    · intro a ha
      rcases List.mem_cons.mp ha with rfl | ha
      · exact .inr ⟨hnumber, h.matched_item m hm⟩
      · exact .inl ha
    · exact fun a ha => List.mem_cons_of_mem _ ha
    · intro g hg
      split_ifs
      · exact List.mem_cons_of_mem _ hg
      · exact hg
    · intro hcache
      by_cases hsame : (s.items m.item).number = m.number
      · exact .inl ⟨_, List.mem_cons_self, hsame.symm⟩
      · rw [if_pos ⟨hcache, hsame⟩]
        exact .inr (.inr List.mem_cons_self)
  next => exact h

theorem Inv.step (h : s.Inv size) (timeout : Nat) (e : Section) : (s.step timeout e).Inv size := by
  cases e with
  | pass time =>
    refine { h with gone := ?_ }
    intro g hg
    have hlater : s.expiry g < s.clock → s.expiry g < s.clock + time := fun hlt => by omega
    exact (h.gone g hg).imp_right (Or.imp_right (Or.imp_left hlater))
  | generate behind time encrypts => exact h.generateIdentifier timeout (Nat.sub_le _ _) time encrypts
  | first key => exact h.matchPost key
  | second post => exact h.consumePost post

/-! ### Runs -/

structure Safe (s : Shctx) : Prop where
  single : (s.attempts.map Prod.fst).Nodup
  timely : ∀ a ∈ s.attempts, a.2 ≤ s.expiry a.1
  own : s.revoked = []

def Current (s : Shctx) : Section → Prop
  | .second m => m ∈ s.matched → m.item ∈ s.cache ∧ (s.items m.item).number = m.number ∧
      s.clock ≤ (s.items m.item).exptime
  | _ => True

instance : ∀ (s : Shctx) (e : Section), Decidable (s.Current e)
  | s, .second m => inferInstanceAs (Decidable (m ∈ s.matched → m.item ∈ s.cache ∧
      (s.items m.item).number = m.number ∧ s.clock ≤ (s.items m.item).exptime))
  | _, .pass _ => inferInstanceAs (Decidable True)
  | _, .generate .. => inferInstanceAs (Decidable True)
  | _, .first _ => inferInstanceAs (Decidable True)

/-- What the other sections leave as it was: the attempts, what was taken out for another identifier, and
the expiry times of the identifiers there are. -/
structure SameLedger (s s' : Shctx) : Prop where
  attempts : s'.attempts = s.attempts
  revoked : s'.revoked = s.revoked
  expiry : ∀ g < s.generated, s'.expiry g = s.expiry g

theorem sameLedger_generateIdentifier (s : Shctx) (timeout now time : Nat) (encrypts : Bool) :
    s.SameLedger (s.generateIdentifier timeout now time encrypts).2 := by
  have hrefresh : s.SameLedger (s.refreshExpired now) ∧ (s.refreshExpired now).generated = s.generated := by
    unfold refreshExpired
    split
    · exact ⟨⟨rfl, rfl, fun _ _ => rfl⟩, rfl⟩
    · exact ⟨⟨rfl, rfl, fun _ _ => rfl⟩, rfl⟩
  obtain ⟨hsame, hgenerated⟩ := hrefresh
  unfold generateIdentifier
  dsimp only
  split
  · exact hsame
  split
  · exact hsame
  split
  · refine ⟨hsame.attempts, hsame.revoked, ?_⟩
    intro g hg
    have hne : g ≠ (s.refreshExpired now).generated := by
      rw [hgenerated]
      exact Nat.ne_of_lt hg
    exact (assign_of_ne hne _).trans (hsame.expiry g hg)
  · exact ⟨hsame.attempts, hsame.revoked, hsame.expiry⟩

theorem sameLedger_matchPost (s : Shctx) (key : Bytes) : s.SameLedger (s.matchPost key) := by
  unfold matchPost
  split <;> exact ⟨rfl, rfl, fun _ _ => rfl⟩

theorem SameLedger.safe_iff {s' : Shctx} (hsame : s.SameLedger s') (h : s.Inv size) :
    s'.Safe ↔ s.Safe := by
  have htimely : (∀ a ∈ s'.attempts, a.2 ≤ s'.expiry a.1) ↔ ∀ a ∈ s.attempts, a.2 ≤ s.expiry a.1 := by
    rw [hsame.attempts]
    apply forall₂_congr
    intro a ha
    rw [hsame.expiry _ (h.attempts_lt a ha)]
  constructor
  · intro hsafe
    exact ⟨hsame.attempts ▸ hsafe.single, htimely.mp hsafe.timely, hsame.revoked ▸ hsafe.own⟩
  · intro hsafe
    exact ⟨hsame.attempts ▸ hsafe.single, htimely.mpr hsafe.timely, hsame.revoked ▸ hsafe.own⟩

theorem Inv.gone_of_matched (h : s.Inv size) {m : Match} (hm : m ∈ s.matched)
    (hout : ¬(m.item ∈ s.cache ∧ (s.items m.item).number = m.number)) :
    (∃ a ∈ s.attempts, a.1 = m.number) ∨ s.expiry m.number < s.clock ∨ m.number ∈ s.revoked := by
  refine (h.gone m.number (h.matched_lt m hm).2).resolve_left ?_
  rintro ⟨i, hi, hnumber⟩
  have hitem := h.matched_item m hm i hi hnumber
  subst hitem
  exact hout ⟨hi, hnumber⟩

theorem Safe.consumePost_iff (h : s.Inv size) (hsafe : s.Safe) {m : Match} (hm : m ∈ s.matched) :
    (s.consumePost m).Safe ↔ m.item ∈ s.cache ∧ (s.items m.item).number = m.number ∧
      s.clock ≤ (s.items m.item).exptime := by
  unfold consumePost
  rw [if_pos hm]
  constructor
  · intro hafter
    have hfirst : ∀ a ∈ s.attempts, a.1 ≠ m.number := by
      intro a ha heq
      exact (List.nodup_cons.mp hafter.single).1 (List.mem_map.mpr ⟨a, ha, heq⟩)
    have htimely : s.clock ≤ s.expiry m.number := hafter.timely _ List.mem_cons_self
    have hin : m.item ∈ s.cache ∧ (s.items m.item).number = m.number := by
      by_contra hout
      rcases h.gone_of_matched hm hout with ⟨a, ha, heq⟩ | hexpired | hrevoked
      · exact hfirst a ha heq
      · omega
      · rw [hsafe.own] at hrevoked
        cases hrevoked
    refine ⟨hin.1, hin.2, ?_⟩
    rw [h.exptime_eq _ hin.1, hin.2]
    exact htimely
  · rintro ⟨hcache, hnumber, hclock⟩
    rw [h.exptime_eq _ hcache, hnumber] at hclock
    refine ⟨List.nodup_cons.mpr ⟨?_, hsafe.single⟩, List.forall_mem_cons.mpr ⟨hclock, hsafe.timely⟩, ?_⟩
    · intro hmem
      obtain ⟨a, ha, heq⟩ := List.mem_map.mp hmem
      exact h.attempts_gone a ha _ hcache (hnumber.trans heq.symm)
    · show (if m.item ∈ s.cache ∧ (s.items m.item).number ≠ m.number then _ else s.revoked) = []
      rw [if_neg fun hother => hother.2 hnumber]
      exact hsafe.own

theorem Safe.step_iff (h : s.Inv size) (hsafe : s.Safe) (timeout : Nat) (e : Section) :
    (s.step timeout e).Safe ↔ s.Current e := by
  cases e with
  | pass time => exact iff_of_true ⟨hsafe.single, hsafe.timely, hsafe.own⟩ trivial
  | generate behind time encrypts =>
    exact iff_of_true (((sameLedger_generateIdentifier s ..).safe_iff h).mpr hsafe) trivial
  | first key => exact iff_of_true (((sameLedger_matchPost s key).safe_iff h).mpr hsafe) trivial
  | second m =>
    by_cases hm : m ∈ s.matched
    · exact (Safe.consumePost_iff h hsafe hm).trans ⟨fun hcurrent _ => hcurrent, fun hcurrent => hcurrent hm⟩
    · have hsame : s.consumePost m = s := if_neg hm
      show (s.consumePost m).Safe ↔ _
      rw [hsame]
      exact iff_of_true hsafe fun hin => absurd hin hm

theorem safe_init (size : Nat) : (init size).Safe :=
  ⟨List.nodup_nil, fun _ ha => absurd ha List.not_mem_nil, rfl⟩

/-- The queues partition the pool in every run. In a run in which every post finds its identifier as it was
and not expired, each identifier authorises at most one attempt, in time, and is taken out only for itself;
and the first post that finds it otherwise breaks this. -/
theorem identifiers_single_use_iff (size timeout : Nat) (sections : List Section) :
    let s := Run.exec (step timeout) (init size) sections
    (s.cache ++ s.free).Perm (List.range size) ∧ (Run.Guarded (step timeout) Current (init size) sections →
        s.Safe ∧ ∀ e, (s.step timeout e).Safe ↔ s.Current e) := by
  have hinv : (Run.exec (step timeout) (init size) sections).Inv size := by
    have hall : Run.Guarded (step timeout) (fun _ _ => True) (init size) sections :=
      Run.guarded_of_forall fun _ _ => trivial
    exact hall.invariant (fun _ e h _ => h.step timeout e) (inv_init size)
  refine ⟨hinv.perm, fun hguarded => ?_⟩
  have hsafe : (Run.exec (step timeout) (init size) sections).Inv size ∧
      (Run.exec (step timeout) (init size) sections).Safe := by
    apply hguarded.invariant (P := fun s => s.Inv size ∧ s.Safe)
    · intro s e hs hcurrent
      exact ⟨hs.1.step timeout e, (hs.2.step_iff hs.1 timeout e).mpr hcurrent⟩
    · exact ⟨inv_init size, safe_init size⟩
  exact ⟨hsafe.2, hsafe.2.step_iff hsafe.1 timeout⟩

def useOnce : List Section :=
  [.pass 7, .generate 0 5 true, .first (genIdentifier 5), .second ⟨0, 0⟩]

theorem identifiers_single_use_once : Run.Guarded (step 10) Current (init 1) useOnce ∧
      (Run.exec (step 10) (init 1) useOnce).attempts = [(0, 7)] ∧
      (Run.exec (step 10) (init 1) useOnce).Safe :=
  have hguarded : Run.Guarded (step 10) Current (init 1) useOnce := by decide +kernel
  ⟨hguarded, by decide +kernel, ((identifiers_single_use_iff 1 10 useOnce).2 hguarded).1⟩

def useTwice : List Section :=
  [.pass 7, .generate 0 5 true, .first (genIdentifier 5), .first (genIdentifier 5), .second ⟨0, 0⟩,
    .generate 0 6 true, .second ⟨0, 0⟩]

def useLate : List Section :=
  [.pass 7, .generate 0 5 true, .pass 20, .first (genIdentifier 5), .second ⟨0, 0⟩]

theorem identifier_used_twice_and_late : (Run.exec (step 10) (init 1) useTwice).attempts = [(0, 7), (0, 7)] ∧
      (Run.exec (step 10) (init 1) useTwice).revoked = [1] ∧
      (Run.exec (step 10) (init 1) useLate).attempts = [(0, 27)] ∧
      (Run.exec (step 10) (init 1) useLate).expiry 0 = 17 := by decide +kernel

end Shctx
end HustStore.Ha
