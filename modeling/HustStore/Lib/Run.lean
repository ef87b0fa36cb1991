import Mathlib.Data.List.Basic

/-!
# Guarded runs

A state machine takes a list of actions from a state. A run is guarded when every action meets a condition in
the state in which it is taken.
-/

namespace Run

variable {σ τ α : Type*}

def exec (step : σ → α → σ) (s : σ) (actions : List α) : σ := actions.foldl step s

def Guarded (step : σ → α → σ) (guard : σ → α → Prop) : σ → List α → Prop
  | _, [] => True
  | s, a :: rest => guard s a ∧ Guarded step guard (step s a) rest

variable {step : σ → α → σ} {guard : σ → α → Prop} {s : σ} {a : α} {actions : List α}

@[simp] theorem exec_nil : exec step s [] = s := rfl

@[simp] theorem exec_cons : exec step s (a :: actions) = exec step (step s a) actions := rfl

theorem exec_append (rest : List α) :
    exec step s (actions ++ rest) = exec step (exec step s actions) rest := List.foldl_append

theorem guarded_append (rest : List α) : Guarded step guard s (actions ++ rest) ↔
      Guarded step guard s actions ∧ Guarded step guard (exec step s actions) rest := by
  induction actions generalizing s with
  | nil => simp [Guarded]
  | cons a actions ih => simp only [List.cons_append, Guarded, exec_cons, ih, and_assoc]

theorem Guarded.invariant {P : σ → Prop} (h : Guarded step guard s actions)
    (hstep : ∀ s a, P s → guard s a → P (step s a)) (hinit : P s) : P (exec step s actions) := by
  induction actions generalizing s with
  | nil => exact hinit
  | cons a actions ih => exact ih h.2 (hstep s a hinit h.1)

theorem guarded_iff_lockstep (step' : τ → α → τ) {R P : σ → τ → Prop} {t : τ}
    (hrelated : ∀ s t a, R s t → P s t → R (step s a) (step' t a))
    (hstep : ∀ s t a, R s t → P s t → (guard s a ↔ P (step s a) (step' t a))) (hinit : R s t) (hP : P s t) :
    Guarded step guard s actions ↔ ∀ taken, taken <+: actions → P (exec step s taken) (exec step' t taken) := by
  induction actions generalizing s t with
  | nil => simp [Guarded, hP]
  | cons a actions ih =>
    have hnext := hrelated s t a hinit hP
    constructor
    · rintro ⟨ha, hrest⟩ taken htaken
      cases taken with
      | nil => exact hP
      | cons b taken =>
        obtain ⟨rfl, htail⟩ := List.cons_prefix_cons.mp htaken
        exact (ih hnext ((hstep s t b hinit hP).mp ha)).mp hrest taken htail
    · intro hall
      have hholds : P (step s a) (step' t a) := hall [a] (by simp)
      refine ⟨(hstep s t a hinit hP).mpr hholds, (ih hnext hholds).mpr fun taken htaken => ?_⟩
      exact hall (a :: taken) (List.cons_prefix_cons.mpr ⟨rfl, htaken⟩)

theorem guarded_iff_prefixes {P : σ → Prop} (hstep : ∀ s a, P s → (guard s a ↔ P (step s a))) (hinit : P s) :
    Guarded step guard s actions ↔ ∀ taken, taken <+: actions → P (exec step s taken) :=
  guarded_iff_lockstep (fun (_ : Unit) _ => ()) (R := fun _ _ => True) (P := fun s _ => P s)
    (t := ()) (fun _ _ _ _ _ => trivial) (fun s _ a _ => hstep s a) trivial hinit

theorem guarded_of_forall {p : α → Prop} (hp : ∀ a ∈ actions, p a) : Guarded step (fun _ a => p a) s actions := by
  induction actions generalizing s with
  | nil => trivial
  | cons a actions ih => exact ⟨hp a (by simp), ih fun b hb => hp b (List.mem_cons_of_mem _ hb)⟩

theorem Guarded.and_forall {p : α → Prop} (h : Guarded step guard s actions)
    (hp : ∀ a ∈ actions, p a) : Guarded step (fun s a => p a ∧ guard s a) s actions := by
  induction actions generalizing s with
  | nil => trivial
  | cons a actions ih =>
    exact ⟨⟨hp a (by simp), h.1⟩, ih h.2 fun b hb => hp b (List.mem_cons_of_mem _ hb)⟩

variable {guard' : σ → α → Prop}

theorem Guarded.mono (h : Guarded step guard s actions)
    (himp : ∀ s a, guard s a → guard' s a) : Guarded step guard' s actions := by
  induction actions generalizing s with
  | nil => trivial
  | cons a actions ih => exact ⟨himp s a h.1, ih h.2⟩

theorem guarded_congr {P : σ → Prop} (hstep : ∀ s a, P s → P (step s a))
    (hiff : ∀ s a, P s → (guard s a ↔ guard' s a)) (hinit : P s) :
    Guarded step guard s actions ↔ Guarded step guard' s actions := by
  induction actions generalizing s with
  | nil => exact Iff.rfl
  | cons a actions ih => exact and_congr (hiff s a hinit) (ih (hstep s a hinit))

theorem Guarded.and (h : Guarded step guard s actions) (h' : Guarded step guard' s actions) :
    Guarded step (fun s a => guard s a ∧ guard' s a) s actions := by
  induction actions generalizing s with
  | nil => trivial
  | cons a actions ih => exact ⟨⟨h.1, h'.1⟩, ih h.2 h'.2⟩

theorem guarded_of_imp {p : Prop} (h : p → Guarded step guard s actions) :
    Guarded step (fun s a => p → guard s a) s actions := by
  induction actions generalizing s with
  | nil => trivial
  | cons a actions ih => exact ⟨fun hp => (h hp).1, ih fun hp => (h hp).2⟩

instance decidableGuarded [∀ s a, Decidable (guard s a)] : ∀ s actions, Decidable (Guarded step guard s actions)
  | _, [] => .isTrue trivial
  | s, a :: rest =>
    have := decidableGuarded (step s a) rest
    inferInstanceAs (Decidable (guard s a ∧ Guarded step guard (step s a) rest))

theorem exec_simulates {step' : τ → α → τ} {f : τ → σ} (hf : ∀ t a, f (step' t a) = step (f t) a)
    (t : τ) (actions : List α) : f (exec step' t actions) = exec step (f t) actions := by
  induction actions generalizing t with
  | nil => rfl
  | cons a actions ih => rw [exec_cons, exec_cons, ih, hf]

theorem Guarded.lift {step' : τ → α → τ} {f : τ → σ} (hf : ∀ t a, f (step' t a) = step (f t) a)
    {t : τ} (h : Guarded step guard (f t) actions) :
    Guarded step' (fun t a => guard (f t) a) t actions := by
  induction actions generalizing t with
  | nil => trivial
  | cons a actions ih => exact ⟨h.1, ih (by rw [hf]; exact h.2)⟩

end Run
