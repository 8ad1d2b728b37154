/-
Runs of a step function that may trap.

`step s a = none` is the program crashing, and a crash ends the run: `run` is
`none` as soon as one step is. The rules below are the induction principles the
development uses. They are stated once here, so that a theorem about every run
of the application is a theorem about one step.
-/
import Mathlib.Data.List.Basic
import Mathlib.Data.List.Infix

set_option autoImplicit false

namespace TerpBuilder

section Run

variable {σ α : Type*} (step : σ → α → Option σ)

/-- The state reached from `s` by `ops`, unless a step traps. -/
def run (s : σ) (ops : List α) : Option σ := ops.foldlM step s

@[simp] theorem run_nil (s : σ) : run step s [] = some s := rfl

@[simp] theorem run_cons (s : σ) (a : α) (ops : List α) :
    run step s (a :: ops) = (step s a).bind fun s' => run step s' ops := rfl

theorem run_append (s : σ) (ops ops' : List α) :
    run step s (ops ++ ops') = (run step s ops).bind fun s' => run step s' ops' := by
  simp only [run, List.foldlM_append]
  rfl

theorem run_concat (s : σ) (ops : List α) (a : α) :
    run step s (ops ++ [a]) = (run step s ops).bind fun s' => step s' a := by
  rw [run_append]
  congr 1
  funext s'
  rw [run_cons]
  cases step s' a <;> rfl

/-- The last step of a run that does not trap. -/
theorem run_concat_eq_some {s s'' : σ} {ops : List α} {a : α}
    (h : run step s (ops ++ [a]) = some s'') :
    ∃ s', run step s ops = some s' ∧ step s' a = some s'' := by
  rw [run_concat] at h
  exact Option.bind_eq_some_iff.mp h

/-- `P` in every state a run passes through, the first and the last one
included. -/
def Throughout (P : σ → Prop) (s : σ) (ops : List α) : Prop :=
  ∀ pre, pre <+: ops → ∃ s', run step s pre = some s' ∧ P s'

/-- `Q` at every step of a run: of the state the step starts from and its
operation. -/
def EachStep (Q : σ → α → Prop) (s : σ) (ops : List α) : Prop :=
  ∀ pre a, pre ++ [a] <+: ops → ∀ s', run step s pre = some s' → Q s' a

theorem eachStep_nil (Q : σ → α → Prop) (s : σ) : EachStep step Q s [] := by
  intro pre a hpre
  simp at hpre

/-- The first step, and the run after it. -/
theorem eachStep_cons_iff {Q : σ → α → Prop} {s : σ} {a : α} {ops : List α} :
    EachStep step Q s (a :: ops) ↔ Q s a ∧ ∀ s', step s a = some s' → EachStep step Q s' ops := by
  constructor
  · intro h
    refine ⟨h [] a ⟨ops, rfl⟩ s rfl, fun s' hs' pre b hpre s'' hrun => ?_⟩
    refine h (a :: pre) b ?_ s'' (by rw [run_cons, hs', Option.bind_some, hrun])
    rw [List.cons_append]
    exact (List.prefix_cons_inj a).mpr hpre
  · rintro ⟨hfirst, hrest⟩ pre b hpre s'' hrun
    rcases pre with _ | ⟨c, pre⟩
    · rw [List.nil_append, List.cons_prefix_cons] at hpre
      obtain ⟨rfl, -⟩ := hpre
      obtain rfl := Option.some.inj hrun
      exact hfirst
    · rw [List.cons_append, List.cons_prefix_cons] at hpre
      obtain ⟨rfl, hpre⟩ := hpre
      rw [run_cons] at hrun
      obtain ⟨s', hs', hrun⟩ := Option.bind_eq_some_iff.mp hrun
      exact hrest s' hs' pre b hpre s'' hrun

theorem eachStep_singleton {Q : σ → α → Prop} {s : σ} {a : α} (h : Q s a) : EachStep step Q s [a] :=
  (eachStep_cons_iff step).mpr ⟨h, fun s' _ => eachStep_nil step Q s'⟩

/-- **History rule.** A property of the state and of the operations that led to
it, kept by every further operation of the run when it meets `Q`. -/
theorem run_history {step : σ → α → Option σ} (P : List α → σ → Prop) (Q : σ → α → Prop) {s s' : σ}
    {ops : List α} (hstep : ∀ pre a s₁ s₂, P pre s₁ → Q s₁ a → a ∈ ops → step s₁ a = some s₂ →
      P (pre ++ [a]) s₂)
    (hs : P [] s) (hQ : EachStep step Q s ops) (hrun : run step s ops = some s') : P ops s' := by
  -- from the right: the last step extends the history of a shorter run
  induction ops using List.reverseRecOn generalizing s' with
  | nil =>
      rw [run_nil, Option.some.injEq] at hrun
      exact hrun ▸ hs
  | append_singleton ops a ih =>
      obtain ⟨s₁, h₁, h₂⟩ := run_concat_eq_some step hrun
      have hP : P ops s₁ := ih (fun pre b s₂ s₃ hp hq hb => hstep pre b s₂ s₃ hp hq (by simp [hb]))
        (fun pre b hpre => hQ pre b (hpre.trans (List.prefix_append ops [a]))) h₁
      exact hstep ops a s₁ s' hP (hQ ops a (List.prefix_refl _) s₁ h₁) (by simp) h₂

/-- **Conditional invariant rule.** A step keeps `P` when it meets `Q`, and every
step of the run does. -/
theorem run_invariant_of_eachStep {step : σ → α → Option σ} (P : σ → Prop) (Q : σ → α → Prop)
    {s s' : σ} {ops : List α}
    (hstep : ∀ s₁ a s₂, P s₁ → Q s₁ a → a ∈ ops → step s₁ a = some s₂ → P s₂) (hs : P s)
    (hQ : EachStep step Q s ops) (hrun : run step s ops = some s') : P s' :=
  run_history (fun _ => P) Q (fun _ a s₁ s₂ => hstep s₁ a s₂) hs hQ hrun

/-- **Invariant rule.** What the first state satisfies and every step keeps,
the reached state satisfies. A step may use that its operation occurs in the
run. -/
theorem run_invariant {step : σ → α → Option σ} (P : σ → Prop) {s s' : σ} {ops : List α}
    (hstep : ∀ s₁ a s₂, P s₁ → a ∈ ops → step s₁ a = some s₂ → P s₂) (hs : P s)
    (hrun : run step s ops = some s') : P s' :=
  run_invariant_of_eachStep P (fun _ _ => True) (fun s₁ a s₂ hp _ => hstep s₁ a s₂ hp) hs
    (fun _ _ _ _ _ => trivial) hrun

/-- **Totality rule.** If an invariant rules the trap out at every step, the
run does not trap, and the invariant holds where it ends. -/
theorem run_total {step : σ → α → Option σ} (P : σ → Prop) {s : σ} {ops : List α}
    (hstep : ∀ s₁ a, P s₁ → a ∈ ops → ∃ s₂, step s₁ a = some s₂ ∧ P s₂) (hs : P s) :
    ∃ s', run step s ops = some s' ∧ P s' := by
  induction ops generalizing s with
  | nil => exact ⟨s, rfl, hs⟩
  | cons a ops ih =>
      obtain ⟨s₁, h₁, hp₁⟩ := hstep s a hs (by simp)
      obtain ⟨s', h', hp'⟩ := ih (fun s₂ b hp hb => hstep s₂ b hp (by simp [hb])) hp₁
      exact ⟨s', by rw [run_cons, h₁, Option.bind_some, h'], hp'⟩

/-- **Simulation rule.** If `f` carries each step of one machine to a step of
another, and a trap to a trap, it carries runs to runs. -/
theorem run_map {τ : Type*} {step : σ → α → Option σ} {step' : τ → α → Option τ} (f : σ → τ)
    (hstep : ∀ s a, step' (f s) a = (step s a).map f) (s : σ) (ops : List α) :
    run step' (f s) ops = (run step s ops).map f := by
  induction ops generalizing s with
  | nil => rfl
  | cons a ops ih =>
      rw [run_cons, run_cons, hstep]
      rcases step s a with _ | s₁
      · rfl
      · exact ih s₁

/-- **Exact-condition rule.** `B` is kept by every step, which never traps. If a
step from a state with `P` gives a state with `P` exactly when it meets `Q`,
then a run stays in `P` exactly when each of its steps meets `Q`. -/
theorem throughout_iff_eachStep {step : σ → α → Option σ} (B P : σ → Prop) (Q : σ → α → Prop)
    {s : σ} {ops : List α}
    (hstep : ∀ s₁ a, B s₁ → a ∈ ops → ∃ s₂, step s₁ a = some s₂ ∧ B s₂ ∧ (P s₁ → (P s₂ ↔ Q s₁ a)))
    (hB : B s) (hP : P s) :
    Throughout step P s ops ↔ EachStep step Q s ops := by
  -- `B` rules a trap out, so every prefix of the run ends in a state with `B`
  have hpre : ∀ pre, pre <+: ops → ∃ s', run step s pre = some s' ∧ B s' := by
    intro pre hpre
    refine run_total B (fun s₁ a hB₁ ha => ?_) hB
    obtain ⟨s₂, h₂, hB₂, -⟩ := hstep s₁ a hB₁ (hpre.subset ha)
    exact ⟨s₂, h₂, hB₂⟩
  constructor
  · -- the states before and after a step are both passed through
    intro h pre a hpa s₁ hrun
    have hsub : pre <+: ops := (List.prefix_append pre [a]).trans hpa
    obtain ⟨t₁, ht₁, hB₁⟩ := hpre pre hsub
    obtain ⟨u₁, hu₁, hP₁⟩ := h pre hsub
    obtain ⟨u₂, hu₂, hP₂⟩ := h (pre ++ [a]) hpa
    obtain rfl : t₁ = s₁ := Option.some.inj (ht₁.symm.trans hrun)
    obtain rfl : u₁ = t₁ := Option.some.inj (hu₁.symm.trans ht₁)
    obtain ⟨s₂, h₂, -, hiff⟩ := hstep u₁ a hB₁ (hpa.subset (by simp))
    rw [run_concat, ht₁, Option.bind_some, h₂, Option.some.injEq] at hu₂
    exact (hiff hP₁).mp (hu₂ ▸ hP₂)
  · -- on the length of the prefix: its last step starts in `P` and meets `Q`
    intro h pre
    induction pre using List.reverseRecOn with
    | nil => exact fun _ => ⟨s, rfl, hP⟩
    | append_singleton pre a ih =>
        intro hpa
        have hsub : pre <+: ops := (List.prefix_append pre [a]).trans hpa
        obtain ⟨s₁, h₁, hP₁⟩ := ih hsub
        obtain ⟨t₁, ht₁, hB₁⟩ := hpre pre hsub
        obtain rfl : t₁ = s₁ := Option.some.inj (ht₁.symm.trans h₁)
        obtain ⟨s₂, h₂, -, hiff⟩ := hstep t₁ a hB₁ (hpa.subset (by simp))
        refine ⟨s₂, ?_, (hiff hP₁).mpr (h pre a hpa t₁ h₁)⟩
        rw [run_concat, h₁, Option.bind_some, h₂]

/-- **Exchange rule.** In states with `B` a step that meets `G` meets `Q` exactly
when it meets `Q'`, and `B` is kept by the steps that meet `G` and `Q`. Then a run
whose steps meet `G` meets `Q` throughout exactly when it meets `Q'` throughout. -/
theorem eachStep_iff_of_invariant {step : σ → α → Option σ} (B : σ → Prop) (G Q Q' : σ → α → Prop)
    {s : σ} {ops : List α} (hiff : ∀ s₁ a, B s₁ → G s₁ a → (Q s₁ a ↔ Q' s₁ a))
    (hstep : ∀ s₁ a s₂, B s₁ → G s₁ a → Q s₁ a → step s₁ a = some s₂ → B s₂) (hB : B s)
    (hG : EachStep step G s ops) : EachStep step Q s ops ↔ EachStep step Q' s ops := by
  induction ops generalizing s with
  | nil => exact iff_of_true (eachStep_nil step Q s) (eachStep_nil step Q' s)
  | cons a ops ih =>
      rw [eachStep_cons_iff] at hG ⊢
      rw [eachStep_cons_iff, ← hiff s a hB hG.1]
      refine and_congr_right fun hQ => forall₂_congr fun s' hs' => ?_
      exact ih (hstep s a s' hB hG.1 hQ hs') (hG.2 s' hs')

end Run

end TerpBuilder
