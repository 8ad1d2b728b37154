/-
Computations that may trap, as values of `Option`: the short-circuit operators
and the loops with an early return.

`x <&&> y` is `some false` without `y` being looked at when `x` is, so a trap in
`y` is not reached; `allM` and `findSomeM?` stop in the same way. The rules here
compute them, mostly in the case that nothing traps.
-/
import Mathlib.Data.List.Basic

set_option autoImplicit false

namespace TerpBuilder

/-! ## `&&` and `||` -/

@[simp] theorem some_andM (a : Bool) (y : Option Bool) :
    (some a <&&> y) = if a then y else some false := by
  cases a <;> rfl

@[simp] theorem none_andM (y : Option Bool) : (none <&&> y) = none := rfl

@[simp] theorem none_orM (y : Option Bool) : (none <||> y) = none := rfl

theorem some_andM_some (a b : Bool) : (some a <&&> some b) = some (a && b) := by
  cases a <;> rfl

theorem some_orM_some (a b : Bool) : (some a <||> some b) = some (a || b) := by
  cases a <;> rfl

theorem map_not_eq_some_iff {v : Option Bool} {b : Bool} : v.map not = some b ↔ v = some (not b) := by
  rcases v with _ | _ | _ <;> cases b <;> simp

/-! ## The first element that stops an evaluation -/

section Until

variable {α : Type*} {P Q : α → Prop}

/-- Some element of the list has `Q`, and every one before it has `P`. -/
def Until (P Q : α → Prop) (l : List α) : Prop :=
  ∃ pre a post, l = pre ++ a :: post ∧ (∀ b ∈ pre, P b) ∧ Q a

theorem Until.exists {l : List α} (h : Until P Q l) : ∃ a ∈ l, Q a := by
  obtain ⟨pre, a, post, rfl, -, ha⟩ := h
  exact ⟨a, by simp, ha⟩

theorem not_until_nil (P Q : α → Prop) : ¬ Until P Q [] := by
  rintro ⟨pre, a, post, h, -⟩
  simp at h

theorem until_cons_iff {a : α} {l : List α} : Until P Q (a :: l) ↔ Q a ∨ (P a ∧ Until P Q l) := by
  constructor
  · rintro ⟨pre, b, post, h, hpre, hb⟩
    rcases pre with _ | ⟨c, pre⟩
    · rw [List.nil_append, List.cons.injEq] at h
      exact Or.inl (h.1 ▸ hb)
    · rw [List.cons_append, List.cons.injEq] at h
      obtain ⟨rfl, rfl⟩ := h
      exact Or.inr ⟨hpre a List.mem_cons_self, pre, b, post, rfl,
        fun x hx => hpre x (List.mem_cons_of_mem _ hx), hb⟩
  · rintro (ha | ⟨ha, pre, b, post, rfl, hpre, hb⟩)
    · exact ⟨[], a, l, rfl, fun x hx => absurd hx List.not_mem_nil, ha⟩
    · exact ⟨a :: pre, b, post, rfl, List.forall_mem_cons.mpr ⟨ha, hpre⟩, hb⟩

/-- The two properties may be replaced by equivalent ones on the list. -/
theorem until_congr {P' Q' : α → Prop} {l : List α} (hP : ∀ a ∈ l, P a ↔ P' a)
    (hQ : ∀ a ∈ l, Q a ↔ Q' a) : Until P Q l ↔ Until P' Q' l := by
  induction l with
  | nil => exact iff_of_false (not_until_nil P Q) (not_until_nil P' Q')
  | cons a l ih =>
      rw [until_cons_iff, until_cons_iff, hP a List.mem_cons_self, hQ a List.mem_cons_self,
        ih (fun b hb => hP b (List.mem_cons_of_mem _ hb)) fun b hb => hQ b (List.mem_cons_of_mem _ hb)]

/-- When no element lets the evaluation go on, the first one decides. -/
theorem until_iff_head? {l : List α} (hP : ∀ a ∈ l, ¬ P a) : Until P Q l ↔ ∃ a, l.head? = some a ∧ Q a := by
  rcases l with _ | ⟨a, l⟩
  · simp [not_until_nil]
  · rw [until_cons_iff, List.head?_cons]
    simp [hP a List.mem_cons_self]

end Until

/-! ## `&&` over a list -/

section AllM

variable {α : Type*} (p : α → Option Bool)

theorem allM_cons_eq_andM (a : α) (as : List α) : (a :: as).allM p = (p a <&&> as.allM p) := by
  rw [List.allM, andM]
  congr 1
  funext b
  cases b <;> rfl

theorem allM_singleton (a : α) : [a].allM p = p a := by
  rw [allM_cons_eq_andM]
  rcases p a with _ | _ | _ <;> rfl

theorem allM_pair (a b : α) : [a, b].allM p = (p a <&&> p b) := by
  rw [allM_cons_eq_andM, allM_singleton]

theorem allM_triple (a b c : α) : [a, b, c].allM p = (p a <&&> p b <&&> p c) := by
  rw [allM_cons_eq_andM, allM_pair]

variable {p}

/-- When no element traps. -/
theorem allM_eq_all {q : α → Bool} {l : List α} (h : ∀ a ∈ l, p a = some (q a)) :
    l.allM p = some (l.all q) := by
  induction l with
  | nil => rfl
  | cons a l ih =>
      rw [allM_cons_eq_andM, h a List.mem_cons_self, some_andM, List.all_cons,
        ih fun b hb => h b (List.mem_cons_of_mem _ hb)]
      cases q a <;> rfl

/-- When all elements have the same verdict, or all trap. -/
theorem allM_eq_of_forall {v : Option Bool} {l : List α} (hne : l ≠ []) (h : ∀ a ∈ l, p a = v) : l.allM p = v := by
  obtain ⟨a, l, rfl⟩ := List.exists_cons_of_ne_nil hne
  clear hne
  induction l generalizing a with
  | nil =>
      rw [allM_singleton]
      exact h a (List.mem_singleton_self a)
  | cons b l ih =>
      rw [allM_cons_eq_andM, h a List.mem_cons_self, ih b fun x hx => h x (List.mem_cons_of_mem a hx)]
      rcases v with _ | _ | _ <;> rfl

theorem exists_allM_eq_some {l : List α} (h : ∀ a ∈ l, ∃ b, p a = some b) : ∃ b, l.allM p = some b := by
  have hget : ∀ a ∈ l, p a = some ((p a).getD false) := by
    intro a ha
    obtain ⟨b, hb⟩ := h a ha
    rw [hb, Option.getD_some]
  exact ⟨_, allM_eq_all hget⟩

/-- The verdict `true` needs it of every element. -/
theorem allM_eq_some_true_iff {l : List α} : l.allM p = some true ↔ ∀ a ∈ l, p a = some true := by
  induction l with
  | nil => exact ⟨fun _ a ha => absurd ha List.not_mem_nil, fun _ => rfl⟩
  | cons a l ih =>
      rw [allM_cons_eq_andM, List.forall_mem_cons, ← ih]
      rcases p a with _ | _ | _
      · exact ⟨fun h => absurd h (by simp), fun h => absurd h.1 (by simp)⟩
      · exact ⟨fun h => absurd h (by simp), fun h => absurd h.1 (by simp)⟩
      · rw [some_andM, if_pos rfl]
        exact ⟨fun h => ⟨rfl, h⟩, fun h => h.2⟩

/-- The verdict `false` needs it of one element, which stops the evaluation, and
`true` of every one before. -/
theorem allM_eq_some_false_iff {l : List α} :
    l.allM p = some false ↔ Until (fun a => p a = some true) (fun a => p a = some false) l := by
  induction l with
  | nil => exact iff_of_false (fun h => Bool.false_ne_true (Option.some.inj h).symm) (not_until_nil _ _)
  | cons a l ih =>
      rw [allM_cons_eq_andM, until_cons_iff, ← ih]
      rcases p a with _ | _ | _
      · simp
      · simp
      · simp

theorem exists_of_allM_eq_some_false {l : List α} (h : l.allM p = some false) :
    ∃ a ∈ l, p a = some false :=
  (allM_eq_some_false_iff.mp h).exists

end AllM

/-! ## A loop that is left by `return`

`findSomeM? f l` runs `f` over `l`; `some (some v)` leaves the loop with `v`,
`some none` goes on, `none` traps. -/

section FindSomeM

variable {α β : Type*} {f : α → Option (Option β)} {l : List α}

/-- When no element traps. -/
theorem findSomeM?_eq_findSome? {g : α → Option β} (h : ∀ a ∈ l, f a = some (g a)) :
    l.findSomeM? f = some (l.findSome? g) := by
  induction l with
  | nil => rfl
  | cons a l ih =>
      rw [List.findSomeM?_cons, h a List.mem_cons_self, List.findSome?_cons,
        ih fun b hb => h b (List.mem_cons_of_mem _ hb)]
      rcases g a with _ | b <;> rfl

/-- A loop whose body never traps does not trap. -/
theorem findSomeM?_isSome (h : ∀ a ∈ l, (f a).isSome = true) : (l.findSomeM? f).isSome = true := by
  have hsome : ∀ a ∈ l, f a = some ((f a).getD none) := by
    intro a ha
    obtain ⟨b, hb⟩ := Option.isSome_iff_exists.mp (h a ha)
    rw [hb]
    rfl
  rw [findSomeM?_eq_findSome? hsome]
  rfl

/-- A loop left at the first element that stops it. An element with `D` is a
hit; without `D` it stops the loop with no hit, unless it has `N`. The loop ends
in a hit when there is one and everything before the first has `N`. -/
theorem findSome?_hit_iff {g : α → Option β} {D N : α → Prop} [DecidablePred D] {H : β → Prop}
    (hhit : ∀ a ∈ l, D a → ∃ b, g a = some b ∧ H b)
    (hstop : ∀ a ∈ l, ¬ D a → ¬ N a → ∃ b, g a = some b ∧ ¬ H b)
    (hgo : ∀ a ∈ l, ¬ D a → N a → g a = none) :
    (∃ b, l.findSome? g = some b ∧ H b) ↔
      (∃ a ∈ l, D a) ∧ ∀ a ∈ l.takeWhile fun a => ¬ D a, N a := by
  induction l with
  | nil => simp
  | cons a l ih =>
      have ih' := ih (fun b hb => hhit b (List.mem_cons_of_mem _ hb))
        (fun b hb => hstop b (List.mem_cons_of_mem _ hb)) fun b hb => hgo b (List.mem_cons_of_mem _ hb)
      have ha : a ∈ a :: l := List.mem_cons_self
      by_cases hD : D a
      · -- the search ends here with a hit, and nothing stands before it
        obtain ⟨b, hb, hB⟩ := hhit a ha hD
        rw [List.findSome?_cons, hb, List.takeWhile_cons_of_neg (by simpa using hD)]
        exact ⟨fun _ => ⟨⟨a, ha, hD⟩, fun x hx => absurd hx List.not_mem_nil⟩, fun _ => ⟨b, rfl, hB⟩⟩
      · -- `a` stands before the first hit: the search goes past it if it has `N`
        rw [List.takeWhile_cons_of_pos (by simpa using hD), List.forall_mem_cons]
        by_cases hN : N a
        · rw [List.findSome?_cons, hgo a ha hD hN]
          simp only [ih', List.exists_mem_cons_iff, hD, hN, false_or, true_and]
        · obtain ⟨b, hb, hB⟩ := hstop a ha hD hN
          rw [List.findSome?_cons, hb]
          constructor
          · rintro ⟨b', hb', hB'⟩
            exact absurd (Option.some.inj hb' ▸ hB') hB
          · exact fun h => absurd h.2.1 hN

/-- Two nested loops, the inner one over a list that depends on the outer
element, are one loop over the pairs. -/
theorem findSome?_flatMap {γ : Type*} (l : List α) (g : α → List γ) (h : γ → Option β) :
    (l.flatMap g).findSome? h = l.findSome? fun a => (g a).findSome? h := by
  induction l with
  | nil => rfl
  | cons a l ih =>
      rw [List.flatMap_cons, List.findSome?_append, ih, List.findSome?_cons]
      rcases (g a).findSome? h with _ | b <;> rfl

end FindSomeM

/-! ## A loop that collects -/

section MapM

variable {α β : Type*} {f : α → Option β} {l : List α}

/-- One element that traps is enough. -/
theorem mapM_eq_none {x : α} (hx : x ∈ l) (h : f x = none) : l.mapM f = none := by
  induction l with
  | nil => exact absurd hx List.not_mem_nil
  | cons y l ih =>
      rw [List.mapM_cons]
      rcases List.mem_cons.mp hx with rfl | hx
      · rw [h]
        rfl
      · rw [ih hx]
        rcases f y with _ | b <;> rfl

/-- When no element traps. -/
theorem mapM_eq_some_map {g : α → β} (h : ∀ x ∈ l, f x = some (g x)) : l.mapM f = some (l.map g) := by
  induction l with
  | nil => rfl
  | cons y l ih =>
      rw [List.mapM_cons, h y List.mem_cons_self, ih fun x hx => h x (List.mem_cons_of_mem _ hx)]
      rfl

theorem exists_mapM_eq_some (h : ∀ x ∈ l, ∃ y, f x = some y) : ∃ ys, l.mapM f = some ys := by
  induction l with
  | nil => exact ⟨[], rfl⟩
  | cons x l ih =>
      obtain ⟨y, hy⟩ := h x List.mem_cons_self
      obtain ⟨ys, hys⟩ := ih fun z hz => h z (List.mem_cons_of_mem _ hz)
      exact ⟨y :: ys, by rw [List.mapM_cons, hy, hys]; rfl⟩

/-- Nothing is collected only from nothing. -/
theorem mapM_eq_some_nil_iff : l.mapM f = some [] ↔ l = [] := by
  rcases l with _ | ⟨x, l⟩
  · simp
  · rw [List.mapM_cons]
    rcases f x with _ | y
    · simp
    · rcases l.mapM f with _ | ys <;> simp

/-- Appending to a variable from within the loop. -/
theorem foldlM_append_eq_mapM (acc : List β) :
    l.foldlM (fun acc x => (f x).map fun y => acc ++ [y]) acc = (l.mapM f).map (acc ++ ·) := by
  induction l generalizing acc with
  | nil => simp
  | cons x l ih =>
      rw [List.foldlM_cons, List.mapM_cons]
      rcases f x with _ | y
      · rfl
      · rw [Option.map_some, Option.bind_eq_bind, Option.bind_some, ih]
        rcases l.mapM f with _ | ys <;> simp

end MapM

end TerpBuilder
