/-
Association lists sorted by a comparator.

The library half of the sorted dictionaries: what inserting, erasing and
looking up mean on the list of a dictionary's entries, with no trees and no
arrays in sight. The comparator is a function to `Ordering`; it is a total
order where `Std.TransCmp` and `Std.LawfulEqCmp` say so. The append lemmas cut
a list at an entry and say which side an operation works on, which is all that
a search tree has to know.
-/
import Mathlib.Data.List.Basic
import Mathlib.Data.List.Pairwise

set_option autoImplicit false

namespace TerpBuilder.SortedAssoc

variable {κ ν : Type} {cmp : κ → κ → Ordering}

/-- Strictly ascending keys. -/
def Sorted (cmp : κ → κ → Ordering) (xs : List (κ × ν)) : Prop :=
  xs.Pairwise fun a b => cmp a.1 b.1 = .lt

/-- Puts an entry where its key belongs; a value under the same key is replaced. -/
def insert (cmp : κ → κ → Ordering) (k : κ) (v : ν) : List (κ × ν) → List (κ × ν)
  | [] => [(k, v)]
  | e :: xs =>
    match cmp k e.1 with
    | .lt => (k, v) :: e :: xs
    | .eq => (e.1, v) :: xs
    | .gt => e :: insert cmp k v xs

/-- Takes out the entry of a key, if there is one. -/
def erase (cmp : κ → κ → Ordering) (k : κ) : List (κ × ν) → List (κ × ν)
  | [] => []
  | e :: xs =>
    match cmp k e.1 with
    | .lt => e :: xs
    | .eq => xs
    | .gt => e :: erase cmp k xs

/-- The value of a key. -/
def lookup (cmp : κ → κ → Ordering) (k : κ) : List (κ × ν) → Option ν
  | [] => none
  | e :: xs =>
    match cmp k e.1 with
    | .lt => none
    | .eq => some e.2
    | .gt => lookup cmp k xs

/-- The last key before `k`. -/
def predecessor (cmp : κ → κ → Ordering) (k : κ) (xs : List (κ × ν)) : Option κ :=
  (xs.filter fun e => cmp e.1 k = .lt).getLast?.map Prod.fst

/-- The entries from `k` on. -/
def startingAt (cmp : κ → κ → Ordering) (k : κ) (xs : List (κ × ν)) : List (κ × ν) :=
  xs.filter fun e => cmp e.1 k ≠ .lt

/-! ## Which side of an entry an operation works on -/

section Append

variable {k : κ} {v : ν} {e : κ × ν} {l r : List (κ × ν)}

theorem insert_append_left (h : cmp k e.1 = .lt) :
    insert cmp k v (l ++ e :: r) = insert cmp k v l ++ e :: r := by
  induction l with
  | nil => simp only [List.nil_append, insert, h, List.cons_append]
  | cons x l ih =>
    simp only [List.cons_append, insert]
    split
    · rfl
    · rfl
    · rw [ih, List.cons_append]

theorem insert_append_right (hl : ∀ x ∈ l, cmp k x.1 = .gt) :
    insert cmp k v (l ++ r) = l ++ insert cmp k v r := by
  induction l with
  | nil => rfl
  | cons x l ih =>
    rw [List.forall_mem_cons] at hl
    simp only [List.cons_append, insert, hl.1]
    rw [ih hl.2]

theorem insert_append_eq (hl : ∀ x ∈ l, cmp k x.1 = .gt) (h : cmp k e.1 = .eq) :
    insert cmp k v (l ++ e :: r) = l ++ (e.1, v) :: r := by
  rw [insert_append_right hl]
  simp only [insert, h]

theorem erase_append_left (h : cmp k e.1 = .lt) :
    erase cmp k (l ++ e :: r) = erase cmp k l ++ e :: r := by
  induction l with
  | nil => simp only [List.nil_append, erase, h]
  | cons x l ih =>
    simp only [List.cons_append, erase]
    split
    · rfl
    · rfl
    · rw [ih, List.cons_append]

theorem insert_append_gt (hl : ∀ x ∈ l, cmp k x.1 = .gt) (h : cmp k e.1 = .gt) :
    insert cmp k v (l ++ e :: r) = l ++ e :: insert cmp k v r := by
  rw [insert_append_right hl]
  simp only [insert, h]

theorem erase_append_right (hl : ∀ x ∈ l, cmp k x.1 = .gt) :
    erase cmp k (l ++ r) = l ++ erase cmp k r := by
  induction l with
  | nil => rfl
  | cons x l ih =>
    rw [List.forall_mem_cons] at hl
    simp only [List.cons_append, erase, hl.1]
    rw [ih hl.2]

theorem erase_append_eq (hl : ∀ x ∈ l, cmp k x.1 = .gt) (h : cmp k e.1 = .eq) :
    erase cmp k (l ++ e :: r) = l ++ r := by
  rw [erase_append_right hl]
  simp only [erase, h]

theorem erase_append_gt (hl : ∀ x ∈ l, cmp k x.1 = .gt) (h : cmp k e.1 = .gt) :
    erase cmp k (l ++ e :: r) = l ++ e :: erase cmp k r := by
  rw [erase_append_right hl]
  simp only [erase, h]

theorem lookup_append_left (h : cmp k e.1 = .lt) :
    lookup cmp k (l ++ e :: r) = lookup cmp k l := by
  induction l with
  | nil => simp only [List.nil_append, lookup, h]
  | cons x l ih =>
    simp only [List.cons_append, lookup]
    rw [ih]

theorem lookup_append_right (hl : ∀ x ∈ l, cmp k x.1 = .gt) :
    lookup cmp k (l ++ r) = lookup cmp k r := by
  induction l with
  | nil => rfl
  | cons x l ih =>
    rw [List.forall_mem_cons] at hl
    simp only [List.cons_append, lookup, hl.1]
    exact ih hl.2

theorem lookup_append_eq (hl : ∀ x ∈ l, cmp k x.1 = .gt) (h : cmp k e.1 = .eq) :
    lookup cmp k (l ++ e :: r) = some e.2 := by
  rw [lookup_append_right hl]
  simp only [lookup, h]

theorem lookup_append_gt (hl : ∀ x ∈ l, cmp k x.1 = .gt) (h : cmp k e.1 = .gt) :
    lookup cmp k (l ++ e :: r) = lookup cmp k r := by
  rw [lookup_append_right hl]
  simp only [lookup, h]

end Append

/-! ## Sorted lists -/

section Sorted

variable {k k' : κ} {v : ν} {e : κ × ν} {xs l r : List (κ × ν)}

theorem sorted_nil : Sorted cmp ([] : List (κ × ν)) := List.Pairwise.nil

theorem sorted_cons : Sorted cmp (e :: xs) ↔ (∀ x ∈ xs, cmp e.1 x.1 = .lt) ∧ Sorted cmp xs :=
  List.pairwise_cons

theorem sorted_append : Sorted cmp (l ++ e :: r) ↔
    Sorted cmp l ∧ Sorted cmp r ∧ (∀ x ∈ l, cmp x.1 e.1 = .lt) ∧ (∀ x ∈ r, cmp e.1 x.1 = .lt) ∧
      ∀ x ∈ l, ∀ y ∈ r, cmp x.1 y.1 = .lt := by
  unfold Sorted
  rw [List.pairwise_append, List.pairwise_cons]
  simp only [List.forall_mem_cons]
  constructor
  · rintro ⟨hl, ⟨he, hr⟩, h⟩
    exact ⟨hl, hr, fun x hx => (h x hx).1, he, fun x hx => (h x hx).2⟩
  · rintro ⟨hl, hr, hx, he, h⟩
    exact ⟨hl, ⟨he, hr⟩, fun x hxl => ⟨hx x hxl, h x hxl⟩⟩

theorem Sorted.sublist {ys : List (κ × ν)} (h : Sorted cmp xs) (hs : ys.Sublist xs) :
    Sorted cmp ys :=
  List.Pairwise.sublist hs h

theorem erase_sublist : (erase cmp k xs).Sublist xs := by
  induction xs with
  | nil => exact List.Sublist.refl []
  | cons x xs ih =>
    simp only [erase]
    split
    · exact List.Sublist.refl _
    · exact List.sublist_cons_self x xs
    · exact ih.cons_cons x

theorem Sorted.erase (h : Sorted cmp xs) : Sorted cmp (erase cmp k xs) := h.sublist erase_sublist

theorem mem_insert (h : e ∈ insert cmp k v xs) : cmp k e.1 = .eq ∨ e = (k, v) ∨ e ∈ xs := by
  induction xs with
  | nil =>
    simp only [insert, List.mem_singleton] at h
    exact .inr (.inl h)
  | cons x xs ih =>
    simp only [insert] at h
    split at h
    · rcases List.mem_cons.mp h with he | he
      · exact .inr (.inl he)
      · exact .inr (.inr he)
    · rename_i hx
      rcases List.mem_cons.mp h with he | he
      · subst he
        exact .inl hx
      · exact .inr (.inr (List.mem_cons_of_mem x he))
    · rcases List.mem_cons.mp h with he | he
      · subst he
        exact .inr (.inr List.mem_cons_self)
      · rcases ih he with h' | h' | h'
        · exact .inl h'
        · exact .inr (.inl h')
        · exact .inr (.inr (List.mem_cons_of_mem x h'))

theorem insert_of_lt (h : ∀ x ∈ xs, cmp k x.1 = .lt) : insert cmp k v xs = (k, v) :: xs := by
  cases xs with
  | nil => rfl
  | cons x xs => simp only [insert, h x List.mem_cons_self]

theorem lookup_eq_none_of_lt (h : ∀ x ∈ xs, cmp k x.1 = .lt) : lookup cmp k xs = none := by
  cases xs with
  | nil => rfl
  | cons x xs => simp only [lookup, h x List.mem_cons_self]

/-- Erasing a key that is not there changes nothing. -/
theorem erase_of_lookup_eq_none (h : lookup cmp k xs = none) : erase cmp k xs = xs := by
  induction xs with
  | nil => rfl
  | cons x xs ih =>
    simp only [lookup] at h
    simp only [erase]
    rcases hk : cmp k x.1 with _ | _ | _
    · rfl
    · simp only [hk, reduceCtorEq] at h
    · simp only [hk] at h
      rw [ih h]

theorem startingAt_of_lt (h : ∀ x ∈ xs, cmp x.1 k = .lt) : startingAt cmp k xs = [] := by
  rw [startingAt, List.filter_eq_nil_iff]
  intro x hx
  simp [h x hx]

theorem startingAt_of_ge (h : ∀ x ∈ xs, cmp x.1 k ≠ .lt) : startingAt cmp k xs = xs := by
  rw [startingAt, List.filter_eq_self]
  intro x hx
  exact decide_eq_true (h x hx)

theorem startingAt_append (l r : List (κ × ν)) :
    startingAt cmp k (l ++ r) = startingAt cmp k l ++ startingAt cmp k r :=
  List.filter_append _ _

/-- A new entry is put among the others. -/
theorem insert_perm (h : lookup cmp k xs = none) : (insert cmp k v xs).Perm ((k, v) :: xs) := by
  induction xs with
  | nil => exact List.Perm.refl _
  | cons x xs ih =>
    simp only [lookup] at h
    simp only [insert]
    rcases hk : cmp k x.1 with _ | _ | _
    · exact List.Perm.refl _
    · simp only [hk, reduceCtorEq] at h
    · simp only [hk] at h
      exact ((ih h).cons x).trans (List.Perm.swap _ _ _)

variable [Std.TransCmp cmp]

theorem cmp_self_ne_lt (a : κ) : cmp a a ≠ .lt := by
  have ha : cmp a a = .eq := Std.ReflCmp.compare_self
  rw [ha]
  decide

/-- The entry of a key that compares as the same as `k` is the one found under `k`. -/
theorem Sorted.lookup_of_mem (h : Sorted cmp xs) (he : e ∈ xs) (hk : cmp k e.1 = .eq) :
    lookup cmp k xs = some e.2 := by
  obtain ⟨l, r, rfl⟩ := List.append_of_mem he
  refine lookup_append_eq (fun x hx => Std.OrientedCmp.gt_of_lt ?_) hk
  exact Std.TransCmp.lt_of_lt_of_eq ((sorted_append.mp h).2.2.1 x hx) (Std.OrientedCmp.eq_symm hk)

/-- An entry put in the place of one whose key compares as the same, key and value. -/
theorem Sorted.insert_erase_append (h : Sorted cmp (l ++ e :: r)) (hk : cmp k e.1 = .eq) :
    SortedAssoc.insert cmp k v (SortedAssoc.erase cmp k (l ++ e :: r)) = l ++ (k, v) :: r := by
  have hl : ∀ x ∈ l, cmp k x.1 = .gt := fun x hx => Std.OrientedCmp.gt_of_lt
    (Std.TransCmp.lt_of_lt_of_eq ((sorted_append.mp h).2.2.1 x hx) (Std.OrientedCmp.eq_symm hk))
  have hr : ∀ x ∈ r, cmp k x.1 = .lt := fun x hx =>
    Std.TransCmp.lt_of_eq_of_lt hk ((sorted_append.mp h).2.2.2.1 x hx)
  rw [erase_append_eq hl hk, insert_append_right hl, insert_of_lt hr]

/-- On a sorted list every key before an entry that is before `k` is before `k`. -/
theorem Sorted.gt_of_mem (h : Sorted cmp (l ++ e :: r)) (hk : cmp k e.1 ≠ .lt) :
    ∀ x ∈ l, cmp k x.1 = .gt := by
  intro x hx
  have hxe : cmp x.1 e.1 = .lt := (sorted_append.mp h).2.2.1 x hx
  refine Std.OrientedCmp.gt_of_lt (Std.TransCmp.lt_of_lt_of_isLE hxe ?_)
  rw [← Std.OrientedCmp.isGE_iff_isLE]
  revert hk
  cases cmp k e.1 <;> decide

theorem Sorted.predecessor_append_le (h : Sorted cmp (l ++ e :: r)) (hk : cmp k e.1 ≠ .gt) :
    predecessor cmp k (l ++ e :: r) = predecessor cmp k l := by
  have hr : ∀ x ∈ e :: r, ¬ cmp x.1 k = .lt := by
    intro x hx hlt
    refine hk (Std.OrientedCmp.gt_of_lt ?_)
    rcases List.mem_cons.mp hx with rfl | hx
    · exact hlt
    · exact Std.TransCmp.lt_trans ((sorted_append.mp h).2.2.2.1 x hx) hlt
  have hnil : (e :: r).filter (fun x => cmp x.1 k = .lt) = [] := by
    rw [List.filter_eq_nil_iff]
    intro x hx
    rw [decide_eq_true_iff]
    exact hr x hx
  rw [predecessor, List.filter_append, hnil, List.append_nil, predecessor]

theorem predecessor_append_gt (hk : cmp k e.1 = .gt) :
    predecessor cmp k (l ++ e :: r) = (predecessor cmp k r).or (some e.1) := by
  have he : cmp e.1 k = .lt := Std.OrientedCmp.lt_of_gt hk
  rw [predecessor, List.filter_append, List.filter_cons_of_pos (by rw [he]; rfl),
    List.getLast?_append, List.getLast?_cons, predecessor]
  cases (r.filter fun x => cmp x.1 k = .lt).getLast? <;> rfl

theorem predecessor_of_forall_gt (h : ∀ x ∈ xs, cmp k x.1 = .gt) :
    predecessor cmp k xs = xs.getLast?.map Prod.fst := by
  rw [predecessor, List.filter_eq_self.mpr]
  intro x hx
  exact decide_eq_true (Std.OrientedCmp.lt_of_gt (h x hx))

/-- A sorted list cut at a key: what is before it, at most one entry of the key, what is after. -/
theorem Sorted.exists_cut (h : Sorted cmp xs) (k : κ) :
    ∃ l m r, xs = l ++ (m ++ r) ∧ m.length ≤ 1 ∧ (∀ x ∈ l, cmp x.1 k = .lt) ∧
      (∀ x ∈ m, cmp x.1 k = .eq) ∧ ∀ x ∈ r, cmp x.1 k = .gt := by
  induction xs with
  | nil => exact ⟨[], [], [], rfl, by simp, by simp, by simp, by simp⟩
  | cons x xs ih =>
    obtain ⟨hx, hxs⟩ := sorted_cons.mp h
    rcases hk : cmp x.1 k with _ | _ | _
    · obtain ⟨l, m, r, rfl, hm, hl, hmk, hr⟩ := ih hxs
      exact ⟨x :: l, m, r, rfl, hm, List.forall_mem_cons.mpr ⟨hk, hl⟩, hmk, hr⟩
    · refine ⟨[], [x], xs, rfl, by simp, by simp, by simpa using hk, fun y hy => ?_⟩
      refine Std.OrientedCmp.gt_of_lt ?_
      exact Std.TransCmp.lt_of_eq_of_lt (Std.OrientedCmp.eq_symm hk) (hx y hy)
    · refine ⟨[], [], x :: xs, rfl, by simp, by simp, by simp, ?_⟩
      refine List.forall_mem_cons.mpr ⟨hk, fun y hy => Std.OrientedCmp.gt_of_lt ?_⟩
      exact Std.TransCmp.lt_trans (Std.OrientedCmp.lt_of_gt hk) (hx y hy)

/-- An entry before `k`: what is before it is before `k` as well. -/
theorem Sorted.startingAt_lt (h : Sorted cmp (l ++ e :: r)) (he : cmp e.1 k = .lt) :
    startingAt cmp k (l ++ e :: r) = startingAt cmp k r := by
  have hl : ∀ x ∈ l ++ [e], cmp x.1 k = .lt := by
    intro x hx
    rcases List.mem_append.mp hx with hx | hx
    · exact Std.TransCmp.lt_trans ((sorted_append.mp h).2.2.1 x hx) he
    · rwa [List.mem_singleton.mp hx]
  rw [List.append_cons, startingAt, List.filter_append]
  exact congrArg (· ++ _) (startingAt_of_lt hl)

/-- An entry not before `k`: what is after it is not before `k` either. -/
theorem Sorted.startingAt_ge (h : Sorted cmp (l ++ e :: r)) (he : cmp e.1 k ≠ .lt) :
    startingAt cmp k (l ++ e :: r) = startingAt cmp k l ++ e :: r := by
  have hr : ∀ x ∈ e :: r, cmp x.1 k ≠ .lt := by
    intro x hx hlt
    rcases List.mem_cons.mp hx with rfl | hx
    · exact he hlt
    · exact he (Std.TransCmp.lt_trans ((sorted_append.mp h).2.2.2.1 x hx) hlt)
  rw [startingAt, List.filter_append]
  exact congrArg (_ ++ ·) (startingAt_of_ge hr)

theorem Sorted.insert (h : Sorted cmp xs) : Sorted cmp (insert cmp k v xs) := by
  induction xs with
  | nil => exact List.pairwise_singleton _ _
  | cons x xs ih =>
    obtain ⟨hx, hxs⟩ := sorted_cons.mp h
    simp only [SortedAssoc.insert]
    split
    · rename_i hk
      refine sorted_cons.mpr ⟨?_, h⟩
      intro y hy
      rcases List.mem_cons.mp hy with rfl | hy
      · exact hk
      · exact Std.TransCmp.lt_trans hk (hx y hy)
    · exact sorted_cons.mpr ⟨hx, hxs⟩
    · rename_i hk
      refine sorted_cons.mpr ⟨?_, ih hxs⟩
      intro y hy
      have hk' : cmp x.1 k = .lt := Std.OrientedCmp.lt_of_gt hk
      rcases mem_insert hy with hy | rfl | hy
      · exact Std.TransCmp.lt_of_lt_of_eq hk' hy
      · exact hk'
      · exact hx y hy

/-- What is found after an insertion: the new value under the key, else what was there. -/
theorem lookup_insert (h : Sorted cmp xs) :
    lookup cmp k' (insert cmp k v xs) =
      if cmp k' k = .eq then some v else lookup cmp k' xs := by
  induction xs with
  | nil =>
    simp only [insert, lookup]
    cases cmp k' k <;> rfl
  | cons x xs ih =>
    obtain ⟨hx, hxs⟩ := sorted_cons.mp h
    simp only [insert]
    split
    · rename_i hk
      simp only [lookup]
      rcases hk' : cmp k' k with _ | _ | _
      · have hkx : cmp k' x.1 = .lt := Std.TransCmp.lt_trans hk' hk
        simp [hkx]
      · rfl
      · rfl
    · rename_i hk
      simp only [lookup]
      rw [Std.TransCmp.congr_right hk]
      cases cmp k' x.1 <;> rfl
    · rename_i hk
      simp only [lookup]
      rcases hk' : cmp k' x.1 with _ | _ | _
      · have hne : cmp k' k = .lt := Std.TransCmp.lt_trans hk' (Std.OrientedCmp.lt_of_gt hk)
        simp [hne]
      · have hne : cmp k' k = .lt :=
          Std.TransCmp.lt_of_eq_of_lt hk' (Std.OrientedCmp.lt_of_gt hk)
        simp [hne]
      · exact ih hxs

/-- What is found after an erasure: nothing under the key, else what was there. -/
theorem lookup_erase (h : Sorted cmp xs) :
    lookup cmp k' (erase cmp k xs) = if cmp k' k = .eq then none else lookup cmp k' xs := by
  induction xs with
  | nil => simp only [erase, lookup, ite_self]
  | cons x xs ih =>
    obtain ⟨hx, hxs⟩ := sorted_cons.mp h
    simp only [erase]
    split
    · rename_i hk
      by_cases hk' : cmp k' k = .eq
      · have hkx : cmp k' x.1 = .lt := Std.TransCmp.lt_of_eq_of_lt hk' hk
        simp only [lookup, hkx, hk', if_true]
      · rw [if_neg hk']
    · rename_i hk
      by_cases hk' : cmp k' k = .eq
      · rw [if_pos hk']
        refine lookup_eq_none_of_lt fun y hy => ?_
        exact Std.TransCmp.lt_of_eq_of_lt (Std.TransCmp.eq_trans hk' hk) (hx y hy)
      · rw [if_neg hk']
        have hne : cmp k' x.1 ≠ .eq := by rwa [← Std.TransCmp.congr_right hk]
        simp only [lookup]
        rcases hkx : cmp k' x.1 with _ | _ | _
        · exact lookup_eq_none_of_lt fun y hy => Std.TransCmp.lt_trans hkx (hx y hy)
        · exact absurd hkx hne
        · rfl
    · rename_i hk
      simp only [lookup]
      rcases hkx : cmp k' x.1 with _ | _ | _
      · simp only [ite_self]
      · have hne : cmp k' k = .lt :=
          Std.TransCmp.lt_of_eq_of_lt hkx (Std.OrientedCmp.lt_of_gt hk)
        simp [hne]
      · exact ih hxs

/-- Two sorted lists of the same entries are the same list. -/
theorem Sorted.eq_of_perm {ys : List (κ × ν)} (hx : Sorted cmp xs) (hy : Sorted cmp ys)
    (h : xs.Perm ys) : xs = ys := by
  refine List.Perm.eq_of_pairwise ?_ hx hy h
  intro a b _ _ hab hba
  exact absurd (Std.TransCmp.lt_trans hab hba) (cmp_self_ne_lt a.1)

theorem Sorted.nodup (h : Sorted cmp xs) : xs.Nodup := by
  refine h.imp ?_
  rintro a b hab rfl
  exact cmp_self_ne_lt a.1 hab

variable [Std.LawfulEqCmp cmp]

theorem lookup_eq_some_iff (h : Sorted cmp xs) : lookup cmp k xs = some v ↔ (k, v) ∈ xs := by
  induction xs with
  | nil => simp [lookup]
  | cons x xs ih =>
    obtain ⟨hx, hxs⟩ := sorted_cons.mp h
    have hself : cmp k k = .eq := Std.ReflCmp.compare_self
    simp only [lookup, List.mem_cons]
    rcases hk : cmp k x.1 with _ | _ | _
    · simp only [reduceCtorEq, false_iff, not_or]
      refine ⟨fun he => ?_, fun hm => ?_⟩
      · rw [← he, hself] at hk
        exact absurd hk (by decide)
      · exact cmp_self_ne_lt k (Std.TransCmp.lt_trans hk (hx _ hm))
    · obtain rfl : k = x.1 := Std.LawfulEqCmp.eq_of_compare hk
      simp only [Option.some.injEq]
      constructor
      · rintro rfl
        exact .inl rfl
      · rintro (he | hm)
        · rw [← he]
        · exact absurd (hx _ hm) (cmp_self_ne_lt x.1)
    · rw [ih hxs]
      refine ⟨.inr, ?_⟩
      rintro (he | hm)
      · rw [← he, hself] at hk
        exact absurd hk (by decide)
      · exact hm

/-- Sorted lists with the same values under every key are the same list. -/
theorem Sorted.ext {ys : List (κ × ν)} (hx : Sorted cmp xs) (hy : Sorted cmp ys)
    (h : ∀ k, lookup cmp k xs = lookup cmp k ys) : xs = ys := by
  have hmem : ∀ e, e ∈ xs ↔ e ∈ ys := by
    intro e
    rw [← lookup_eq_some_iff hx (k := e.1) (v := e.2), h, lookup_eq_some_iff hy]
  exact hx.eq_of_perm hy ((List.perm_ext_iff_of_nodup hx.nodup hy.nodup).mpr hmem)

end Sorted

end TerpBuilder.SortedAssoc
