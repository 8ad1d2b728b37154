/-
`FImmutableTree`: a tree of optional values under paths.

The trees that a compound write is made of have their values at the leaves and no
empty branch. Such a tree is known once the value at each path is, so the
operations are described by what they do to these values.
-/
import TerpBuilder.SortedAssoc

set_option autoImplicit false

namespace TerpBuilder.Sync

open SortedAssoc (Sorted)

inductive FImmutableTree (κ α : Type) where
  | node (value : Option α) (children : List (κ × FImmutableTree κ α))

namespace FImmutableTree

variable {κ α : Type}

def value : FImmutableTree κ α → Option α
  | .node value _ => value

def children : FImmutableTree κ α → List (κ × FImmutableTree κ α)
  | .node _ children => children

/-- `initWithValue:` -/
def withValue (value : Option α) : FImmutableTree κ α := .node value []

def empty : FImmutableTree κ α := withValue none

def isEmpty (self : FImmutableTree κ α) : Bool := self.value.isNone && self.children.isEmpty

variable (cmp : κ → κ → Ordering)

/-- `[self.children get:front]` -/
def get (self : FImmutableTree κ α) (front : κ) : Option (FImmutableTree κ α) :=
  SortedAssoc.lookup cmp front self.children

def findRootMostValueAndPath : FImmutableTree κ α → List κ → Option (List κ × α)
  | .node (some value) _, _ => some ([], value)
  | .node none _, [] => none
  | .node none kids, front :: path => do
    let child ← get cmp (.node none kids) front
    let (childPath, value) ← findRootMostValueAndPath child path
    return (front :: childPath, value)

def subtreeAtPath : FImmutableTree κ α → List κ → FImmutableTree κ α
  | self, [] => self
  | self, front :: path =>
    match get cmp self front with
    | some childTree => subtreeAtPath childTree path
    | none => empty

def valueAtPath : FImmutableTree κ α → List κ → Option α
  | self, [] => self.value
  | self, front :: path =>
    match get cmp self front with
    | some child => valueAtPath child path
    | none => none

def setValue (newValue : Option α) : FImmutableTree κ α → List κ → FImmutableTree κ α
  | self, [] => .node newValue self.children
  | self, front :: path =>
    let newChild := setValue newValue ((get cmp self front).getD empty) path
    .node self.value (SortedAssoc.insert cmp front newChild self.children)

def setTree (newTree : FImmutableTree κ α) : FImmutableTree κ α → List κ → FImmutableTree κ α
  | _, [] => newTree
  | self, front :: path =>
    let newChild := setTree newTree ((get cmp self front).getD empty) path
    .node self.value (if newChild.isEmpty then SortedAssoc.erase cmp front self.children
      else SortedAssoc.insert cmp front newChild self.children)

mutual

/-- The paths and values that `forEach` calls its block on. -/
def forEachPathSoFar (pathSoFar : List κ) : FImmutableTree κ α → List (List κ × α)
  | .node value children => forEachIn pathSoFar children ++ value.toList.map fun v => (pathSoFar, v)

def forEachIn (pathSoFar : List κ) : List (κ × FImmutableTree κ α) → List (List κ × α)
  | [] => []
  | (childKey, childTree) :: children =>
    forEachPathSoFar (pathSoFar ++ [childKey]) childTree ++ forEachIn pathSoFar children

end

def forEach (self : FImmutableTree κ α) : List (List κ × α) := forEachPathSoFar [] self

/-! ## Trees of writes -/

/-- Values at the leaves only, children in order, no empty branch. -/
inductive Wf : FImmutableTree κ α → Prop
  | value (v : α) : Wf (.node (some v) [])
  | branch (kids : List (κ × FImmutableTree κ α)) (sorted : Sorted cmp kids)
      (nonempty : ∀ x ∈ kids, x.2.isEmpty = false) (wf : ∀ x ∈ kids, Wf x.2) : Wf (.node none kids)

theorem wf_empty : Wf cmp (empty : FImmutableTree κ α) :=
  .branch [] SortedAssoc.sorted_nil (fun _ h => absurd h List.not_mem_nil) fun _ h => absurd h List.not_mem_nil

theorem valueAtPath_empty (p : List κ) : valueAtPath cmp (empty : FImmutableTree κ α) p = none := by
  cases p <;> rfl

theorem valueAtPath_cons (t : FImmutableTree κ α) (k : κ) (p : List κ) :
    valueAtPath cmp t (k :: p) = valueAtPath cmp ((get cmp t k).getD empty) p := by
  rw [valueAtPath]
  cases get cmp t k with
  | none => exact (valueAtPath_empty cmp p).symm
  | some c => rfl

variable {cmp}

theorem Wf.sorted {t : FImmutableTree κ α} (h : Wf cmp t) : Sorted cmp t.children := by
  cases h with
  | value v => exact SortedAssoc.sorted_nil
  | branch kids sorted nonempty wf => exact sorted

/-- A leaf with a value has nothing below it. -/
theorem Wf.get_eq_none {t : FImmutableTree κ α} (h : Wf cmp t) {v : α} (hv : t.value = some v) (k : κ) :
    get cmp t k = none := by
  cases h with
  | value v => rfl
  | branch kids sorted nonempty wf => cases hv

theorem eq_empty_of_isEmpty {t : FImmutableTree κ α} (h : t.isEmpty = true) : t = empty := by
  obtain ⟨value, kids⟩ := t
  rw [isEmpty, Bool.and_eq_true, children, List.isEmpty_iff] at h
  obtain ⟨hvalue, rfl⟩ := h
  rw [FImmutableTree.value, Option.isNone_iff_eq_none] at hvalue
  rw [hvalue]
  rfl

/-! ## Along a path -/

section Paths

variable {t : FImmutableTree κ α} {k : κ} {p q : List κ} {v : α}

theorem get_eq_some_of_value (h : valueAtPath cmp t (k :: p) = some v) :
    ∃ c, get cmp t k = some c ∧ valueAtPath cmp c p = some v := by
  rw [valueAtPath] at h
  cases hc : get cmp t k with
  | none =>
    rw [hc] at h
    cases h
  | some c =>
    rw [hc] at h
    exact ⟨c, rfl, h⟩

theorem subtreeAtPath_cons (t : FImmutableTree κ α) (k : κ) (p : List κ) :
    subtreeAtPath cmp t (k :: p) = subtreeAtPath cmp ((get cmp t k).getD empty) p := by
  rw [subtreeAtPath]
  rcases get cmp t k with _ | c
  · cases p <;> rfl
  · rfl

theorem valueAtPath_subtreeAtPath (t : FImmutableTree κ α) (p q : List κ) :
    valueAtPath cmp (FImmutableTree.subtreeAtPath cmp t p) q = valueAtPath cmp t (p ++ q) := by
  induction p generalizing t with
  | nil => rfl
  | cons k p ih => rw [subtreeAtPath_cons, List.cons_append, valueAtPath_cons, ih]

theorem findRootMost_of_value (h : t.value = some v) (p : List κ) :
    findRootMostValueAndPath cmp t p = some ([], v) := by
  obtain ⟨value, kids⟩ := t
  obtain rfl : value = some v := h
  cases p <;> rfl

theorem findRootMost_cons (h : t.value = none) (k : κ) (p : List κ) :
    findRootMostValueAndPath cmp t (k :: p)
      = (findRootMostValueAndPath cmp ((get cmp t k).getD empty) p).map fun x => (k :: x.1, x.2) := by
  obtain ⟨value, kids⟩ := t
  obtain rfl : value = none := h
  rw [findRootMostValueAndPath]
  rcases get cmp (.node none kids) k with _ | c
  · cases p <;> rfl
  · show (findRootMostValueAndPath cmp c p).bind _ = (findRootMostValueAndPath cmp c p).map _
    cases findRootMostValueAndPath cmp c p <;> rfl

/-- What is found is a value on the path. -/
theorem of_findRootMost_eq_some {x : List κ × α} (h : findRootMostValueAndPath cmp t p = some x) :
    x.1 <+: p ∧ valueAtPath cmp t x.1 = some x.2 := by
  induction p generalizing t x with
  | nil =>
    obtain ⟨_ | v, kids⟩ := t
    · cases h
    · obtain rfl := Option.some.inj h
      exact ⟨List.nil_prefix, rfl⟩
  | cons k p ih =>
    rcases hv : t.value with _ | v
    · rw [findRootMost_cons hv] at h
      obtain ⟨y, hy, rfl⟩ := Option.map_eq_some_iff.mp h
      obtain ⟨hpre, hval⟩ := ih hy
      exact ⟨List.cons_prefix_cons.mpr ⟨rfl, hpre⟩, by rw [valueAtPath_cons]; exact hval⟩
    · rw [findRootMost_of_value hv] at h
      obtain rfl := Option.some.inj h
      exact ⟨List.nil_prefix, hv⟩

/-- If nothing is found, there is no value on the path. -/
theorem of_findRootMost_eq_none (h : findRootMostValueAndPath cmp t p = none) (hq : q <+: p) :
    valueAtPath cmp t q = none := by
  induction p generalizing t q with
  | nil =>
    obtain rfl := List.prefix_nil.mp hq
    obtain ⟨_ | v, kids⟩ := t
    · rfl
    · cases h
  | cons k p ih =>
    rcases hv : t.value with _ | v
    · rcases q with _ | ⟨k', q⟩
      · exact hv
      · obtain ⟨rfl, hqp⟩ := List.cons_prefix_cons.mp hq
        rw [findRootMost_cons hv, Option.map_eq_none_iff] at h
        rw [valueAtPath_cons]
        exact ih h hqp
    · rw [findRootMost_of_value hv] at h
      cases h

theorem setTree_empty_empty (p : List κ) : setTree cmp (empty : FImmutableTree κ α) empty p = empty := by
  induction p with
  | nil => rfl
  | cons k p ih =>
    rw [setTree]
    show FImmutableTree.node none (if (setTree cmp empty empty p).isEmpty then _ else _) = empty
    rw [ih]
    rfl

/-- The paths are those so far, continued. -/
theorem mem_forEachIn {pathSoFar : List κ} {x : List κ × α} (kids : List (κ × FImmutableTree κ α)) :
    x ∈ forEachIn pathSoFar kids ↔ ∃ y ∈ kids, x ∈ forEachPathSoFar (pathSoFar ++ [y.1]) y.2 := by
  induction kids with
  | nil => simp [forEachIn]
  | cons y kids ih =>
    obtain ⟨k, c⟩ := y
    simp only [forEachIn, List.mem_append, ih, List.exists_mem_cons_iff]

end Paths

section Lawful

variable [Std.TransCmp cmp] [Std.LawfulEqCmp cmp] {t t' new : FImmutableTree κ α} {k : κ} {p q : List κ}
variable {u v : α}

theorem Wf.of_get {c : FImmutableTree κ α} (h : Wf cmp t) (hc : get cmp t k = some c) :
    Wf cmp c ∧ c.isEmpty = false := by
  have hmem : (k, c) ∈ t.children := (SortedAssoc.lookup_eq_some_iff h.sorted).mp hc
  cases h with
  | value v => exact absurd hmem List.not_mem_nil
  | branch kids sorted nonempty wf => exact ⟨wf _ hmem, nonempty _ hmem⟩

theorem Wf.getD (h : Wf cmp t) (k : κ) : Wf cmp ((get cmp t k).getD empty) := by
  rcases hc : get cmp t k with _ | c
  · exact wf_empty cmp
  · exact (h.of_get hc).1

/-! ## What is at a path -/

/-- Below a value there is none. -/
theorem Wf.eq_nil_of_below (h : Wf cmp t) (hp : valueAtPath cmp t p = some u)
    (hpq : valueAtPath cmp t (p ++ q) = some v) : q = [] := by
  induction p generalizing t with
  | nil =>
    rcases q with _ | ⟨k, q⟩
    · rfl
    · rw [List.nil_append, valueAtPath_cons, h.get_eq_none hp] at hpq
      exact absurd ((valueAtPath_empty cmp q).symm.trans hpq) (by simp)
  | cons k p ih =>
    rw [valueAtPath_cons] at hp
    rw [List.cons_append, valueAtPath_cons] at hpq
    exact ih (h.getD k) hp hpq

/-- A tree that is not empty has a value somewhere. -/
theorem Wf.exists_value (h : Wf cmp t) (hne : t.isEmpty = false) : ∃ p v, valueAtPath cmp t p = some v := by
  induction h with
  | value v => exact ⟨[], v, rfl⟩
  | branch kids sorted nonempty wf ih =>
    rcases kids with _ | ⟨x, kids⟩
    · cases hne
    · obtain ⟨p, v, hv⟩ := ih x List.mem_cons_self (nonempty x List.mem_cons_self)
      have hget : get cmp (.node none (x :: kids)) x.1 = some x.2 :=
        (SortedAssoc.lookup_eq_some_iff sorted).mpr List.mem_cons_self
      exact ⟨x.1 :: p, v, by rw [valueAtPath_cons, hget]; exact hv⟩

/-- **Trees of writes with the same values are the same tree.** -/
theorem Wf.ext (h : Wf cmp t) (h' : Wf cmp t') (heq : ∀ p, valueAtPath cmp t p = valueAtPath cmp t' p) :
    t = t' := by
  induction h generalizing t' with
  | value v =>
    have hv : t'.value = some v := (heq []).symm
    cases h' with
    | value v' =>
      rw [FImmutableTree.value] at hv
      rw [hv]
    | branch kids sorted nonempty wf => cases hv
  | branch kids sorted nonempty wf ih =>
    have hv : t'.value = none := (heq []).symm
    obtain ⟨value', kids'⟩ := t'
    obtain rfl : value' = none := hv
    -- a child of one of them has a value, so it is a child of the other too
    have hget : ∀ k, get cmp (.node none kids) k = get cmp (.node none kids') k := by
      intro k
      rcases hc : get cmp (.node none kids) k with _ | c
      · rcases hc' : get cmp (.node none kids') k with _ | c'
        · rfl
        · obtain ⟨p, v, hpv⟩ := (h'.of_get hc').1.exists_value (h'.of_get hc').2
          have hboth := heq (k :: p)
          rw [valueAtPath_cons, valueAtPath_cons, hc, hc'] at hboth
          have hnone : valueAtPath cmp (empty : FImmutableTree κ α) p = some v := hboth.trans hpv
          rw [valueAtPath_empty] at hnone
          cases hnone
      · have hmem : (k, c) ∈ kids := (SortedAssoc.lookup_eq_some_iff sorted).mp hc
        obtain ⟨p, v, hpv⟩ := (wf _ hmem).exists_value (nonempty _ hmem)
        have hboth := heq (k :: p)
        rw [valueAtPath_cons, hc] at hboth
        obtain ⟨c', hc', -⟩ := get_eq_some_of_value (hboth.symm.trans hpv)
        have hsame : c = c' := by
          refine ih _ hmem (h'.of_get hc').1 fun q => ?_
          have hq := heq (k :: q)
          rwa [valueAtPath_cons, valueAtPath_cons, hc, hc'] at hq
        rw [hc', hsame]
    exact congrArg (FImmutableTree.node none) (SortedAssoc.Sorted.ext sorted h'.sorted hget)

/-! ## Setting a tree -/

theorem get_node_of_set [DecidableEq κ] {value : Option α} {kids : List (κ × FImmutableTree κ α)} (hs : Sorted cmp kids)
    (k k' : κ) (c : FImmutableTree κ α) :
    (get cmp (.node value (if c.isEmpty then SortedAssoc.erase cmp k kids
        else SortedAssoc.insert cmp k c kids)) k').getD empty
      = if k' = k then c else (get cmp (.node value kids) k').getD empty := by
  have hcmp : cmp k' k = .eq ↔ k' = k := by
    constructor
    · exact Std.LawfulEqCmp.eq_of_compare
    · rintro rfl
      exact Std.ReflCmp.compare_self
  rw [get, children]
  split_ifs with hc hk hk
  · rw [SortedAssoc.lookup_erase hs, if_pos (hcmp.mpr hk), eq_empty_of_isEmpty hc]
    rfl
  · rw [SortedAssoc.lookup_erase hs, if_neg (mt hcmp.mp hk)]
    rfl
  · rw [SortedAssoc.lookup_insert hs, if_pos (hcmp.mpr hk)]
    rfl
  · rw [SortedAssoc.lookup_insert hs, if_neg (mt hcmp.mp hk)]
    rfl

/-- **After a tree was set**, the values at and below the path are its own, the
others what they were. -/
theorem valueAtPath_setTree [DecidableEq κ] (h : Wf cmp t) (new : FImmutableTree κ α) (p q : List κ) :
    valueAtPath cmp (setTree cmp new t p) q =
      if p <+: q then valueAtPath cmp new (q.drop p.length) else valueAtPath cmp t q := by
  induction p generalizing t q with
  | nil => rw [if_pos List.nil_prefix, setTree, List.length_nil, List.drop_zero]
  | cons k p ih =>
    rcases q with _ | ⟨k', q⟩
    · have hlong : ¬ k :: p <+: [] := fun hpre => List.cons_ne_nil k p (List.prefix_nil.mp hpre)
      rw [if_neg hlong]
      rfl
    · rw [setTree, valueAtPath_cons, get_node_of_set h.sorted]
      by_cases hk : k' = k
      · subst hk
        rw [if_pos rfl, ih (h.getD k'), List.length_cons, List.drop_succ_cons, valueAtPath_cons]
        simp only [List.cons_prefix_cons, true_and]
      · have hout : ¬ k :: p <+: k' :: q := fun hpre => hk (List.cons_prefix_cons.mp hpre).1.symm
        rw [if_neg hk, if_neg hout, valueAtPath_cons]
        obtain ⟨value, kids⟩ := t
        rfl

/-- There is no value above the end of the path. -/
def NoneAbove (cmp : κ → κ → Ordering) (t : FImmutableTree κ α) (p : List κ) : Prop :=
  ∀ q, q <+: p → q ≠ p → valueAtPath cmp t q = none

theorem Wf.set {kids : List (κ × FImmutableTree κ α)} (h : Wf cmp (.node none kids)) (k : κ)
    {c : FImmutableTree κ α} (hc : Wf cmp c) :
    Wf cmp (.node none (if c.isEmpty then SortedAssoc.erase cmp k kids else SortedAssoc.insert cmp k c kids)) := by
  obtain ⟨sorted, nonempty, wf⟩ : Sorted cmp kids ∧ (∀ x ∈ kids, x.2.isEmpty = false) ∧ ∀ x ∈ kids, Wf cmp x.2 := by
    cases h with
    | branch kids sorted nonempty wf => exact ⟨sorted, nonempty, wf⟩
  split_ifs with hempty
  · have hsub : (SortedAssoc.erase cmp k kids).Sublist kids := SortedAssoc.erase_sublist
    exact .branch _ sorted.erase (fun x hx => nonempty x (hsub.subset hx)) fun x hx => wf x (hsub.subset hx)
  · have hmem : ∀ x ∈ SortedAssoc.insert cmp k c kids, x.2 = c ∨ x ∈ kids := by
      intro x hx
      have hlook := (SortedAssoc.lookup_eq_some_iff sorted.insert (k := x.1) (v := x.2)).mpr hx
      rw [SortedAssoc.lookup_insert sorted] at hlook
      split_ifs at hlook
      · exact Or.inl (Option.some.inj hlook).symm
      · exact Or.inr ((SortedAssoc.lookup_eq_some_iff sorted).mp hlook)
    refine .branch _ sorted.insert (fun x hx => ?_) fun x hx => ?_
    · rcases hmem x hx with hxc | hx
      · rw [hxc]
        exact Bool.eq_false_iff.mpr hempty
      · exact nonempty x hx
    · rcases hmem x hx with hxc | hx
      · rw [hxc]
        exact hc
      · exact wf x hx

/-- Setting a tree where no value is above it, or the empty tree anywhere. -/
theorem Wf.setTree (h : Wf cmp t) (hnew : Wf cmp new) (hp : NoneAbove cmp t p ∨ new = empty) :
    Wf cmp (setTree cmp new t p) := by
  induction p generalizing t with
  | nil => exact hnew
  | cons k p ih =>
    have hchild : NoneAbove cmp ((get cmp t k).getD empty) p ∨ new = empty := by
      refine hp.imp_left fun hnone q hq hne => ?_
      rw [← valueAtPath_cons]
      exact hnone (k :: q) (List.cons_prefix_cons.mpr ⟨rfl, hq⟩) (fun heq => hne (List.cons.inj heq).2)
    have hc := ih (h.getD k) hchild
    obtain ⟨_ | v, kids⟩ := t
    · exact h.set k hc
    · -- under a value only the empty tree is set, and that changes nothing
      have hnil : kids = [] := by
        cases h with
        | value v => rfl
      rcases hp with hnone | rfl
      · have hv : valueAtPath cmp (.node (some v) kids) [] = none := hnone [] List.nil_prefix (List.cons_ne_nil k p).symm
        cases hv
      · subst hnil
        rw [FImmutableTree.setTree]
        show Wf cmp (.node (some v) (if (FImmutableTree.setTree cmp empty empty p).isEmpty then _ else _))
        rw [setTree_empty_empty]
        exact .value v

/-! ## Setting a value -/

theorem get_node_of_insert [DecidableEq κ] {value : Option α} {kids : List (κ × FImmutableTree κ α)} (hs : Sorted cmp kids)
    (k k' : κ) (c : FImmutableTree κ α) :
    (get cmp (.node value (SortedAssoc.insert cmp k c kids)) k').getD empty
      = if k' = k then c else (get cmp (.node value kids) k').getD empty := by
  have hcmp : cmp k' k = .eq ↔ k' = k := by
    constructor
    · exact Std.LawfulEqCmp.eq_of_compare
    · rintro rfl
      exact Std.ReflCmp.compare_self
  rw [get, children, SortedAssoc.lookup_insert hs]
  by_cases hk : k' = k
  · rw [if_pos (hcmp.mpr hk), if_pos hk]
    rfl
  · rw [if_neg (mt hcmp.mp hk), if_neg hk]
    rfl

theorem valueAtPath_setValue [DecidableEq κ] (h : Wf cmp t) (x : Option α) (p q : List κ) :
    valueAtPath cmp (setValue cmp x t p) q = if q = p then x else valueAtPath cmp t q := by
  induction p generalizing t q with
  | nil =>
    rcases q with _ | ⟨k, q⟩
    · rw [if_pos rfl]
      rfl
    · rw [if_neg (List.cons_ne_nil k q)]
      rfl
  | cons k p ih =>
    rcases q with _ | ⟨k', q⟩
    · rw [if_neg (List.cons_ne_nil k p).symm]
      rfl
    · rw [setValue, valueAtPath_cons, get_node_of_insert h.sorted]
      by_cases hk : k' = k
      · subst hk
        rw [if_pos rfl, ih (h.getD k'), valueAtPath_cons]
        simp only [List.cons.injEq, true_and]
      · rw [if_neg hk, if_neg fun heq => hk (List.cons.inj heq).1, valueAtPath_cons]
        obtain ⟨value, kids⟩ := t
        rfl

/-- A value in the place of a value. -/
theorem Wf.setValue [DecidableEq κ] (h : Wf cmp t) (hp : valueAtPath cmp t p = some u) :
    Wf cmp (setValue cmp (some v) t p) := by
  induction p generalizing t with
  | nil =>
    cases h with
    | value v' => exact .value v
    | branch kids sorted nonempty wf => cases hp
  | cons k p ih =>
    obtain ⟨_ | v', kids⟩ := t
    · rw [valueAtPath_cons] at hp
      have hc := ih (h.getD k) hp
      have hne : ¬ (FImmutableTree.setValue cmp (some v) ((get cmp (.node none kids) k).getD empty) p).isEmpty = true := by
        intro hempty
        have hval := valueAtPath_setValue (h.getD k) (some v) p p
        rw [eq_empty_of_isEmpty hempty, valueAtPath_empty, if_pos rfl] at hval
        cases hval
      have hset := h.set k hc
      rwa [if_neg hne] at hset
    · rw [valueAtPath_cons, h.get_eq_none rfl] at hp
      exact absurd ((valueAtPath_empty cmp p).symm.trans hp) (by simp)

/-! ## Subtrees -/

theorem Wf.subtreeAtPath (h : Wf cmp t) (p : List κ) : Wf cmp (subtreeAtPath cmp t p) := by
  induction p generalizing t with
  | nil => exact h
  | cons k p ih =>
    rw [subtreeAtPath_cons]
    exact ih (h.getD k)

/-! ## All values -/

theorem mem_forEachPathSoFar (h : Wf cmp t) (pathSoFar : List κ) (x : List κ × α) :
    x ∈ forEachPathSoFar pathSoFar t ↔ ∃ p, x.1 = pathSoFar ++ p ∧ valueAtPath cmp t p = some x.2 := by
  induction h generalizing pathSoFar with
  | value v =>
    simp only [forEachPathSoFar, forEachIn, Option.toList_some, List.map_singleton, List.nil_append,
      List.mem_singleton]
    constructor
    · rintro rfl
      exact ⟨[], (List.append_nil _).symm, rfl⟩
    · rintro ⟨_ | ⟨k, p⟩, hx, hp⟩
      · rw [List.append_nil] at hx
        obtain ⟨q, w⟩ := x
        obtain rfl : v = w := Option.some.inj hp
        obtain rfl : q = pathSoFar := hx
        rfl
      · cases hp
  | branch kids sorted nonempty wf ih =>
    simp only [forEachPathSoFar, Option.toList_none, List.map_nil, List.append_nil, mem_forEachIn]
    constructor
    · rintro ⟨y, hy, hx⟩
      obtain ⟨p, hxp, hp⟩ := (ih y hy _).mp hx
      have hget : get cmp (.node none kids) y.1 = some y.2 := (SortedAssoc.lookup_eq_some_iff sorted).mpr hy
      exact ⟨y.1 :: p, by rw [hxp, List.append_assoc]; rfl, by rw [valueAtPath_cons, hget]; exact hp⟩
    · rintro ⟨_ | ⟨k, p⟩, hxp, hp⟩
      · cases hp
      · obtain ⟨c, hc, hp⟩ := get_eq_some_of_value hp
        have hmem : (k, c) ∈ kids := (SortedAssoc.lookup_eq_some_iff sorted).mp hc
        exact ⟨_, hmem, (ih _ hmem _).mpr ⟨p, by rw [hxp, List.append_assoc]; rfl, hp⟩⟩

/-- A tree that is not empty has a value. -/
theorem Wf.exists_mem_forEachPathSoFar (h : Wf cmp t) (hne : t.isEmpty = false) (pathSoFar : List κ) :
    ∃ x ∈ forEachPathSoFar pathSoFar t, pathSoFar <+: x.1 := by
  obtain ⟨p, v, hv⟩ := h.exists_value hne
  exact ⟨(pathSoFar ++ p, v), (mem_forEachPathSoFar h pathSoFar _).mpr ⟨p, rfl, hv⟩, List.prefix_append pathSoFar p⟩

theorem mem_forEach (h : Wf cmp t) (x : List κ × α) : x ∈ t.forEach ↔ valueAtPath cmp t x.1 = some x.2 := by
  rw [forEach, mem_forEachPathSoFar h]
  constructor
  · rintro ⟨p, hx, hp⟩
    rw [hx]
    exact hp
  · intro hx
    exact ⟨x.1, rfl, hx⟩

/-- **No path is visited twice.** -/
theorem nodup_forEachPathSoFar (h : Wf cmp t) (pathSoFar : List κ) : (forEachPathSoFar pathSoFar t).Nodup := by
  induction h generalizing pathSoFar with
  | value v => exact List.nodup_cons.mpr ⟨List.not_mem_nil, List.nodup_nil⟩
  | branch kids sorted nonempty wf ih =>
    simp only [forEachPathSoFar, Option.toList_none, List.map_nil, List.append_nil]
    clear nonempty
    induction kids with
    | nil => exact List.nodup_nil
    | cons y kids ih' =>
      obtain ⟨hlt, sorted⟩ := SortedAssoc.sorted_cons.mp sorted
      have hy := ih y List.mem_cons_self (pathSoFar ++ [y.1])
      have hrest := ih' sorted (fun x hx => wf x (List.mem_cons_of_mem y hx)) fun x hx =>
        ih x (List.mem_cons_of_mem y hx)
      obtain ⟨k, c⟩ := y
      rw [forEachIn, List.nodup_append]
      refine ⟨hy, hrest, ?_⟩
      -- the next name on the path tells the children apart
      rintro x hx _ hx' rfl
      obtain ⟨z, hz, hx'⟩ := (mem_forEachIn kids).mp hx'
      obtain ⟨p, hxp, -⟩ := (mem_forEachPathSoFar (wf _ List.mem_cons_self) _ _).mp hx
      obtain ⟨p', hxp', -⟩ := (mem_forEachPathSoFar (wf z (List.mem_cons_of_mem _ hz)) _ _).mp hx'
      rw [hxp, List.append_assoc, List.append_assoc] at hxp'
      have hk : k = z.1 := (List.cons.inj (List.append_cancel_left hxp')).1
      have hkz := hlt z hz
      rw [hk] at hkz
      exact SortedAssoc.cmp_self_ne_lt z.1 hkz

theorem nodup_forEach (h : Wf cmp t) : t.forEach.Nodup := nodup_forEachPathSoFar h []

end Lawful

end FImmutableTree

end TerpBuilder.Sync
