/-
Trees with keyed children, and writing at a path.

The library half of the database: a tree is a leaf with a value or a node with
children under keys. `setAt` writes a tree at a path and makes the nodes on the
way; a leaf in its way is replaced. The rules say what a write changes and what
it leaves alone.
-/
import Mathlib.Data.List.Basic

set_option autoImplicit false

namespace TerpBuilder

inductive KeyTree (κ α : Type) where
  | leaf (value : α)
  | node (kids : List (κ × KeyTree κ α))

namespace KeyTree

variable {κ α : Type}

/-- The children; a leaf has none. -/
def kids : KeyTree κ α → List (κ × KeyTree κ α)
  | leaf _ => []
  | node kids => kids

/-- No tree at all is the node without children. -/
def empty : KeyTree κ α := node []

/-- The value of a leaf. -/
def value? : KeyTree κ α → Option α
  | leaf value => some value
  | node _ => none

variable [DecidableEq κ]

/-- Puts a child under a key, in the place of the one that is there. -/
def insertKid (k : κ) (t : KeyTree κ α) : List (κ × KeyTree κ α) → List (κ × KeyTree κ α)
  | [] => [(k, t)]
  | x :: kids => if x.1 = k then (k, t) :: kids else x :: insertKid k t kids

def child (k : κ) (t : KeyTree κ α) : Option (KeyTree κ α) := t.kids.lookup k

/-- What is at a path. -/
def get : List κ → KeyTree κ α → KeyTree κ α
  | [], t => t
  | k :: ks, t => get ks ((t.child k).getD empty)

/-- Writes a tree at a path. -/
def setAt : List κ → KeyTree κ α → KeyTree κ α → KeyTree κ α
  | [], _, new => new
  | k :: ks, t, new => node (insertKid k (setAt ks ((t.child k).getD empty) new) t.kids)  -- a leaf is lost

/-! ## Children after an insertion -/

section InsertKid

variable {k k' : κ} {t t' : KeyTree κ α} {l : List (κ × KeyTree κ α)}

theorem lookup_cons_of_ne {β : Type} {x : κ × β} {l : List (κ × β)} (hne : k ≠ x.1) :
    (x :: l).lookup k = l.lookup k := by
  rw [List.lookup_cons, beq_eq_false_iff_ne.mpr hne]

theorem lookup_cons_of_eq {β : Type} {x : κ × β} {l : List (κ × β)} (heq : k = x.1) :
    (x :: l).lookup k = some x.2 := by
  rw [List.lookup_cons, beq_iff_eq.mpr heq]

theorem mem_insertKid_self (k : κ) (t : KeyTree κ α) (l : List (κ × KeyTree κ α)) :
    (k, t) ∈ insertKid k t l := by
  induction l with
  | nil => exact List.mem_singleton_self _
  | cons x l ih =>
      rw [insertKid]
      split_ifs
      · exact List.mem_cons_self
      · exact List.mem_cons_of_mem _ ih

/-- Under a new key the child comes last. -/
theorem insertKid_of_lookup_eq_none (h : l.lookup k = none) : insertKid k t l = l ++ [(k, t)] := by
  induction l with
  | nil => rfl
  | cons x l ih =>
      have hne : k ≠ x.1 := by
        intro heq
        rw [lookup_cons_of_eq heq] at h
        cases h
      rw [lookup_cons_of_ne hne] at h
      rw [insertKid, if_neg (Ne.symm hne), ih h, List.cons_append]

theorem lookup_insertKid_self (k : κ) (t : KeyTree κ α) (l : List (κ × KeyTree κ α)) :
    (insertKid k t l).lookup k = some t := by
  induction l with
  | nil => exact lookup_cons_of_eq rfl
  | cons x l ih =>
      rw [insertKid]
      by_cases hx : x.1 = k
      · rw [if_pos hx]
        exact lookup_cons_of_eq rfl
      · rw [if_neg hx, lookup_cons_of_ne (Ne.symm hx), ih]

theorem lookup_insertKid_of_ne (hne : k' ≠ k) : (insertKid k t l).lookup k' = l.lookup k' := by
  induction l with
  | nil => exact lookup_cons_of_ne hne
  | cons x l ih =>
      rw [insertKid]
      by_cases hx : x.1 = k
      · rw [if_pos hx, lookup_cons_of_ne hne, lookup_cons_of_ne (hx ▸ hne)]
      · rw [if_neg hx]
        by_cases hk : k' = x.1
        · rw [lookup_cons_of_eq hk, lookup_cons_of_eq hk]
        · rw [lookup_cons_of_ne hk, lookup_cons_of_ne hk, ih]

end InsertKid

/-! ## Reading after a write -/

section SetAt

variable {k k' : κ} {ks : List κ} {t new : KeyTree κ α}

theorem kids_setAt_cons :
    (t.setAt (k :: ks) new).kids = insertKid k (((t.child k).getD empty).setAt ks new) t.kids := rfl

theorem child_setAt_self :
    (t.setAt (k :: ks) new).child k = some (((t.child k).getD empty).setAt ks new) :=
  lookup_insertKid_self ..

/-- A write below one child leaves the others alone. -/
theorem child_setAt_of_ne (hne : k' ≠ k) : (t.setAt (k :: ks) new).child k' = t.child k' :=
  lookup_insertKid_of_ne hne

theorem get_setAt_cons (p : List κ) :
    (t.setAt (k :: ks) new).get (k :: p) = ((t.get [k]).setAt ks new).get p := by
  rw [KeyTree.get, child_setAt_self]
  rfl

theorem get_setAt_of_ne (hne : k' ≠ k) (p : List κ) :
    (t.setAt (k :: ks) new).get (k' :: p) = t.get (k' :: p) := by
  rw [KeyTree.get, child_setAt_of_ne hne, ← KeyTree.get]

/-- **A write is read back.** -/
theorem get_setAt_self (p : List κ) (t new : KeyTree κ α) : (t.setAt p new).get p = new := by
  induction p generalizing t with
  | nil => rfl
  | cons k p ih =>
      rw [get_setAt_cons]
      exact ih _

/-- Writing a node gives a node, however deep. -/
theorem value?_setAt (p : List κ) (t : KeyTree κ α) (h : new.value? = none) :
    (t.setAt p new).value? = none := by
  rcases p with _ | ⟨k, p⟩
  · exact h
  · rfl

end SetAt

end KeyTree

end TerpBuilder
