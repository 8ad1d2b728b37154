/-
The nodes of a snapshot: `FLeafNode`, `FChildrenNode`, `FEmptyNode`.

A child is looked up under a name of type `κ`, and a path is a list of names. One
name, ".priority", leads to no child: the priority of a node is read and written
under it. The dictionary of the children is the sorted list of its entries.

Writing below a leaf with an empty node leaves the leaf, an emptied node forgets
its priority, and an empty one takes none, so writes at different places do not
commute in general. They do below nodes that are no leaf and have no priority,
along names that are not ".priority", which is what `Open` says of a path.
-/
import TerpBuilder.SortedAssoc
import TerpBuilder.Keys

set_option autoImplicit false

namespace TerpBuilder.Sync

open SortedAssoc (Sorted)

/-- The name `@".priority"`. -/
class PriorityKey (κ : Type) where
  dotPriority : κ

instance : PriorityKey FUtilities.Name := ⟨⟨unichars ".priority", by decide⟩⟩

open PriorityKey (dotPriority)

/-- `id<FNode>`. A priority is the value of a leaf, or nil. -/
inductive FNode (κ ν : Type) where
  /-- `FLeafNode` -/
  | leaf (value : ν) (priority : Option ν)
  /-- `FChildrenNode` -/
  | children (priority : Option ν) (children : List (κ × FNode κ ν))

namespace FNode

variable {κ ν : Type}

/-- `[FEmptyNode emptyNode]` -/
def emptyNode : FNode κ ν := .children none []

def isEmpty : FNode κ ν → Bool
  | .leaf _ _ => false
  | .children _ kids => kids.isEmpty

/-- A priority as a node: no priority is the empty one. -/
def priorityNode : Option ν → FNode κ ν
  | none => emptyNode
  | some value => .leaf value none

/-- A node as a priority. That it is a leaf without a priority of its own, or
empty, is asserted by `validatePriorityNode:`. -/
def asPriority : FNode κ ν → Option ν
  | .leaf value _ => some value
  | .children _ _ => none

def getPriority : FNode κ ν → FNode κ ν
  | .leaf _ priority => priorityNode priority
  | .children priority _ => priorityNode priority

def updatePriority (aPriority : FNode κ ν) : FNode κ ν → FNode κ ν
  | .leaf value _ => .leaf value aPriority.asPriority
  | .children _ kids => if kids.isEmpty then emptyNode else .children aPriority.asPriority kids

variable (cmp : κ → κ → Ordering)

/-- The children after `updateImmediateChild`: an empty child is taken out. -/
def setKid (childName : κ) (newChildNode : FNode κ ν) (kids : List (κ × FNode κ ν)) : List (κ × FNode κ ν) :=
  if newChildNode.isEmpty then SortedAssoc.erase cmp childName kids
  else SortedAssoc.insert cmp childName newChildNode kids

section Operations

variable [DecidableEq κ] [PriorityKey κ]

def getImmediateChild (childName : κ) (self : FNode κ ν) : FNode κ ν :=
  if childName = dotPriority then getPriority self
  else match self with
    | .leaf _ _ => emptyNode
    | .children _ kids => (SortedAssoc.lookup cmp childName kids).getD emptyNode

def getChild : FNode κ ν → List κ → FNode κ ν
  | self, [] => self
  | .leaf value priority, front :: _ =>
    -- whatever comes after the front of the path
    if front = dotPriority then getPriority (.leaf value priority) else emptyNode
  | .children priority kids, front :: path =>
    getChild (getImmediateChild cmp front (.children priority kids)) path

def updateImmediateChild (childName : κ) (newChildNode : FNode κ ν) (self : FNode κ ν) : FNode κ ν :=
  if childName = dotPriority then updatePriority newChildNode self
  else match self with
    | .leaf value priority =>
      if newChildNode.isEmpty then .leaf value priority
      else updatePriority (priorityNode priority) (.children none (setKid cmp childName newChildNode []))
    | .children priority kids =>
      let newChildren := setKid cmp childName newChildNode kids
      if newChildren.isEmpty then emptyNode else .children priority newChildren

/-- ".priority must be the last token in a path" is an assertion. -/
def updateChild : FNode κ ν → List κ → FNode κ ν → FNode κ ν
  | _, [], newChildNode => newChildNode
  | .leaf value priority, front :: path, newChildNode =>
    if newChildNode.isEmpty && front ≠ dotPriority then .leaf value priority
    else updateImmediateChild cmp front (updateChild emptyNode path newChildNode) (.leaf value priority)
  | .children priority kids, front :: path, newChildNode =>
    let self := .children priority kids
    updateImmediateChild cmp front (updateChild (getImmediateChild cmp front self) path newChildNode) self

end Operations

/-! ## Nodes as the constructors allow them -/

/-- There is one empty node: "Can't create empty node with priority!" -/
def Proper (n : FNode κ ν) : Prop := n.isEmpty = true → n = emptyNode

theorem proper_emptyNode : Proper (emptyNode : FNode κ ν) := fun _ => rfl

theorem proper_updatePriority (p n : FNode κ ν) : Proper (updatePriority p n) := by
  cases n with
  | leaf value priority =>
    intro h
    cases h
  | children priority kids =>
    rw [updatePriority]
    split_ifs with h
    · exact proper_emptyNode
    · intro h'
      exact absurd h' h

/-! ## Children after an update -/

section SetKid

variable {cmp} {k k' : κ} {c c' : FNode κ ν} {kids : List (κ × FNode κ ν)}
variable [Std.TransCmp cmp]

theorem sorted_setKid (h : Sorted cmp kids) : Sorted cmp (setKid cmp k c kids) := by
  rw [setKid]
  split_ifs
  · exact h.erase
  · exact h.insert

theorem lookup_setKid (h : Sorted cmp kids) :
    SortedAssoc.lookup cmp k' (setKid cmp k c kids) =
      if cmp k' k = .eq then (if c.isEmpty then none else some c) else SortedAssoc.lookup cmp k' kids := by
  rw [setKid]
  split_ifs with hc hk hk
  · rw [SortedAssoc.lookup_erase h, if_pos hk]
  · rw [SortedAssoc.lookup_erase h, if_neg hk]
  · rw [SortedAssoc.lookup_insert h, if_pos hk]
  · rw [SortedAssoc.lookup_insert h, if_neg hk]

variable [Std.LawfulEqCmp cmp]

omit [Std.TransCmp cmp] in
theorem cmp_eq_iff : cmp k k' = .eq ↔ k = k' := by
  constructor
  · exact Std.LawfulEqCmp.eq_of_compare
  · rintro rfl
    exact Std.ReflCmp.compare_self

theorem setKid_setKid (h : Sorted cmp kids) : setKid cmp k c (setKid cmp k c' kids) = setKid cmp k c kids := by
  refine (sorted_setKid (sorted_setKid h)).ext (sorted_setKid h) fun x => ?_
  rw [lookup_setKid (sorted_setKid h), lookup_setKid h, lookup_setKid h]
  split_ifs <;> rfl

theorem setKid_comm (h : Sorted cmp kids) (hne : k ≠ k') :
    setKid cmp k c (setKid cmp k' c' kids) = setKid cmp k' c' (setKid cmp k c kids) := by
  refine (sorted_setKid (sorted_setKid h)).ext (sorted_setKid (sorted_setKid h)) fun x => ?_
  rw [lookup_setKid (sorted_setKid h), lookup_setKid (sorted_setKid h), lookup_setKid h, lookup_setKid h]
  by_cases hx : cmp x k = .eq
  · have hx' : ¬ cmp x k' = .eq := fun hx' => hne ((cmp_eq_iff.mp hx).symm.trans (cmp_eq_iff.mp hx'))
    simp only [if_pos hx, if_neg hx']
  · simp only [if_neg hx]

end SetKid

/-! ## Paths -/

section Paths

variable {k k' : κ} {p q : List κ}

/-- Neither of two paths leads to the other. -/
def Apart (p q : List κ) : Prop := ¬ p <+: q ∧ ¬ q <+: p

theorem Apart.symm (h : Apart p q) : Apart q p := And.symm h

theorem apart_cons_iff : Apart (k :: p) (k' :: q) ↔ k ≠ k' ∨ Apart p q := by
  unfold Apart
  rw [List.cons_prefix_cons, List.cons_prefix_cons]
  constructor
  · rintro ⟨hpq, hqp⟩
    by_cases heq : k = k'
    · exact Or.inr ⟨fun h => hpq ⟨heq, h⟩, fun h => hqp ⟨heq.symm, h⟩⟩
    · exact Or.inl heq
  · rintro (hk | ⟨hpq, hqp⟩)
    · exact ⟨fun h => hk h.1, fun h => hk h.1.symm⟩
    · exact ⟨fun h => hpq h.2, fun h => hqp h.2⟩

theorem not_apart_nil : ¬ Apart ([] : List κ) q := fun h => h.1 List.nil_prefix

variable [PriorityKey κ]

/-- The priority is not on the path. -/
def Plain (p : List κ) : Prop := dotPriority ∉ p

instance [DecidableEq κ] (p : List κ) : Decidable (Plain p) := inferInstanceAs (Decidable (dotPriority ∉ p))

theorem plain_cons_iff : Plain (k :: p) ↔ k ≠ dotPriority ∧ Plain p := by
  rw [Plain, List.mem_cons, not_or, ne_comm, Plain]

theorem plain_append_iff : Plain (p ++ q) ↔ Plain p ∧ Plain q := by
  rw [Plain, List.mem_append, not_or, Plain, Plain]

end Paths

/-! ## One child -/

variable [DecidableEq κ] [PriorityKey κ]

section Immediate

variable {cmp} {k k' : κ} {c : FNode κ ν} {kids : List (κ × FNode κ ν)}

theorem getImmediateChild_priority (n : FNode κ ν) : getImmediateChild cmp dotPriority n = getPriority n := if_pos rfl

theorem updateImmediateChild_priority (n : FNode κ ν) :
    updateImmediateChild cmp dotPriority c n = updatePriority c n := if_pos rfl

theorem getImmediateChild_of_ne (hk : k ≠ dotPriority) (p : Option ν) (kids : List (κ × FNode κ ν)) :
    getImmediateChild cmp k (.children p kids) = (SortedAssoc.lookup cmp k kids).getD emptyNode := if_neg hk

theorem getImmediateChild_leaf_of_ne (hk : k ≠ dotPriority) (value : ν) (p : Option ν) :
    getImmediateChild cmp k (.leaf value p) = emptyNode := if_neg hk

theorem updateImmediateChild_of_ne (hk : k ≠ dotPriority) (p : Option ν) (kids : List (κ × FNode κ ν)) :
    updateImmediateChild cmp k c (.children p kids) =
      if (setKid cmp k c kids).isEmpty then emptyNode else .children p (setKid cmp k c kids) := if_neg hk

theorem updateImmediateChild_leaf_of_ne (hk : k ≠ dotPriority) (value : ν) (p : Option ν) :
    updateImmediateChild cmp k c (.leaf value p) =
      if c.isEmpty then .leaf value p else updatePriority (priorityNode p) (.children none (setKid cmp k c [])) :=
  if_neg hk

variable [Std.TransCmp cmp] [Std.LawfulEqCmp cmp]

/-- The child that was set is the child that is found. -/
theorem getImmediateChild_setKid_self (h : Sorted cmp kids) (hk : k ≠ dotPriority) (hc : Proper c) (p : Option ν) :
    getImmediateChild cmp k (.children p (setKid cmp k c kids)) = c := by
  rw [getImmediateChild_of_ne hk, lookup_setKid h, if_pos (cmp_eq_iff.mpr rfl)]
  split_ifs with hempty
  · exact (hc hempty).symm
  · rfl

theorem getImmediateChild_setKid_of_ne (h : Sorted cmp kids) (hne : k' ≠ k) (p : Option ν) :
    getImmediateChild cmp k' (.children p (setKid cmp k c kids)) = getImmediateChild cmp k' (.children p kids) := by
  by_cases hk : k' = dotPriority
  · -- the priority is not among the children
    rw [hk, getImmediateChild_priority, getImmediateChild_priority, getPriority, getPriority]
  · rw [getImmediateChild_of_ne hk, lookup_setKid h, if_neg (mt cmp_eq_iff.mp hne), getImmediateChild_of_ne hk]

end Immediate

theorem proper_updateImmediateChild (k : κ) (c n : FNode κ ν) : Proper (updateImmediateChild cmp k c n) := by
  by_cases hk : k = dotPriority
  · rw [hk, updateImmediateChild_priority]
    exact proper_updatePriority c n
  · cases n with
    | leaf value priority =>
      rw [updateImmediateChild_leaf_of_ne hk]
      split_ifs
      · intro h
        cases h
      · exact proper_updatePriority _ _
    | children priority kids =>
      rw [updateImmediateChild_of_ne hk]
      split_ifs with h
      · exact proper_emptyNode
      · intro h'
        exact absurd h' h

/-- **An update leaves no empty node with a priority.** -/
theorem proper_updateChild {v : FNode κ ν} (hv : Proper v) (n : FNode κ ν) (p : List κ) :
    Proper (updateChild cmp n p v) := by
  cases p with
  | nil => exact hv
  | cons k p =>
    cases n with
    | leaf value priority =>
      rw [updateChild]
      split_ifs
      · intro h
        cases h
      · exact proper_updateImmediateChild cmp _ _ _
    | children priority kids =>
      rw [updateChild]
      exact proper_updateImmediateChild cmp _ _ _

/-! ## Reading along a path -/

theorem getImmediateChild_emptyNode (k : κ) : getImmediateChild cmp k (emptyNode : FNode κ ν) = emptyNode := by
  by_cases hk : k = dotPriority
  · rw [hk, getImmediateChild_priority]
    rfl
  · exact getImmediateChild_of_ne hk none []

theorem getChild_emptyNode (p : List κ) : getChild cmp (emptyNode : FNode κ ν) p = emptyNode := by
  induction p with
  | nil => rfl
  | cons k p ih =>
    show getChild cmp (getImmediateChild cmp k emptyNode) p = emptyNode
    rw [getImmediateChild_emptyNode, ih]

theorem getChild_cons (n : FNode κ ν) {k : κ} (hk : k ≠ dotPriority) (p : List κ) :
    getChild cmp n (k :: p) = getChild cmp (getImmediateChild cmp k n) p := by
  cases n with
  | leaf value priority =>
    rw [getImmediateChild_leaf_of_ne hk, getChild_emptyNode, getChild, if_neg hk]
  | children priority kids => rfl

theorem getChild_append (n : FNode κ ν) {p : List κ} (hp : Plain p) (q : List κ) :
    getChild cmp n (p ++ q) = getChild cmp (getChild cmp n p) q := by
  induction p generalizing n with
  | nil => rfl
  | cons k p ih =>
    obtain ⟨hk, hp⟩ := plain_cons_iff.mp hp
    rw [List.cons_append, getChild_cons cmp n hk, getChild_cons cmp n hk, ih _ hp]

/-! ## Open paths -/

/-- The path is plain. Above its end every node has children, in order, and no
priority. -/
def Open : FNode κ ν → List κ → Prop
  | _, [] => True
  | .leaf _ _, _ :: _ => False
  | .children priority kids, k :: p =>
    k ≠ dotPriority ∧ priority = none ∧ Sorted cmp kids ∧ Open (getImmediateChild cmp k (.children priority kids)) p

variable {cmp} {n v w : FNode κ ν} {k : κ} {p q : List κ}

theorem Open.exists_kids (h : Open cmp n (k :: p)) :
    ∃ kids, k ≠ dotPriority ∧ n = .children none kids ∧ Sorted cmp kids ∧
      Open cmp (getImmediateChild cmp k (.children none kids)) p := by
  cases n with
  | leaf value priority => exact absurd h id
  | children priority kids =>
    obtain ⟨hk, rfl, hsorted, hrest⟩ := h
    exact ⟨kids, hk, rfl, hsorted, hrest⟩

theorem Open.plain (h : Open cmp n p) : Plain p := by
  induction p generalizing n with
  | nil => exact List.not_mem_nil
  | cons k p ih =>
    obtain ⟨kids, hk, -, -, hrest⟩ := h.exists_kids
    exact plain_cons_iff.mpr ⟨hk, ih hrest⟩

theorem open_of_prefix (h : Open cmp n (p ++ q)) : Open cmp n p := by
  induction p generalizing n with
  | nil => exact trivial
  | cons k p ih =>
    obtain ⟨kids, hk, rfl, hsorted, hrest⟩ := h.exists_kids
    exact ⟨hk, rfl, hsorted, ih hrest⟩

theorem Open.getChild (h : Open cmp n (p ++ q)) : Open cmp (getChild cmp n p) q := by
  induction p generalizing n with
  | nil => exact h
  | cons k p ih =>
    obtain ⟨kids, hk, rfl, hsorted, hrest⟩ := h.exists_kids
    exact ih hrest

/-- An update below a node without priority sets one child. -/
theorem updateChild_cons (kids : List (κ × FNode κ ν)) (hk : k ≠ dotPriority) (p : List κ) (v : FNode κ ν) :
    updateChild cmp (.children none kids) (k :: p) v = .children none
      (setKid cmp k (updateChild cmp (getImmediateChild cmp k (.children none kids)) p v) kids) := by
  rw [updateChild, updateImmediateChild_of_ne hk]
  split_ifs with h
  · rw [List.isEmpty_iff.mp h]
    rfl
  · rfl

section Laws

variable [Std.TransCmp cmp] [Std.LawfulEqCmp cmp]

/-- **An update is read back**, and so is what is below it. -/
theorem getChild_updateChild (h : Open cmp n p) (hv : Proper v) :
    FNode.getChild cmp (updateChild cmp n p v) (p ++ q) = FNode.getChild cmp v q := by
  induction p generalizing n with
  | nil => rw [updateChild, List.nil_append]
  | cons k p ih =>
    obtain ⟨kids, hk, rfl, hsorted, hrest⟩ := h.exists_kids
    rw [updateChild_cons kids hk, List.cons_append, getChild_cons cmp _ hk,
      getImmediateChild_setKid_self hsorted hk (proper_updateChild cmp hv _ _)]
    exact ih hrest

/-- Elsewhere an update is not seen. -/
theorem getChild_updateChild_of_apart (h : Open cmp n p) (hv : Proper v) (ha : Apart p q) :
    FNode.getChild cmp (updateChild cmp n p v) q = FNode.getChild cmp n q := by
  induction p generalizing n q with
  | nil => exact absurd ha not_apart_nil
  | cons k p ih =>
    rcases q with _ | ⟨k', q⟩
    · exact absurd ha.symm not_apart_nil
    · obtain ⟨kids, hk, rfl, hsorted, hrest⟩ := h.exists_kids
      rw [updateChild_cons kids hk, FNode.getChild, FNode.getChild]
      by_cases heq : k' = k
      · subst heq
        rw [getImmediateChild_setKid_self hsorted hk (proper_updateChild cmp hv _ _)]
        exact ih hrest ((apart_cons_iff.mp ha).resolve_left (not_not.mpr rfl))
      · rw [getImmediateChild_setKid_of_ne hsorted heq]

/-- An update below a place is an update of what is there. -/
theorem getChild_updateChild_below (h : Open cmp n (p ++ q)) (hv : Proper v) :
    FNode.getChild cmp (updateChild cmp n (p ++ q) v) p = updateChild cmp (FNode.getChild cmp n p) q v := by
  induction p generalizing n with
  | nil => rfl
  | cons k p ih =>
    obtain ⟨kids, hk, rfl, hsorted, hrest⟩ := h.exists_kids
    rw [List.cons_append, updateChild_cons kids hk, getChild_cons cmp _ hk, getChild_cons cmp _ hk,
      getImmediateChild_setKid_self hsorted hk (proper_updateChild cmp hv _ _)]
    exact ih hrest

/-- **Two updates, the second one at or below the first**, are one. -/
theorem updateChild_updateChild_below (h : Open cmp n p) (hv : Proper v) :
    updateChild cmp (updateChild cmp n p v) (p ++ q) w = updateChild cmp n p (updateChild cmp v q w) := by
  induction p generalizing n with
  | nil => rfl
  | cons k p ih =>
    obtain ⟨kids, hk, rfl, hsorted, hrest⟩ := h.exists_kids
    rw [List.cons_append, updateChild_cons kids hk, updateChild_cons _ hk, updateChild_cons kids hk,
      getImmediateChild_setKid_self hsorted hk (proper_updateChild cmp hv _ _), setKid_setKid hsorted, ih hrest]

/-- **An update above shadows** one below it. -/
theorem updateChild_updateChild_above (h : Open cmp n p) (hw : Proper w) :
    updateChild cmp (updateChild cmp n (p ++ q) w) p v = updateChild cmp n p v := by
  induction p generalizing n with
  | nil => rfl
  | cons k p ih =>
    obtain ⟨kids, hk, rfl, hsorted, hrest⟩ := h.exists_kids
    rw [List.cons_append, updateChild_cons kids hk, updateChild_cons _ hk, updateChild_cons kids hk,
      getImmediateChild_setKid_self hsorted hk (proper_updateChild cmp hw _ _), setKid_setKid hsorted, ih hrest]

/-- **Updates at places apart commute.** -/
theorem updateChild_comm (hp : Open cmp n p) (hq : Open cmp n q) (ha : Apart p q) (hv : Proper v)
    (hw : Proper w) :
    updateChild cmp (updateChild cmp n p v) q w = updateChild cmp (updateChild cmp n q w) p v := by
  induction p generalizing n q with
  | nil => exact absurd ha not_apart_nil
  | cons k p ih =>
    rcases q with _ | ⟨k', q⟩
    · exact absurd ha.symm not_apart_nil
    · obtain ⟨kids, hk, rfl, hsorted, hp⟩ := hp.exists_kids
      obtain ⟨hk', _, -, hq⟩ := hq
      rw [updateChild_cons kids hk, updateChild_cons _ hk', updateChild_cons kids hk', updateChild_cons _ hk]
      by_cases heq : k = k'
      · -- below one child: the last of the two puts it back
        subst heq
        rw [getImmediateChild_setKid_self hsorted hk (proper_updateChild cmp hv _ _),
          getImmediateChild_setKid_self hsorted hk (proper_updateChild cmp hw _ _), setKid_setKid hsorted,
          setKid_setKid hsorted, ih hp hq ((apart_cons_iff.mp ha).resolve_left (not_not.mpr rfl))]
      · rw [getImmediateChild_setKid_of_ne hsorted (Ne.symm heq), getImmediateChild_setKid_of_ne hsorted heq,
          setKid_comm hsorted (Ne.symm heq)]

/-- An update keeps the paths open that do not lead through it. -/
theorem Open.updateChild (hp : Open cmp n p) (hq : Open cmp n q) (hv : Proper v)
    (h : Apart p q ∨ q <+: p) : Open cmp (updateChild cmp n p v) q := by
  induction p generalizing n q with
  | nil =>
    rcases h with ha | hpre
    · exact absurd ha not_apart_nil
    · rw [List.prefix_nil.mp hpre]
      exact trivial
  | cons k p ih =>
    rcases q with _ | ⟨k', q⟩
    · exact trivial
    · obtain ⟨kids, hk, rfl, hsorted, hp⟩ := hp.exists_kids
      obtain ⟨hk', _, -, hq⟩ := hq
      rw [updateChild_cons kids hk]
      refine ⟨hk', rfl, sorted_setKid hsorted, ?_⟩
      by_cases heq : k = k'
      · subst heq
        rw [getImmediateChild_setKid_self hsorted hk (proper_updateChild cmp hv _ _)]
        refine ih hp hq ?_
        rcases h with ha | hpre
        · exact Or.inl ((apart_cons_iff.mp ha).resolve_left (not_not.mpr rfl))
        · exact Or.inr (List.cons_prefix_cons.mp hpre).2
      · rw [getImmediateChild_setKid_of_ne hsorted (Ne.symm heq)]
        exact hq

end Laws

/-! ## Nodes in order -/

/-- The children are in order on every level. -/
inductive Ordered (cmp : κ → κ → Ordering) : FNode κ ν → Prop
  | leaf (value : ν) (priority : Option ν) : Ordered cmp (.leaf value priority)
  | children (priority : Option ν) (kids : List (κ × FNode κ ν)) (sorted : Sorted cmp kids)
      (below : ∀ x ∈ kids, Ordered cmp x.2) : Ordered cmp (.children priority kids)

section Ordered

variable {c : FNode κ ν}

omit [DecidableEq κ] [PriorityKey κ] in
theorem ordered_emptyNode : Ordered cmp (emptyNode : FNode κ ν) :=
  .children none [] SortedAssoc.sorted_nil fun _ h => absurd h List.not_mem_nil

omit [DecidableEq κ] [PriorityKey κ] in
theorem ordered_getPriority (n : FNode κ ν) : Ordered cmp (getPriority n) := by
  have hnode : ∀ p : Option ν, Ordered cmp (priorityNode p : FNode κ ν) := by
    rintro (_ | value)
    · exact ordered_emptyNode
    · exact .leaf value none
  cases n with
  | leaf value priority => exact hnode priority
  | children priority kids => exact hnode priority

omit [DecidableEq κ] [PriorityKey κ] in
theorem Ordered.updatePriority (h : Ordered cmp n) (p : FNode κ ν) : Ordered cmp (updatePriority p n) := by
  cases h with
  | leaf value priority => exact .leaf value _
  | children priority kids sorted below =>
    rw [FNode.updatePriority]
    split_ifs
    · exact ordered_emptyNode
    · exact .children _ kids sorted below

variable [Std.TransCmp cmp] [Std.LawfulEqCmp cmp]

theorem Ordered.getImmediateChild (h : Ordered cmp n) (k : κ) : Ordered cmp (getImmediateChild cmp k n) := by
  by_cases hk : k = dotPriority
  · rw [hk, getImmediateChild_priority]
    exact ordered_getPriority n
  · cases h with
    | leaf value priority =>
      rw [getImmediateChild_leaf_of_ne hk]
      exact ordered_emptyNode
    | children priority kids sorted below =>
      rw [getImmediateChild_of_ne hk]
      rcases hc : SortedAssoc.lookup cmp k kids with _ | c
      · exact ordered_emptyNode
      · exact below (k, c) ((SortedAssoc.lookup_eq_some_iff sorted).mp hc)

theorem Ordered.getChild (h : Ordered cmp n) (p : List κ) : Ordered cmp (FNode.getChild cmp n p) := by
  induction p generalizing n with
  | nil => rwa [FNode.getChild]
  | cons k p ih =>
    cases n with
    | leaf value priority =>
      rw [FNode.getChild]
      split_ifs
      · exact ordered_getPriority _
      · exact ordered_emptyNode
    | children priority kids => exact ih (h.getImmediateChild k)

omit [DecidableEq κ] [PriorityKey κ] in
theorem mem_setKid {kids : List (κ × FNode κ ν)} (hs : Sorted cmp kids) {x : κ × FNode κ ν}
    (hx : x ∈ setKid cmp k c kids) : x.2 = c ∨ x ∈ kids := by
  have hlook := (SortedAssoc.lookup_eq_some_iff (sorted_setKid hs) (k := x.1) (v := x.2)).mpr hx
  rw [lookup_setKid hs] at hlook
  split_ifs at hlook
  · exact Or.inl (Option.some.inj hlook).symm
  · exact Or.inr ((SortedAssoc.lookup_eq_some_iff hs).mp hlook)

theorem Ordered.updateImmediateChild (h : Ordered cmp n) (hc : Ordered cmp c) (k : κ) :
    Ordered cmp (updateImmediateChild cmp k c n) := by
  have hkids : ∀ {kids : List (κ × FNode κ ν)} (p : Option ν), Sorted cmp kids → (∀ x ∈ kids, Ordered cmp x.2) →
      Ordered cmp (.children p (setKid cmp k c kids)) := by
    intro kids p sorted below
    refine .children _ _ (sorted_setKid sorted) fun x hx => ?_
    rcases mem_setKid sorted hx with hx | hx
    · exact hx ▸ hc
    · exact below x hx
  by_cases hk : k = dotPriority
  · rw [hk, updateImmediateChild_priority]
    exact h.updatePriority c
  · cases h with
    | leaf value priority =>
      rw [updateImmediateChild_leaf_of_ne hk]
      split_ifs
      · exact .leaf value priority
      · exact (hkids none SortedAssoc.sorted_nil fun _ h => absurd h List.not_mem_nil).updatePriority _
    | children priority kids sorted below =>
      rw [updateImmediateChild_of_ne hk]
      split_ifs
      · exact ordered_emptyNode
      · exact hkids priority sorted below

/-- **An update keeps the order.** -/
theorem Ordered.updateChild (h : Ordered cmp n) (hv : Ordered cmp v) (p : List κ) :
    Ordered cmp (updateChild cmp n p v) := by
  induction p generalizing n with
  | nil =>
    rw [FNode.updateChild]
    exact hv
  | cons k p ih =>
    cases n with
    | leaf value priority =>
      rw [FNode.updateChild]
      split_ifs
      · exact h
      · exact h.updateImmediateChild (ih ordered_emptyNode) k
    | children priority kids =>
      rw [FNode.updateChild]
      exact h.updateImmediateChild (ih (h.getImmediateChild k)) k

/-- A child that is set is read back, whatever the node is. -/
theorem Ordered.getImmediateChild_update (h : Ordered cmp n) (hc : Proper c) (hk : k ≠ dotPriority) :
    FNode.getImmediateChild cmp k (FNode.updateImmediateChild cmp k c n) = c := by
  cases h with
  | leaf value priority =>
    rw [updateImmediateChild_leaf_of_ne hk]
    split_ifs with hempty
    · rw [getImmediateChild_leaf_of_ne hk]
      exact (hc hempty).symm
    · rw [FNode.updatePriority]
      have hself : FNode.getImmediateChild cmp k (.children none (setKid cmp k c [])) = c :=
        getImmediateChild_setKid_self SortedAssoc.sorted_nil hk hc none
      split_ifs with hnil
      · rw [List.isEmpty_iff.mp hnil] at hself
        exact hself
      · exact getImmediateChild_setKid_self SortedAssoc.sorted_nil hk hc _
  | children priority kids sorted below =>
    rw [updateImmediateChild_of_ne hk]
    split_ifs with hnil
    · have hself : FNode.getImmediateChild cmp k (.children none (setKid cmp k c kids)) = c :=
        getImmediateChild_setKid_self sorted hk hc none
      rw [List.isEmpty_iff.mp hnil] at hself
      exact hself
    · exact getImmediateChild_setKid_self sorted hk hc priority

/-- The other children are those before. -/
theorem Ordered.getImmediateChild_update_of_ne (h : Ordered cmp n) {k' : κ} (hk : k ≠ dotPriority)
    (hk' : k' ≠ dotPriority) (hne : k' ≠ k) (c : FNode κ ν) :
    FNode.getImmediateChild cmp k' (FNode.updateImmediateChild cmp k c n) = FNode.getImmediateChild cmp k' n := by
  -- but for the priority, which is lost with the last child, and no child
  have hlost : ∀ {kids : List (κ × FNode κ ν)} (p : Option ν), Sorted cmp kids →
      (setKid cmp k c kids).isEmpty = true → FNode.getImmediateChild cmp k' (.children p kids) = emptyNode := by
    intro kids p sorted hnil
    rw [← getImmediateChild_setKid_of_ne sorted hne p, List.isEmpty_iff.mp hnil, getImmediateChild_of_ne hk']
    rfl
  cases h with
  | leaf value priority =>
    rw [updateImmediateChild_leaf_of_ne hk, getImmediateChild_leaf_of_ne hk']
    split_ifs with hempty
    · exact getImmediateChild_leaf_of_ne hk' _ _
    · rw [FNode.updatePriority]
      split_ifs with hnil
      · exact getImmediateChild_emptyNode cmp k'
      · rw [getImmediateChild_setKid_of_ne SortedAssoc.sorted_nil hne, getImmediateChild_of_ne hk']
        rfl
  | children priority kids sorted below =>
    rw [updateImmediateChild_of_ne hk]
    split_ifs with hnil
    · rw [hlost priority sorted hnil]
      exact getImmediateChild_emptyNode cmp k'
    · exact getImmediateChild_setKid_of_ne sorted hne priority

omit [Std.TransCmp cmp] [Std.LawfulEqCmp cmp] in
theorem updateChild_emptyNode (p : List κ) : updateChild cmp (emptyNode : FNode κ ν) p emptyNode = emptyNode := by
  induction p with
  | nil => rfl
  | cons k p ih =>
    show FNode.updateImmediateChild cmp k
      (FNode.updateChild cmp (FNode.getImmediateChild cmp k emptyNode) p emptyNode) emptyNode = emptyNode
    rw [getImmediateChild_emptyNode, ih]
    by_cases hk : k = dotPriority
    · rw [hk, updateImmediateChild_priority]
      rfl
    · exact updateImmediateChild_of_ne hk none []

/-- An update below a child is an update of that child. -/
theorem Ordered.getImmediateChild_updateChild (h : Ordered cmp n) (hv : Proper v) (hk : k ≠ dotPriority) (p : List κ) :
    FNode.getImmediateChild cmp k (FNode.updateChild cmp n (k :: p) v)
      = FNode.updateChild cmp (FNode.getImmediateChild cmp k n) p v := by
  have hproper : Proper (FNode.updateChild cmp (FNode.getImmediateChild cmp k n) p v) := proper_updateChild cmp hv _ p
  cases n with
  | leaf value priority =>
    rw [getImmediateChild_leaf_of_ne hk] at hproper ⊢
    rw [FNode.updateChild]
    split_ifs with hempty
    · -- nothing is written below a leaf
      rw [Bool.and_eq_true] at hempty
      rw [hv hempty.1, getImmediateChild_leaf_of_ne hk]
      exact (updateChild_emptyNode p).symm
    · exact h.getImmediateChild_update hproper hk
  | children priority kids =>
    rw [FNode.updateChild]
    exact h.getImmediateChild_update hproper hk

/-- **An update below a place** is an update of what is there, on any node in order. -/
theorem Ordered.getChild_updateChild_below (h : Ordered cmp n) (hv : Proper v) (hp : Plain p) (q : List κ) :
    FNode.getChild cmp (FNode.updateChild cmp n (p ++ q) v) p = FNode.updateChild cmp (FNode.getChild cmp n p) q v := by
  induction p generalizing n with
  | nil => rw [List.nil_append, FNode.getChild, FNode.getChild]
  | cons k p ih =>
    obtain ⟨hk, hp⟩ := plain_cons_iff.mp hp
    rw [List.cons_append, getChild_cons cmp _ hk, getChild_cons cmp _ hk, h.getImmediateChild_updateChild hv hk]
    exact ih (h.getImmediateChild k) hp

/-- **Elsewhere** an update is not seen, on any node in order. -/
theorem Ordered.getChild_updateChild_of_apart (h : Ordered cmp n) (hv : Proper v) (hp : Plain p) (hq : Plain q)
    (ha : Apart p q) : FNode.getChild cmp (FNode.updateChild cmp n p v) q = FNode.getChild cmp n q := by
  induction p generalizing n q with
  | nil => exact absurd ha not_apart_nil
  | cons k p ih =>
    rcases q with _ | ⟨k', q⟩
    · exact absurd ha.symm not_apart_nil
    · obtain ⟨hk, hrest⟩ := plain_cons_iff.mp hp
      obtain ⟨hk', hrest'⟩ := plain_cons_iff.mp hq
      rw [getChild_cons cmp _ hk', getChild_cons cmp _ hk']
      by_cases heq : k' = k
      · subst heq
        rw [h.getImmediateChild_updateChild hv hk]
        exact ih (h.getImmediateChild k') hrest hrest' ((apart_cons_iff.mp ha).resolve_left (not_not.mpr rfl))
      · congr 1
        cases n with
        | leaf value priority =>
          rw [FNode.updateChild]
          split_ifs
          · rfl
          · exact h.getImmediateChild_update_of_ne hk hk' heq _
        | children priority kids =>
          rw [FNode.updateChild]
          exact h.getImmediateChild_update_of_ne hk hk' heq _

end Ordered

end FNode

end TerpBuilder.Sync
