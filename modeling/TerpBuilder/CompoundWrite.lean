/-
`FCompoundWrite`: several writes, combined into one.

A compound write keeps a node at each path that it writes, and no node below
another: a write below one that is there goes into its node, a write above takes
its place. Applying it to a snapshot should be the same as performing the writes
one after the other, and that is proved here, for a snapshot on which the paths
are open.

A priority is not among these writes. It is held back until the other children of
its node are written, and so it is set last, whenever it was written.
-/
import TerpBuilder.SnapshotNode
import TerpBuilder.ImmutableTree
import Mathlib.Data.List.Nodup

set_option autoImplicit false

namespace TerpBuilder.Sync

open PriorityKey (dotPriority)
open FUtilities (Name)
open FNode (Open Proper Plain Apart updateChild getChild emptyNode)

/-! ## Writes one after the other -/

section Layer

variable {κ ν : Type} {cmp : κ → κ → Ordering}

/-- No path leads to another. -/
def Separate (ws : List (List κ × FNode κ ν)) : Prop := ws.Pairwise fun x y => Apart x.1 y.1

theorem Separate.perm {ws ws' : List (List κ × FNode κ ν)} (hs : Separate ws) (hp : ws.Perm ws') : Separate ws' :=
  List.Pairwise.perm hs hp fun h => h.symm

variable [DecidableEq κ] [PriorityKey κ]

/-- A snapshot after some writes. -/
def layer (cmp : κ → κ → Ordering) (ws : List (List κ × FNode κ ν)) (n : FNode κ ν) : FNode κ ν :=
  ws.foldl (fun n x => updateChild cmp n x.1 x.2) n

/-- The paths are open on the snapshot, and the nodes are proper. -/
def Fits (cmp : κ → κ → Ordering) (n : FNode κ ν) (ws : List (List κ × FNode κ ν)) : Prop :=
  ∀ x ∈ ws, Open cmp n x.1 ∧ Proper x.2

theorem layer_append (ws ws' : List (List κ × FNode κ ν)) (n : FNode κ ν) :
    layer cmp (ws ++ ws') n = layer cmp ws' (layer cmp ws n) := List.foldl_append

theorem layer_cons (x : List κ × FNode κ ν) (ws : List (List κ × FNode κ ν)) (n : FNode κ ν) :
    layer cmp (x :: ws) n = layer cmp ws (updateChild cmp n x.1 x.2) := rfl

theorem layer_concat (ws : List (List κ × FNode κ ν)) (x : List κ × FNode κ ν) (n : FNode κ ν) :
    layer cmp (ws ++ [x]) n = updateChild cmp (layer cmp ws n) x.1 x.2 := layer_append ws [x] n

variable {n : FNode κ ν} {p : List κ} {ws ws' : List (List κ × FNode κ ν)} {x : List κ × FNode κ ν}

theorem Fits.plain (h : Fits cmp n ws) : ∀ x ∈ ws, Plain x.1 := fun x hx => (h x hx).1.plain

theorem Fits.subset (h : Fits cmp n ws) (hsub : ws' ⊆ ws) : Fits cmp n ws' := fun x hx => h x (hsub hx)

theorem proper_layer (hn : Proper n) (hws : ∀ x ∈ ws, Proper x.2) :
    Proper (layer cmp ws n) := by
  induction ws generalizing n with
  | nil => exact hn
  | cons x ws ih =>
    exact ih (FNode.proper_updateChild cmp (hws x List.mem_cons_self) n x.1)
      fun y hy => hws y (List.mem_cons_of_mem x hy)

variable [Std.TransCmp cmp] [Std.LawfulEqCmp cmp]

/-- One write leaves the other paths open. -/
theorem Fits.step (h : Fits cmp n (x :: ws)) (hs : Separate (x :: ws)) :
    Fits cmp (updateChild cmp n x.1 x.2) ws := by
  intro y hy
  obtain ⟨hx, hproper⟩ := h x List.mem_cons_self
  obtain ⟨hopen, hy'⟩ := h y (List.mem_cons_of_mem x hy)
  exact ⟨hx.updateChild hopen hproper (Or.inl ((List.pairwise_cons.mp hs).1 y hy)), hy'⟩

/-- A path stays open that does not lead through what is written. -/
theorem open_layer (h : Fits cmp n ws) (hs : Separate ws) (hp : Open cmp n p)
    (hout : ∀ x ∈ ws, Apart x.1 p ∨ p <+: x.1) : Open cmp (layer cmp ws n) p := by
  induction ws generalizing n with
  | nil => exact hp
  | cons x ws ih =>
    obtain ⟨hx, hproper⟩ := h x List.mem_cons_self
    have hp' := hx.updateChild hp hproper (hout x List.mem_cons_self)
    exact ih (h.step hs) (List.pairwise_cons.mp hs).2 hp' fun y hy => hout y (List.mem_cons_of_mem x hy)

theorem Fits.layer (h : Fits cmp n (ws ++ ws')) (hs : Separate (ws ++ ws')) : Fits cmp (layer cmp ws n) ws' := by
  obtain ⟨hws, hws', hcross⟩ := List.pairwise_append.mp hs
  intro y hy
  obtain ⟨hopen, hproper⟩ := h y (List.mem_append_right ws hy)
  refine ⟨open_layer (fun x hx => h x (List.mem_append_left ws' hx)) hws hopen fun x hx => ?_, hproper⟩
  exact Or.inl (hcross x hx y hy)

/-- **Writes apart from each other can be performed in any order.** -/
theorem layer_perm (hperm : ws.Perm ws') (h : Fits cmp n ws) (hs : Separate ws) :
    layer cmp ws n = layer cmp ws' n := by
  induction hperm generalizing n with
  | nil => rfl
  | cons x _ ih => exact ih (h.step hs) (List.pairwise_cons.mp hs).2
  | swap x y l =>
    obtain ⟨hy, hyproper⟩ := h y List.mem_cons_self
    obtain ⟨hx, hxproper⟩ := h x (List.mem_cons_of_mem y List.mem_cons_self)
    have hapart : Apart y.1 x.1 := (List.pairwise_cons.mp hs).1 x List.mem_cons_self
    rw [layer_cons, layer_cons, layer_cons, layer_cons, FNode.updateChild_comm hy hx hapart hyproper hxproper]
  | trans hp _ ih ih' =>
    exact (ih h hs).trans (ih' (h.subset hp.symm.subset) (hs.perm hp))

/-- A write shadows those below it. -/
theorem updateChild_layer_below (h : Fits cmp n ws) (hs : Separate ws) (hp : Open cmp n p)
    (hbelow : ∀ x ∈ ws, p <+: x.1) (v : FNode κ ν) :
    updateChild cmp (layer cmp ws n) p v = updateChild cmp n p v := by
  induction ws generalizing n with
  | nil => rfl
  | cons x ws ih =>
    obtain ⟨hx, hproper⟩ := h x List.mem_cons_self
    have hpx := hbelow x List.mem_cons_self
    have hp' := hx.updateChild hp hproper (Or.inr hpx)
    rw [layer_cons, ih (h.step hs) (List.pairwise_cons.mp hs).2 hp' fun y hy => hbelow y (List.mem_cons_of_mem x hy)]
    obtain ⟨q, hq⟩ := hpx
    rw [← hq]
    exact FNode.updateChild_updateChild_above hp hproper

/-- Writes apart from a place do not show there. -/
theorem getChild_layer_of_apart (h : Fits cmp n ws) (hs : Separate ws) (hout : ∀ x ∈ ws, Apart x.1 p) :
    getChild cmp (layer cmp ws n) p = getChild cmp n p := by
  induction ws generalizing n with
  | nil => rfl
  | cons x ws ih =>
    obtain ⟨hx, hproper⟩ := h x List.mem_cons_self
    rw [layer_cons, ih (h.step hs) (List.pairwise_cons.mp hs).2 fun y hy => hout y (List.mem_cons_of_mem x hy)]
    exact FNode.getChild_updateChild_of_apart hx hproper (hout x List.mem_cons_self)

/-- Writes at or below a place are writes to what is there. -/
theorem getChild_layer_below {below : List (List κ × FNode κ ν)}
    (h : Fits cmp n (below.map fun x => (p ++ x.1, x.2)))
    (hs : Separate (below.map fun x => (p ++ x.1, x.2))) :
    getChild cmp (layer cmp (below.map fun x => (p ++ x.1, x.2)) n) p = layer cmp below (getChild cmp n p) := by
  induction below generalizing n with
  | nil => rfl
  | cons x below ih =>
    rw [List.map_cons] at h hs
    obtain ⟨hx, hproper⟩ := h _ List.mem_cons_self
    rw [List.map_cons, layer_cons, ih (h.step hs) (List.pairwise_cons.mp hs).2, layer_cons,
      FNode.getChild_updateChild_below hx hproper]

end Layer

/-! ## `FCompoundWrite` -/

structure FCompoundWrite (κ ν : Type) where
  writeTree : FImmutableTree κ (FNode κ ν)

/-- `relativePathFrom:to:` of `FPath`. It throws where `outer` does not contain
`inner`, and no caller here lets it. -/
def relativePathFrom {κ : Type} (outer inner : List κ) : List κ := inner.drop outer.length

namespace FCompoundWrite

variable {κ ν : Type}

def emptyWrite : FCompoundWrite κ ν := ⟨.withValue none⟩

def isEmpty (self : FCompoundWrite κ ν) : Bool := self.writeTree.isEmpty

/-- The writes in the order of `enumerateWrites`. -/
def writes (self : FCompoundWrite κ ν) : List (List κ × FNode κ ν) := self.writeTree.forEach

-- `cmp` is the order of the children of a node, `keyComparator`; `scmp` that of
-- the children of a tree, `stringComparator`
variable (cmp scmp : κ → κ → Ordering)

section Operations

variable [DecidableEq κ] [PriorityKey κ]

def addWrite (self : FCompoundWrite κ ν) (node : FNode κ ν) (path : List κ) : FCompoundWrite κ ν :=
  if path.isEmpty then ⟨.withValue (some node)⟩
  else match self.writeTree.findRootMostValueAndPath scmp path with
    | some (rootMostPath, rootMostValue) =>
      let relativePath := relativePathFrom rootMostPath path
      let value := updateChild cmp rootMostValue relativePath node
      ⟨FImmutableTree.setValue scmp (some value) self.writeTree rootMostPath⟩
    | none => ⟨FImmutableTree.setTree scmp (.withValue (some node)) self.writeTree path⟩

def addCompoundWrite (self compoundWrite : FCompoundWrite κ ν) (path : List κ) : FCompoundWrite κ ν :=
  compoundWrite.writes.foldl (fun newWrite x => newWrite.addWrite cmp scmp x.2 (path ++ x.1)) self

def removeWriteAtPath (self : FCompoundWrite κ ν) (path : List κ) : FCompoundWrite κ ν :=
  if path.isEmpty then emptyWrite
  else ⟨FImmutableTree.setTree scmp .empty self.writeTree path⟩

def completeNodeAtPath (self : FCompoundWrite κ ν) (path : List κ) : Option (FNode κ ν) :=
  match self.writeTree.findRootMostValueAndPath scmp path with
  | some (rootMostPath, rootMostValue) => some (getChild cmp rootMostValue (relativePathFrom rootMostPath path))
  | none => none

def hasCompleteWriteAtPath (self : FCompoundWrite κ ν) (path : List κ) : Bool :=
  (self.completeNodeAtPath cmp scmp path).isSome

def childCompoundWriteAtPath (self : FCompoundWrite κ ν) (path : List κ) : FCompoundWrite κ ν :=
  if path.isEmpty then self
  else match self.completeNodeAtPath cmp scmp path with
    | some shadowingNode => ⟨.withValue (some shadowingNode)⟩
    | none => ⟨self.writeTree.subtreeAtPath scmp path⟩

mutual

def applySubtreeWrite (relativePath : List κ) (node : FNode κ ν) : FImmutableTree κ (FNode κ ν) → FNode κ ν
  | .node (some value) _ => updateChild cmp node relativePath value
  | .node none children =>
    match applyChildren relativePath node none children with
    | (blockNode, some priorityWrite) =>
      -- an empty node takes no priority
      if (getChild cmp blockNode relativePath).isEmpty then blockNode
      else updateChild cmp blockNode (relativePath ++ [dotPriority]) priorityWrite
    | (blockNode, none) => blockNode

/-- The enumeration of the children: `blockNode` and `priorityWrite`, which is held
back. "Priority writes must always be leaf nodes" is an assertion. -/
def applyChildren (relativePath : List κ) (blockNode : FNode κ ν) (priorityWrite : Option (FNode κ ν)) :
    List (κ × FImmutableTree κ (FNode κ ν)) → FNode κ ν × Option (FNode κ ν)
  | [] => (blockNode, priorityWrite)
  | (childKey, childTree) :: children =>
    if childKey = dotPriority then applyChildren relativePath blockNode childTree.value children
    else
      let blockNode := applySubtreeWrite (relativePath ++ [childKey]) blockNode childTree
      applyChildren relativePath blockNode priorityWrite children

end

def applyToNode (self : FCompoundWrite κ ν) (node : FNode κ ν) : FNode κ ν :=
  applySubtreeWrite cmp [] node self.writeTree

end Operations

/-! ## Well formed compound writes -/

/-- A tree of writes, of nodes as the constructors allow them. -/
structure Wf (w : FCompoundWrite κ ν) : Prop where
  tree : w.writeTree.Wf scmp
  proper : ∀ p v, w.writeTree.valueAtPath scmp p = some v → Proper v

theorem wf_emptyWrite : Wf scmp (emptyWrite : FCompoundWrite κ ν) where
  tree := FImmutableTree.wf_empty scmp
  proper p v h := by
    have hnone := FImmutableTree.valueAtPath_empty (α := FNode κ ν) scmp p
    exact absurd (hnone.symm.trans h) (by simp)

theorem valueAtPath_withValue (v : FNode κ ν) (q : List κ) :
    FImmutableTree.valueAtPath scmp (.withValue (some v)) q = if q.isEmpty then some v else none := by
  cases q <;> rfl

theorem wf_withValue {v : FNode κ ν} (hv : Proper v) : Wf scmp (⟨.withValue (some v)⟩ : FCompoundWrite κ ν) where
  tree := .value v
  proper q w h := by
    rw [valueAtPath_withValue] at h
    split_ifs at h
    exact Option.some.inj h ▸ hv

variable {cmp scmp} {self : FCompoundWrite κ ν} {p q r : List κ} {u v : FNode κ ν} {n : FNode κ ν}

/-- There is no write at the path or above it. -/
def NoneOn (scmp : κ → κ → Ordering) (self : FCompoundWrite κ ν) (p : List κ) : Prop :=
  ∀ q, q <+: p → self.writeTree.valueAtPath scmp q = none

theorem NoneOn.findRootMost (h : NoneOn scmp self p) : self.writeTree.findRootMostValueAndPath scmp p = none := by
  rcases hfound : self.writeTree.findRootMostValueAndPath scmp p with _ | x
  · rfl
  · obtain ⟨hq, hv⟩ := FImmutableTree.of_findRootMost_eq_some hfound
    exact absurd ((h _ hq).symm.trans hv) (by simp)

/-- Either a value lies on the way to a path, or there is none. -/
theorem exists_value_or_noneOn (scmp : κ → κ → Ordering) (self : FCompoundWrite κ ν) (p : List κ) :
    (∃ q r u, p = q ++ r ∧ self.writeTree.valueAtPath scmp q = some u) ∨ NoneOn scmp self p := by
  rcases hfound : self.writeTree.findRootMostValueAndPath scmp p with _ | ⟨q, u⟩
  · exact Or.inr fun q hq => FImmutableTree.of_findRootMost_eq_none hfound hq
  · obtain ⟨⟨r, hr⟩, hv⟩ := FImmutableTree.of_findRootMost_eq_some hfound
    exact Or.inl ⟨q, r, u, hr.symm, hv⟩

theorem removeWriteAtPath_eq (w : FCompoundWrite κ ν) (p : List κ) :
    w.removeWriteAtPath scmp p = ⟨FImmutableTree.setTree scmp .empty w.writeTree p⟩ := by
  rcases p with _ | ⟨k, p⟩ <;> rfl

section Lawful

variable [Std.TransCmp scmp] [Std.LawfulEqCmp scmp]

theorem mem_writes (h : Wf scmp self) {x : List κ × FNode κ ν} :
    x ∈ self.writes ↔ self.writeTree.valueAtPath scmp x.1 = some x.2 := FImmutableTree.mem_forEach h.tree x

theorem ext_of_values {w w' : FCompoundWrite κ ν} (h : Wf scmp w) (h' : Wf scmp w')
    (heq : ∀ q, w.writeTree.valueAtPath scmp q = w'.writeTree.valueAtPath scmp q) : w = w' :=
  congrArg FCompoundWrite.mk (h.tree.ext h'.tree heq)

/-- **The writes of a compound write are apart from each other.** -/
theorem separate_writes (h : Wf scmp self) : Separate self.writes := by
  refine (FImmutableTree.nodup_forEach h.tree).imp_of_mem ?_
  have hsame : ∀ x ∈ self.writes, ∀ y ∈ self.writes, x ≠ y → ¬ x.1 <+: y.1 := by
    rintro ⟨p, u⟩ hx ⟨q, v⟩ hy hne ⟨r, rfl⟩
    have hu := (mem_writes h).mp hx
    have hv := (mem_writes h).mp hy
    obtain rfl := h.tree.eq_nil_of_below hu hv
    rw [List.append_nil] at hv hne
    exact hne (Prod.ext rfl (Option.some.inj (hu.symm.trans hv)))
  intro x y hx hy hne
  exact ⟨hsame x hx y hy hne, hsame y hy x hx (Ne.symm hne)⟩

/-- The root-most value on the way to a path below a value is that value. -/
theorem findRootMost_eq_some (h : Wf scmp self) (hp : self.writeTree.valueAtPath scmp p = some u) (r : List κ) :
    self.writeTree.findRootMostValueAndPath scmp (p ++ r) = some (p, u) := by
  rcases hfound : self.writeTree.findRootMostValueAndPath scmp (p ++ r) with _ | ⟨q, v⟩
  · have hnone := FImmutableTree.of_findRootMost_eq_none hfound (List.prefix_append p r)
    exact absurd (hnone.symm.trans hp) (by simp)
  · obtain ⟨hq, hv⟩ := FImmutableTree.of_findRootMost_eq_some hfound
    -- of two prefixes one leads to the other, and both have a value
    have heq : q = p := by
      rcases List.prefix_or_prefix_of_prefix hq (List.prefix_append p r) with ⟨s, rfl⟩ | ⟨s, rfl⟩
      · rw [h.tree.eq_nil_of_below hv hp, List.append_nil]
      · rw [h.tree.eq_nil_of_below hp hv, List.append_nil]
    subst heq
    rw [hp] at hv
    rw [Option.some.inj hv]

theorem wf_subtreeAtPath (h : Wf scmp self) (p : List κ) :
    Wf scmp (⟨self.writeTree.subtreeAtPath scmp p⟩ : FCompoundWrite κ ν) where
  tree := h.tree.subtreeAtPath p
  proper q v hv := by
    rw [FImmutableTree.valueAtPath_subtreeAtPath] at hv
    exact h.proper _ v hv

section Writes

variable [DecidableEq κ]

/-- A removal takes out what is at the path and below. -/
theorem valueAtPath_removeWriteAtPath (h : Wf scmp self) (p q : List κ) :
    (self.removeWriteAtPath scmp p).writeTree.valueAtPath scmp q =
      if p <+: q then none else self.writeTree.valueAtPath scmp q := by
  rw [removeWriteAtPath_eq, FImmutableTree.valueAtPath_setTree h.tree, FImmutableTree.valueAtPath_empty]

theorem wf_removeWriteAtPath (h : Wf scmp self) (p : List κ) : Wf scmp (self.removeWriteAtPath scmp p) := by
  refine ⟨?_, fun q v hv => ?_⟩
  · rw [removeWriteAtPath_eq]
    exact h.tree.setTree (FImmutableTree.wf_empty scmp) (Or.inr rfl)
  · rw [valueAtPath_removeWriteAtPath h] at hv
    split_ifs at hv
    exact h.proper q v hv

/-- The writes other than the one at a path. -/
theorem writes_perm_cons (h : Wf scmp self) (hp : self.writeTree.valueAtPath scmp p = some u) :
    self.writes.Perm ((self.writes.filter fun x => x.1 ≠ p) ++ [(p, u)]) := by
  have hnodup : ((self.writes.filter fun x => x.1 ≠ p) ++ [(p, u)]).Nodup := by
    rw [List.nodup_append]
    refine ⟨(FImmutableTree.nodup_forEach h.tree).filter _, List.nodup_cons.mpr ⟨List.not_mem_nil, List.nodup_nil⟩, ?_⟩
    rintro x hx y hy rfl
    rw [List.mem_singleton.mp hy] at hx
    exact of_decide_eq_true (List.mem_filter.mp hx).2 rfl
  refine (List.perm_ext_iff_of_nodup (FImmutableTree.nodup_forEach h.tree) hnodup).mpr fun x => ?_
  rw [List.mem_append, List.mem_filter, List.mem_singleton]
  constructor
  · intro hx
    by_cases hxp : x.1 = p
    · refine Or.inr (Prod.ext hxp ?_)
      have hval := (mem_writes h).mp hx
      rw [hxp, hp] at hval
      exact (Option.some.inj hval).symm
    · exact Or.inl ⟨hx, decide_eq_true hxp⟩
  · rintro (⟨hx, -⟩ | rfl)
    · exact hx
    · exact (mem_writes h).mpr hp

/-- The writes below a path, and those apart from it. -/
theorem writes_perm_subtree (h : Wf scmp self) (p : List κ) :
    self.writes.Perm ((self.writes.filter fun x => ¬ p <+: x.1) ++
      (⟨self.writeTree.subtreeAtPath scmp p⟩ : FCompoundWrite κ ν).writes.map fun x => (p ++ x.1, x.2)) := by
  have hsub := wf_subtreeAtPath h p
  have hinj : Function.Injective fun x : List κ × FNode κ ν => (p ++ x.1, x.2) := by
    intro x y hxy
    obtain ⟨hpath, hval⟩ := Prod.mk.inj hxy
    exact Prod.ext (List.append_cancel_left hpath) hval
  have hbelow : ∀ x : List κ × FNode κ ν,
      (x ∈ (⟨self.writeTree.subtreeAtPath scmp p⟩ : FCompoundWrite κ ν).writes.map fun x => (p ++ x.1, x.2)) ↔
        p <+: x.1 ∧ x ∈ self.writes := by
    intro x
    rw [List.mem_map]
    constructor
    · rintro ⟨y, hy, rfl⟩
      have hval := (mem_writes hsub).mp hy
      rw [FImmutableTree.valueAtPath_subtreeAtPath] at hval
      exact ⟨List.prefix_append p y.1, (mem_writes h).mpr hval⟩
    · rintro ⟨⟨q, hq⟩, hx⟩
      refine ⟨(q, x.2), (mem_writes hsub).mpr ?_, Prod.ext hq rfl⟩
      rw [FImmutableTree.valueAtPath_subtreeAtPath, hq]
      exact (mem_writes h).mp hx
  have hnodup : ((self.writes.filter fun x => ¬ p <+: x.1) ++
      (⟨self.writeTree.subtreeAtPath scmp p⟩ : FCompoundWrite κ ν).writes.map fun x => (p ++ x.1, x.2)).Nodup := by
    rw [List.nodup_append]
    refine ⟨(FImmutableTree.nodup_forEach h.tree).filter _, List.Nodup.map hinj (FImmutableTree.nodup_forEach hsub.tree), ?_⟩
    rintro x hx y hy rfl
    exact of_decide_eq_true (List.mem_filter.mp hx).2 ((hbelow x).mp hy).1
  refine (List.perm_ext_iff_of_nodup (FImmutableTree.nodup_forEach h.tree) hnodup).mpr fun x => ?_
  rw [List.mem_append, List.mem_filter, hbelow, decide_eq_true_eq]
  by_cases hpre : p <+: x.1
  · simp only [hpre, not_true_eq_false, and_false, true_and, false_or]
    exact Iff.rfl
  · simp only [hpre, not_false_eq_true, and_true, false_and, or_false]
    exact Iff.rfl

end Writes

/-! ## One more write -/

variable [DecidableEq κ] [PriorityKey κ]

theorem completeNodeAtPath_of_value (h : Wf scmp self) (hp : self.writeTree.valueAtPath scmp p = some u) (r : List κ) :
    self.completeNodeAtPath cmp scmp (p ++ r) = some (getChild cmp u r) := by
  have hrel : relativePathFrom p (p ++ r) = r := List.drop_left
  rw [completeNodeAtPath, findRootMost_eq_some h hp]
  simp only [hrel]

/-- **A write below a value** changes that value only. -/
theorem valueAtPath_addWrite_below (h : Wf scmp self) (hp : self.writeTree.valueAtPath scmp p = some u)
    (v : FNode κ ν) (r q : List κ) :
    (self.addWrite cmp scmp v (p ++ r)).writeTree.valueAtPath scmp q =
      if q = p then some (updateChild cmp u r v) else self.writeTree.valueAtPath scmp q := by
  unfold addWrite
  by_cases hempty : (p ++ r).isEmpty = true
  · -- the whole write is one node, and the new one takes its place
    obtain ⟨rfl, rfl⟩ := List.append_eq_nil_iff.mp (List.isEmpty_iff.mp hempty)
    rw [if_pos hempty, valueAtPath_withValue]
    rcases q with _ | ⟨k, q⟩
    · rfl
    · rw [if_neg (List.cons_ne_nil k q)]
      rcases hv : self.writeTree.valueAtPath scmp (k :: q) with _ | w
      · rfl
      · exact absurd (h.tree.eq_nil_of_below (q := k :: q) hp hv) (List.cons_ne_nil k q)
  · rw [if_neg hempty, findRootMost_eq_some h hp]
    show FImmutableTree.valueAtPath scmp (FImmutableTree.setValue scmp _ _ _) _ = _
    rw [FImmutableTree.valueAtPath_setValue h.tree, relativePathFrom, List.drop_left]

/-- **A write where none is above** takes the place of those below. -/
theorem valueAtPath_addWrite_of_none (h : Wf scmp self) (hp : NoneOn scmp self p) (v : FNode κ ν) (q : List κ) :
    (self.addWrite cmp scmp v p).writeTree.valueAtPath scmp q =
      if p <+: q then (if q = p then some v else none) else self.writeTree.valueAtPath scmp q := by
  -- at and below the path the values are those of a tree with the one node
  have hnode : p <+: q → FImmutableTree.valueAtPath scmp (.withValue (some v)) (q.drop p.length)
      = if q = p then some v else none := by
    rintro ⟨s, rfl⟩
    rw [List.drop_left, valueAtPath_withValue]
    rcases s with _ | ⟨k, s⟩
    · simp
    · simp
  unfold addWrite
  by_cases hempty : p.isEmpty = true
  · obtain rfl := List.isEmpty_iff.mp hempty
    rw [if_pos hempty, if_pos List.nil_prefix, ← hnode List.nil_prefix]
    rfl
  · rw [if_neg hempty, hp.findRootMost]
    show FImmutableTree.valueAtPath scmp (FImmutableTree.setTree scmp _ _ _) _ = _
    rw [FImmutableTree.valueAtPath_setTree h.tree]
    by_cases hpre : p <+: q
    · rw [if_pos hpre, if_pos hpre, hnode hpre]
    · rw [if_neg hpre, if_neg hpre]

theorem wf_addWrite (h : Wf scmp self) (hv : Proper v) (p : List κ) : Wf scmp (self.addWrite cmp scmp v p) := by
  -- the values are those of the tree before and the new one
  refine ⟨?_, fun q w hw => ?_⟩
  · unfold addWrite
    split_ifs with hempty
    · exact .value v
    · split
      · rename_i q u hfound
        exact h.tree.setValue (FImmutableTree.of_findRootMost_eq_some hfound).2
      · rename_i hfound
        refine h.tree.setTree (.value v) (Or.inl fun q hq _ => ?_)
        exact FImmutableTree.of_findRootMost_eq_none hfound hq
  · rcases exists_value_or_noneOn scmp self p with ⟨q', r, u, rfl, hu⟩ | hnone
    · rw [valueAtPath_addWrite_below h hu] at hw
      split_ifs at hw
      · exact Option.some.inj hw ▸ FNode.proper_updateChild cmp hv u r
      · exact h.proper q w hw
    · rw [valueAtPath_addWrite_of_none h hnone] at hw
      split_ifs at hw
      · exact Option.some.inj hw ▸ hv
      · exact h.proper q w hw

/-- Several writes, one after the other. -/
def addWrites (cmp scmp : κ → κ → Ordering) (self : FCompoundWrite κ ν) (ws : List (List κ × FNode κ ν)) :
    FCompoundWrite κ ν :=
  ws.foldl (fun newWrite x => newWrite.addWrite cmp scmp x.2 x.1) self

omit [Std.TransCmp scmp] [Std.LawfulEqCmp scmp] in
theorem addCompoundWrite_eq (self w : FCompoundWrite κ ν) (p : List κ) :
    self.addCompoundWrite cmp scmp w p = self.addWrites cmp scmp (w.writes.map fun x => (p ++ x.1, x.2)) := by
  rw [addWrites, List.foldl_map]
  rfl

omit [Std.TransCmp scmp] [Std.LawfulEqCmp scmp] in
theorem addWrites_append (self : FCompoundWrite κ ν) (ws ws' : List (List κ × FNode κ ν)) :
    self.addWrites cmp scmp (ws ++ ws') = (self.addWrites cmp scmp ws).addWrites cmp scmp ws' := List.foldl_append

theorem wf_addWrites {ws : List (List κ × FNode κ ν)} (h : Wf scmp self) (hws : ∀ x ∈ ws, Proper x.2) :
    Wf scmp (self.addWrites cmp scmp ws) := by
  induction ws generalizing self with
  | nil => exact h
  | cons x ws ih =>
    exact ih (wf_addWrite h (hws x List.mem_cons_self) x.1) fun y hy => hws y (List.mem_cons_of_mem x hy)

/-- A write apart from a place is not above it. -/
theorem NoneOn.addWrite_of_apart (hq : NoneOn scmp self q) (h : Wf scmp self) (ha : Apart p q) (u : FNode κ ν) :
    NoneOn scmp (self.addWrite cmp scmp u p) q := by
  intro y hy
  rcases exists_value_or_noneOn scmp self p with ⟨p', r, w, rfl, hw⟩ | hp
  · rw [valueAtPath_addWrite_below h hw, if_neg, hq y hy]
    rintro rfl
    exact absurd ((hq y hy).symm.trans hw) (by simp)
  · rw [valueAtPath_addWrite_of_none h hp, if_neg fun hpre => ha.1 (hpre.trans hy), hq y hy]

/-- Writes at places apart can be added in either order, where none is above the one. -/
theorem addWrite_comm (h : Wf scmp self) (hq : NoneOn scmp self q) (ha : Apart p q) (hu : Proper u) (hv : Proper v) :
    (self.addWrite cmp scmp v q).addWrite cmp scmp u p = (self.addWrite cmp scmp u p).addWrite cmp scmp v q := by
  have hwv : Wf scmp (self.addWrite cmp scmp v q) := wf_addWrite h hv q
  have hwu : Wf scmp (self.addWrite cmp scmp u p) := wf_addWrite h hu p
  -- what is above the second place is not above the first
  have hvalue : ∀ x, ¬ q <+: x → (self.addWrite cmp scmp v q).writeTree.valueAtPath scmp x
      = self.writeTree.valueAtPath scmp x := by
    intro x hx
    rw [valueAtPath_addWrite_of_none h hq, if_neg hx]
  have hnone : NoneOn scmp (self.addWrite cmp scmp u p) q := hq.addWrite_of_apart h ha u
  refine ext_of_values (wf_addWrite hwv hu p) (wf_addWrite hwu hv q) fun x => ?_
  rcases exists_value_or_noneOn scmp self p with ⟨p', r, w, rfl, hw⟩ | hp
  · have hqp' : ¬ q <+: p' := fun hpre => ha.2 (hpre.trans (List.prefix_append p' r))
    rw [valueAtPath_addWrite_below hwv ((hvalue p' hqp').trans hw), valueAtPath_addWrite_of_none hwu hnone,
      valueAtPath_addWrite_of_none h hq, valueAtPath_addWrite_below h hw]
    by_cases hx : x = p'
    · rw [if_pos hx, if_pos hx, if_neg (hx ▸ hqp')]
    · rw [if_neg hx, if_neg hx]
  · have hnone' : NoneOn scmp (self.addWrite cmp scmp v q) p := by
      intro y hy
      rw [hvalue y fun hpre => ha.2 (hpre.trans hy), hp y hy]
    rw [valueAtPath_addWrite_of_none hwv hnone', valueAtPath_addWrite_of_none hwu hnone,
      valueAtPath_addWrite_of_none h hq, valueAtPath_addWrite_of_none h hp]
    by_cases hpx : p <+: x
    · have hqx : ¬ q <+: x := fun hqx => (List.prefix_or_prefix_of_prefix hpx hqx).elim ha.1 ha.2
      rw [if_pos hpx, if_neg hqx, if_pos hpx]
    · rw [if_neg hpx, if_neg hpx]

theorem addWrites_comm {ws : List (List κ × FNode κ ν)} (h : Wf scmp self) (hq : NoneOn scmp self q) (hv : Proper v)
    (hws : ∀ x ∈ ws, Apart x.1 q ∧ Proper x.2) :
    (self.addWrite cmp scmp v q).addWrites cmp scmp ws = (self.addWrites cmp scmp ws).addWrite cmp scmp v q ∧
      NoneOn scmp (self.addWrites cmp scmp ws) q := by
  induction ws generalizing self with
  | nil => exact ⟨rfl, hq⟩
  | cons x ws ih =>
    obtain ⟨ha, hproper⟩ := hws x List.mem_cons_self
    have hq' : NoneOn scmp (self.addWrite cmp scmp x.2 x.1) q := hq.addWrite_of_apart h ha x.2
    have hrest := ih (wf_addWrite h hproper x.1) hq' fun y hy => hws y (List.mem_cons_of_mem x hy)
    rw [← addWrite_comm h hq ha hproper hv] at hrest
    exact hrest

/-! ## The writes after another one -/

/-- After a write below a value the others are the same. -/
theorem filter_writes_addWrite_below (h : Wf scmp self) (hp : self.writeTree.valueAtPath scmp p = some u)
    (hv : Proper v) (r : List κ) :
    ((self.addWrite cmp scmp v (p ++ r)).writes.filter fun x => x.1 ≠ p).Perm (self.writes.filter fun x => x.1 ≠ p) := by
  have h' : Wf scmp (self.addWrite cmp scmp v (p ++ r)) := wf_addWrite h hv (p ++ r)
  refine (List.perm_ext_iff_of_nodup ((FImmutableTree.nodup_forEach h'.tree).filter _)
    ((FImmutableTree.nodup_forEach h.tree).filter _)).mpr fun x => ?_
  rw [List.mem_filter, List.mem_filter]
  refine and_congr_left fun hx => ?_
  have hne : ¬ x.1 = p := of_decide_eq_true hx
  have hval : (self.addWrite cmp scmp v (p ++ r)).writeTree.valueAtPath scmp x.1
      = self.writeTree.valueAtPath scmp x.1 := by
    rw [valueAtPath_addWrite_below h hp, if_neg hne]
  exact (mem_writes h').trans ((iff_of_eq (congrArg (· = some x.2) hval)).trans (mem_writes h).symm)

/-- After a write where none is above, the writes that are not below it, and the
new one. -/
theorem writes_addWrite_of_none (h : Wf scmp self) (hp : NoneOn scmp self p) (hv : Proper v) :
    (self.addWrite cmp scmp v p).writes.Perm ((self.writes.filter fun x => ¬ p <+: x.1) ++ [(p, v)]) := by
  have h' : Wf scmp (self.addWrite cmp scmp v p) := wf_addWrite h hv p
  have hnodup : ((self.writes.filter fun x => ¬ p <+: x.1) ++ [(p, v)]).Nodup := by
    rw [List.nodup_append]
    refine ⟨(FImmutableTree.nodup_forEach h.tree).filter _, List.nodup_cons.mpr ⟨List.not_mem_nil, List.nodup_nil⟩, ?_⟩
    rintro x hx y hy rfl
    rw [List.mem_singleton.mp hy] at hx
    exact of_decide_eq_true (List.mem_filter.mp hx).2 (List.prefix_refl p)
  refine (List.perm_ext_iff_of_nodup (FImmutableTree.nodup_forEach h'.tree) hnodup).mpr fun x => ?_
  have hval : (self.addWrite cmp scmp v p).writeTree.valueAtPath scmp x.1 =
      if p <+: x.1 then (if x.1 = p then some v else none) else self.writeTree.valueAtPath scmp x.1 :=
    valueAtPath_addWrite_of_none h hp v x.1
  rw [List.mem_append, List.mem_filter, List.mem_singleton, decide_eq_true_eq]
  refine (mem_writes h').trans ?_
  by_cases hpre : p <+: x.1
  · rw [if_pos hpre] at hval
    rw [hval]
    simp only [hpre, not_true_eq_false, and_false, false_or]
    by_cases heq : x.1 = p
    · rw [if_pos heq, Option.some.injEq]
      exact ⟨fun hx => Prod.ext heq hx.symm, fun hx => by rw [hx]⟩
    · rw [if_neg heq]
      exact ⟨fun hx => absurd hx (by simp), fun hx => absurd (by rw [hx]) heq⟩
  · rw [if_neg hpre] at hval
    rw [hval]
    have hne : ¬ x = (p, v) := fun heq => hpre (heq ▸ List.prefix_refl p)
    simp only [hpre, not_false_eq_true, and_true, hne, or_false]
    exact (mem_writes h).symm

/-! ## What a compound write does to a snapshot -/

section Apply

variable {kids : List (κ × FImmutableTree κ (FNode κ ν))}

omit [DecidableEq κ] in
/-- Where the writes are plain no child is the priority. -/
theorem key_ne_dotPriority (nonempty : ∀ x ∈ kids, x.2.isEmpty = false) (wf : ∀ x ∈ kids, x.2.Wf scmp)
    {path : List κ} (hplain : ∀ x ∈ FImmutableTree.forEachIn path kids, Plain x.1) : ∀ x ∈ kids, x.1 ≠ dotPriority := by
  intro y hy
  obtain ⟨x, hx, r, hr⟩ := (wf y hy).exists_mem_forEachPathSoFar (nonempty y hy) (path ++ [y.1])
  have hx := hplain x ((FImmutableTree.mem_forEachIn kids).mpr ⟨y, hy, hx⟩)
  rw [← hr, FNode.plain_append_iff, FNode.plain_append_iff, FNode.plain_cons_iff] at hx
  exact hx.1.2.1

/-- **Applying is performing the writes** in the order of their enumeration, if no
priority is among them. -/
theorem applyToNode_eq (h : Wf scmp self) (hplain : ∀ x ∈ self.writes, Plain x.1) (n : FNode κ ν) :
    self.applyToNode cmp n = layer cmp self.writes n := by
  have hsub : ∀ {t : FImmutableTree κ (FNode κ ν)}, t.Wf scmp → ∀ (path : List κ) (n : FNode κ ν),
      (∀ x ∈ t.forEachPathSoFar path, Plain x.1) →
        applySubtreeWrite cmp path n t = layer cmp (t.forEachPathSoFar path) n := by
    intro t ht
    induction ht with
    | value v =>
      intro path n _
      rfl
    | branch kids sorted nonempty wf ih =>
      intro path n hplain
      rw [FImmutableTree.forEachPathSoFar, Option.toList_none, List.map_nil, List.append_nil] at hplain ⊢
      have hkeys := key_ne_dotPriority nonempty wf hplain
      clear sorted nonempty wf
      -- the children one by one, each on what those before it have left, and none of them held back
      have hkids : applyChildren cmp path n none kids = (layer cmp (FImmutableTree.forEachIn path kids) n, none) := by
        induction kids generalizing n with
        | nil => rfl
        | cons y kids ih' =>
          obtain ⟨k, c⟩ := y
          rw [FImmutableTree.forEachIn] at hplain ⊢
          have hc : ∀ x ∈ c.forEachPathSoFar (path ++ [k]), Plain x.1 :=
            fun x hx => hplain x (List.mem_append_left _ hx)
          rw [applyChildren, if_neg (hkeys _ List.mem_cons_self), layer_append, ih _ List.mem_cons_self _ _ hc]
          exact ih' (fun x hx => ih x (List.mem_cons_of_mem _ hx)) _ (fun x hx => hplain x (List.mem_append_right _ hx))
            fun x hx => hkeys x (List.mem_cons_of_mem _ hx)
      rw [applySubtreeWrite, hkids]
  exact hsub h.tree [] n hplain

theorem fits_addWrite (h : Wf scmp self) (hv : Proper v) (hfits : Fits cmp n self.writes) (hp : Open cmp n p) :
    Fits cmp n (self.addWrite cmp scmp v p).writes := by
  have h' : Wf scmp (self.addWrite cmp scmp v p) := wf_addWrite h hv p
  intro x hx
  have hx := (mem_writes h').mp hx
  refine ⟨?_, h'.proper _ _ hx⟩
  rcases exists_value_or_noneOn scmp self p with ⟨q, r, u, rfl, hu⟩ | hnone
  · rw [valueAtPath_addWrite_below h hu] at hx
    split_ifs at hx with heq
    · rw [heq]
      exact FNode.open_of_prefix hp
    · exact (hfits x ((mem_writes h).mpr hx)).1
  · rw [valueAtPath_addWrite_of_none h hnone] at hx
    split_ifs at hx with hpre heq
    · rw [heq]
      exact hp
    · exact (hfits x ((mem_writes h).mpr hx)).1

theorem fits_addWrites {ws : List (List κ × FNode κ ν)} (h : Wf scmp self) (hfits : Fits cmp n self.writes)
    (hws : Fits cmp n ws) : Fits cmp n (self.addWrites cmp scmp ws).writes := by
  induction ws generalizing self with
  | nil => exact hfits
  | cons x ws ih =>
    obtain ⟨hopen, hproper⟩ := hws x List.mem_cons_self
    exact ih (wf_addWrite h hproper x.1) (fits_addWrite h hproper hfits hopen) (hws.subset (List.subset_cons_self x ws))

variable [Std.TransCmp cmp] [Std.LawfulEqCmp cmp]

/-- **Adding a write to a compound write** is performing it afterwards. -/
theorem applyToNode_addWrite (h : Wf scmp self) (hv : Proper v) (hfits : Fits cmp n self.writes)
    (hp : Open cmp n p) :
    (self.addWrite cmp scmp v p).applyToNode cmp n = updateChild cmp (self.applyToNode cmp n) p v := by
  have h' : Wf scmp (self.addWrite cmp scmp v p) := wf_addWrite h hv p
  have hfits' := fits_addWrite h hv hfits hp
  rw [applyToNode_eq h' hfits'.plain, applyToNode_eq h hfits.plain]
  rcases exists_value_or_noneOn scmp self p with ⟨q, r, u, rfl, hu⟩ | hnone
  · -- the write goes into the node at `q`, which can be taken to be written last
    have hu' : (self.addWrite cmp scmp v (q ++ r)).writeTree.valueAtPath scmp q = some (updateChild cmp u r v) := by
      rw [valueAtPath_addWrite_below h hu, if_pos rfl]
    have hperm := writes_perm_cons h hu
    have hperm' := (writes_perm_cons h' hu').trans ((filter_writes_addWrite_below h hu hv r).append_right _)
    have hopen : Open cmp (layer cmp (self.writes.filter fun x => x.1 ≠ q) n) q := by
      have hlast := Fits.layer (hfits.subset hperm.symm.subset) ((separate_writes h).perm hperm)
      exact (hlast _ (List.mem_singleton_self _)).1
    rw [layer_perm hperm hfits (separate_writes h), layer_perm hperm' hfits' (separate_writes h'), layer_concat,
      layer_concat]
    exact (FNode.updateChild_updateChild_below hopen (h.proper q u hu)).symm
  · -- the writes below it are shadowed, and they can be taken to be the last ones
    have hperm : self.writes.Perm ((self.writes.filter fun x => ¬ p <+: x.1) ++ self.writes.filter fun x => p <+: x.1) := by
      refine (List.filter_append_perm (fun x => decide (¬ p <+: x.1)) self.writes).symm.trans ?_
      refine List.Perm.append_left _ (List.Perm.of_eq ?_)
      refine List.filter_congr fun x _ => ?_
      simp
    have hperm' : (self.addWrite cmp scmp v p).writes.Perm ((self.writes.filter fun x => ¬ p <+: x.1) ++ [(p, v)]) :=
      writes_addWrite_of_none h hnone hv
    have hsep := (separate_writes h).perm hperm
    have hrest : Fits cmp n (self.writes.filter fun x => ¬ p <+: x.1) := hfits.subset (List.filter_subset_self _)
    have hopen : Open cmp (layer cmp (self.writes.filter fun x => ¬ p <+: x.1) n) p := by
      refine open_layer hrest (List.pairwise_append.mp hsep).1 hp fun x hx => Or.inl ?_
      obtain ⟨hx, hout⟩ := List.mem_filter.mp hx
      refine ⟨fun hpre => ?_, of_decide_eq_true hout⟩
      exact absurd ((hnone x.1 hpre).symm.trans ((mem_writes h).mp hx)) (by simp)
    rw [layer_perm hperm hfits (separate_writes h), layer_perm hperm' hfits' (separate_writes h'), layer_concat,
      layer_append, updateChild_layer_below (Fits.layer (hfits.subset hperm.symm.subset) hsep)
        (List.pairwise_append.mp hsep).2.1 hopen fun x hx => of_decide_eq_true (List.mem_filter.mp hx).2]

/-- **Adding writes one after the other** is performing them in that order. -/
theorem applyToNode_addWrites {ws : List (List κ × FNode κ ν)} (h : Wf scmp self) (hfits : Fits cmp n self.writes)
    (hws : Fits cmp n ws) :
    (self.addWrites cmp scmp ws).applyToNode cmp n = layer cmp ws (self.applyToNode cmp n) := by
  induction ws generalizing self with
  | nil => rfl
  | cons x ws ih =>
    obtain ⟨hopen, hproper⟩ := hws x List.mem_cons_self
    have hrest := hws.subset (List.subset_cons_self x ws)
    show ((self.addWrite cmp scmp x.2 x.1).addWrites cmp scmp ws).applyToNode cmp n = _
    rw [ih (wf_addWrite h hproper x.1) (fits_addWrite h hproper hfits hopen) hrest,
      applyToNode_addWrite h hproper hfits hopen, layer_cons]

/-! ## What is seen at a path -/

/-- A complete write at a path is what is there afterwards. -/
theorem getChild_applyToNode_of_complete (h : Wf scmp self) (hfits : Fits cmp n self.writes) {w : FNode κ ν}
    (hw : self.completeNodeAtPath cmp scmp p = some w) : getChild cmp (self.applyToNode cmp n) p = w := by
  rcases exists_value_or_noneOn scmp self p with ⟨q, r, u, rfl, hu⟩ | hnone
  · rw [completeNodeAtPath_of_value h hu, Option.some.injEq] at hw
    have hperm := writes_perm_cons h hu
    have hlast := Fits.layer (hfits.subset hperm.symm.subset) ((separate_writes h).perm hperm)
    obtain ⟨hopen, hproper⟩ := hlast _ (List.mem_singleton_self _)
    rw [applyToNode_eq h hfits.plain, layer_perm hperm hfits (separate_writes h), layer_concat,
      FNode.getChild_updateChild hopen hproper, hw]
  · rw [completeNodeAtPath, hnone.findRootMost] at hw
    cases hw

omit [Std.TransCmp scmp] [Std.LawfulEqCmp scmp] [Std.TransCmp cmp] [Std.LawfulEqCmp cmp] in
theorem completeNodeAtPath_eq_none_iff : self.completeNodeAtPath cmp scmp p = none ↔ NoneOn scmp self p := by
  unfold completeNodeAtPath
  constructor
  · intro h q hq
    refine FImmutableTree.of_findRootMost_eq_none ?_ hq
    rcases hfound : self.writeTree.findRootMostValueAndPath scmp p with _ | x
    · rfl
    · rw [hfound] at h
      cases h
  · intro h
    rw [h.findRootMost]

/-- **What is below a path** is changed by the part of the compound write that
is below it. -/
theorem applyToNode_childCompoundWrite (h : Wf scmp self) (hfits : Fits cmp n self.writes) (p : List κ) :
    (self.childCompoundWriteAtPath cmp scmp p).applyToNode cmp (getChild cmp n p)
      = getChild cmp (self.applyToNode cmp n) p := by
  unfold childCompoundWriteAtPath
  split_ifs with hempty
  · obtain rfl := List.isEmpty_iff.mp hempty
    rfl
  · rcases hcomplete : self.completeNodeAtPath cmp scmp p with _ | w
    · -- the writes are below the path or apart from it
      have hnone := completeNodeAtPath_eq_none_iff.mp hcomplete
      have hsub := wf_subtreeAtPath h p
      have hperm := writes_perm_subtree h p
      have hfits' := hfits.subset hperm.symm.subset
      have hsep := (separate_writes h).perm hperm
      have hout : ∀ x ∈ self.writes.filter fun x => ¬ p <+: x.1, Apart x.1 p := by
        intro x hx
        obtain ⟨hx, hpre⟩ := List.mem_filter.mp hx
        refine ⟨fun hxp => ?_, of_decide_eq_true hpre⟩
        exact absurd ((hnone x.1 hxp).symm.trans ((mem_writes h).mp hx)) (by simp)
      have hrest : Fits cmp n (self.writes.filter fun x => ¬ p <+: x.1) := hfits.subset (List.filter_subset_self _)
      have hsubPlain : ∀ x ∈ (⟨self.writeTree.subtreeAtPath scmp p⟩ : FCompoundWrite κ ν).writes, Plain x.1 := by
        intro x hx
        have hxp := hfits'.plain _ (List.mem_append_right _ (List.mem_map_of_mem hx))
        exact (FNode.plain_append_iff.mp hxp).2
      show FCompoundWrite.applyToNode cmp ⟨self.writeTree.subtreeAtPath scmp p⟩ _ = _
      rw [applyToNode_eq hsub hsubPlain, applyToNode_eq h hfits.plain, layer_perm hperm hfits (separate_writes h), layer_append,
        getChild_layer_below (Fits.layer hfits' hsep) (List.pairwise_append.mp hsep).2.1,
        getChild_layer_of_apart hrest (List.pairwise_append.mp hsep).1 hout]
    · rw [getChild_applyToNode_of_complete h hfits hcomplete]
      rfl

end Apply

/-! ## A priority -/

section Priority

variable {kids : List (κ × FImmutableTree κ (FNode κ ν))}

omit [Std.TransCmp scmp] [Std.LawfulEqCmp scmp] in
/-- What is held back is not looked at by the other children. -/
theorem applyChildren_eq (hkeys : ∀ x ∈ kids, x.1 ≠ dotPriority) (path : List κ) (n : FNode κ ν)
    (priorityWrite : Option (FNode κ ν)) :
    applyChildren cmp path n priorityWrite kids = ((applyChildren cmp path n none kids).1, priorityWrite) := by
  induction kids generalizing n with
  | nil => rfl
  | cons y kids ih =>
    have hrest : ∀ x ∈ kids, x.1 ≠ dotPriority := fun x hx => hkeys x (List.mem_cons_of_mem y hx)
    rw [applyChildren, if_neg (hkeys y List.mem_cons_self), applyChildren, if_neg (hkeys y List.mem_cons_self)]
    exact ih hrest _

omit [Std.TransCmp scmp] [Std.LawfulEqCmp scmp] in
theorem applyChildren_dotPriority (path : List κ) (n v : FNode κ ν) (priorityWrite : Option (FNode κ ν))
    (kids : List (κ × FImmutableTree κ (FNode κ ν))) :
    applyChildren cmp path n priorityWrite ((dotPriority, .withValue (some v)) :: kids)
      = applyChildren cmp path n (some v) kids := by
  rw [applyChildren, if_pos rfl]
  rfl

omit [Std.TransCmp scmp] in
/-- A priority among the children is held back, wherever it stands. -/
theorem applyChildren_insert (hkeys : ∀ x ∈ kids, x.1 ≠ dotPriority) (path : List κ) (n v : FNode κ ν) :
    applyChildren cmp path n none (SortedAssoc.insert scmp dotPriority (.withValue (some v)) kids)
      = ((applyChildren cmp path n none kids).1, some v) := by
  induction kids generalizing n with
  | nil => exact applyChildren_dotPriority path n v none []
  | cons y kids ih =>
    have hy := hkeys y List.mem_cons_self
    have hrest : ∀ x ∈ kids, x.1 ≠ dotPriority := fun x hx => hkeys x (List.mem_cons_of_mem y hx)
    rw [SortedAssoc.insert]
    rcases hc : scmp dotPriority y.1 with _ | _ | _
    · -- it comes first
      rw [applyChildren_dotPriority]
      exact applyChildren_eq hkeys path n (some v)
    · exact absurd (Std.LawfulEqCmp.eq_of_compare hc).symm hy
    · rw [applyChildren, if_neg hy, applyChildren, if_neg hy]
      exact ih hrest _

/-- **A priority is set last**, on what the other writes have made of the snapshot. -/
theorem applyToNode_addWrite_priority (h : Wf scmp self) (hnone : NoneOn scmp self [dotPriority])
    (hplain : ∀ x ∈ self.writes, Plain x.1) (hn : Proper n) (v : FNode κ ν) :
    (self.addWrite cmp scmp v [dotPriority]).applyToNode cmp n
      = updateChild cmp (self.applyToNode cmp n) [dotPriority] v := by
  have hproper : Proper (self.applyToNode cmp n) := by
    rw [applyToNode_eq h hplain]
    exact proper_layer hn fun x hx => h.proper x.1 x.2 ((mem_writes h).mp hx)
  have hadd : self.addWrite cmp scmp v [dotPriority]
      = ⟨FImmutableTree.setTree scmp (.withValue (some v)) self.writeTree [dotPriority]⟩ := by
    rw [addWrite, if_neg (by simp), hnone.findRootMost]
  rw [hadd]
  obtain ⟨tree⟩ := self
  obtain ⟨htree, -⟩ := h
  cases htree with
  | value u => exact absurd (hnone [] List.nil_prefix) (by simp [FImmutableTree.valueAtPath, FImmutableTree.value])
  | branch kids sorted nonempty wf =>
    have hin : ∀ x ∈ FImmutableTree.forEachIn [] kids, Plain x.1 := by
      intro x hx
      refine hplain x ?_
      show x ∈ FImmutableTree.forEachPathSoFar [] (.node none kids)
      rw [FImmutableTree.forEachPathSoFar, Option.toList_none, List.map_nil, List.append_nil]
      exact hx
    have hkeys : ∀ x ∈ kids, x.1 ≠ dotPriority := key_ne_dotPriority nonempty wf hin
    have hself : applyToNode cmp ⟨.node none kids⟩ n = (applyChildren cmp [] n none kids).1 := by
      rw [applyToNode, applySubtreeWrite, applyChildren_eq hkeys]
    rw [hself] at hproper ⊢
    show applySubtreeWrite cmp [] n (.node none (SortedAssoc.insert scmp dotPriority (.withValue (some v)) kids)) = _
    rw [applySubtreeWrite, applyChildren_insert hkeys]
    dsimp only
    split_ifs with hempty
    · -- nothing is there, and an empty node takes no priority
      rw [hproper hempty]
      exact (FNode.updateImmediateChild_priority emptyNode).symm
    · rfl

variable [Std.TransCmp cmp] [Std.LawfulEqCmp cmp]

/-- **A priority is set last**, and not in its turn: what is written below its node
after it is performed before it. -/
theorem applyToNode_priority_addWrites {ws : List (List κ × FNode κ ν)} (h : Wf scmp self)
    (hfits : Fits cmp n self.writes) (hnone : NoneOn scmp self [dotPriority]) (hv : Proper v) (hws : Fits cmp n ws)
    (hbelow : ∀ x ∈ ws, x.1 ≠ []) (hn : Proper n) :
    ((self.addWrite cmp scmp v [dotPriority]).addWrites cmp scmp ws).applyToNode cmp n
      = updateChild cmp (layer cmp ws (self.applyToNode cmp n)) [dotPriority] v := by
  have hapart : ∀ x ∈ ws, Apart x.1 [dotPriority] ∧ Proper x.2 := by
    intro x hx
    obtain ⟨hopen, hproper⟩ := hws x hx
    refine ⟨?_, hproper⟩
    have hplain := hopen.plain
    rcases hp : x.1 with _ | ⟨k, p⟩
    · exact absurd hp (hbelow x hx)
    · rw [hp] at hplain
      exact FNode.apart_cons_iff.mpr (Or.inl (FNode.plain_cons_iff.mp hplain).1)
  obtain ⟨heq, hnone'⟩ := addWrites_comm h hnone hv hapart
  rw [heq, applyToNode_addWrite_priority (wf_addWrites h fun x hx => (hws x hx).2) hnone'
    (fits_addWrites h hfits hws).plain hn, applyToNode_addWrites h hfits hws]

/-- Set in its turn it is lost, since the node is still empty. -/
example :
    let ws : List (List Name × FNode Name ℕ) :=
      [([dotPriority], .leaf 1 none), ([⟨unichars "a", by decide⟩], .leaf 5 none)]
    ((addWrites Name.compareKey Name.compareUnits emptyWrite ws).applyToNode Name.compareKey emptyNode).getPriority
        = .leaf 1 none ∧
      (layer Name.compareKey ws emptyNode).getPriority = emptyNode := ⟨rfl, rfl⟩

end Priority

end Lawful

end FCompoundWrite

end TerpBuilder.Sync
