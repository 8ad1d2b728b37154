/-
The nodes of the database's sorted dictionaries.

`FLLRBValueNode` and `FLLRBEmptyNode` of the vendored
`FImmutableSortedDictionary`: a left-leaning red-black tree whose nodes are
never written to, only copied. A message to the empty node's `left` or `right`
is a message to nil and answers NO, so the model's empty node is its own child.
This file is the code; what it does to the entries and to the balance is
`LLRBBalance`.
-/
import TerpBuilder.SortedAssoc
import Mathlib.Algebra.Group.Nat.Defs

set_option autoImplicit false

namespace TerpBuilder

/-- `RED` is `@true` and `BLACK` is `@false` in the source. -/
inductive LLRBColor where
  | red
  | black
  deriving DecidableEq, Repr

/-- `[NSNumber numberWithBool:![color boolValue]]`. -/
def LLRBColor.flip : LLRBColor → LLRBColor
  | red => black
  | black => red

inductive LLRBNode (κ ν : Type) where
  | empty
  | value (key : κ) (val : ν) (color : LLRBColor) (left right : LLRBNode κ ν)
  deriving DecidableEq, Repr

namespace LLRBNode

variable {κ ν : Type}

/-! ## Fields -/

def key : LLRBNode κ ν → Option κ
  | empty => none
  | value k _ _ _ _ => some k

def val : LLRBNode κ ν → Option ν
  | empty => none
  | value _ v _ _ _ => some v

/-- The empty node's colour is nil, whose `boolValue` is that of `BLACK`. -/
def color : LLRBNode κ ν → LLRBColor
  | empty => .black
  | value _ _ c _ _ => c

def left : LLRBNode κ ν → LLRBNode κ ν
  | empty => empty
  | value _ _ _ l _ => l

def right : LLRBNode κ ν → LLRBNode κ ν
  | empty => empty
  | value _ _ _ _ r => r

def isEmpty : LLRBNode κ ν → Bool
  | empty => true
  | value .. => false

def isRed : LLRBNode κ ν → Bool
  | value _ _ .red _ _ => true
  | _ => false

def count : LLRBNode κ ν → Nat
  | empty => 0
  | value _ _ _ l r => l.count + 1 + r.count

/-- The entries `inorderTraversal:` visits, when no action stops it. -/
def inorder : LLRBNode κ ν → List (κ × ν)
  | empty => []
  | value k v _ l r => l.inorder ++ (k, v) :: r.inorder

/-- A copy with what is not nil replaced; the empty node copies to itself. -/
def copyWith (aKey : Option κ) (aValue : Option ν) (aColor : Option LLRBColor)
    (aLeft aRight : Option (LLRBNode κ ν)) : LLRBNode κ ν → LLRBNode κ ν
  | empty => empty
  | value k v c l r =>
    value (aKey.getD k) (aValue.getD v) (aColor.getD c) (aLeft.getD l) (aRight.getD r)

/-- The node with the least key. -/
def min : LLRBNode κ ν → LLRBNode κ ν
  | empty => empty
  | value k v c l r => if l.isEmpty then value k v c l r else l.min

def minKey (n : LLRBNode κ ν) : Option κ := n.min.key

def maxKey : LLRBNode κ ν → Option κ
  | empty => none
  | value k _ _ _ r => if r.isEmpty then some k else r.maxKey

/-! ## Rotations -/

def rotateLeft (n : LLRBNode κ ν) : LLRBNode κ ν :=
  let nl := n.copyWith none none (some .red) none (some n.right.left)
  n.right.copyWith none none (some n.color) (some nl) none

def rotateRight (n : LLRBNode κ ν) : LLRBNode κ ν :=
  let nr := n.copyWith none none (some .red) (some n.left.right) none
  n.left.copyWith none none (some n.color) none (some nr)

def colorFlip (n : LLRBNode κ ν) : LLRBNode κ ν :=
  let nleft := n.left.copyWith none none (some n.left.color.flip) none none
  let nright := n.right.copyWith none none (some n.right.color.flip) none none
  n.copyWith none none (some n.color.flip) (some nleft) (some nright)

def fixUp (n : LLRBNode κ ν) : LLRBNode κ ν :=
  let n := if n.right.isRed && !n.left.isRed then n.rotateLeft else n
  let n := if n.left.isRed && n.left.left.isRed then n.rotateRight else n
  if n.left.isRed && n.right.isRed then n.colorFlip else n

def moveRedLeft (n : LLRBNode κ ν) : LLRBNode κ ν :=
  let n := n.colorFlip
  if n.right.left.isRed then
    let n := n.copyWith none none none none (some n.right.rotateRight)
    n.rotateLeft.colorFlip
  else n

def moveRedRight (n : LLRBNode κ ν) : LLRBNode κ ν :=
  let n := n.colorFlip
  if n.left.left.isRed then n.rotateRight.colorFlip else n

/-! ## What the rotations do -/

section Shapes

variable {k k' : κ} {v v' : ν} {c c' : LLRBColor} {l r l' r' : LLRBNode κ ν}

@[simp] theorem left_value : (value k v c l r).left = l := rfl

@[simp] theorem right_value : (value k v c l r).right = r := rfl

@[simp] theorem isRed_red : (value k v .red l r).isRed = true := rfl

@[simp] theorem isRed_black : (value k v .black l r).isRed = false := rfl

/-- The other colour at the root, as `colorFlip` gives it to both children. -/
def recolor (n : LLRBNode κ ν) : LLRBNode κ ν :=
  n.copyWith none none (some n.color.flip) none none

@[simp] theorem recolor_empty : (empty : LLRBNode κ ν).recolor = empty := rfl

@[simp] theorem recolor_value : (value k v c l r).recolor = value k v c.flip l r := rfl

theorem rotateLeft_value :
    (value k v c l (value k' v' c' l' r')).rotateLeft = value k' v' c (value k v .red l l') r' :=
  rfl

theorem rotateRight_value :
    (value k v c (value k' v' c' l' r') r).rotateRight = value k' v' c l' (value k v .red r' r) :=
  rfl

theorem colorFlip_value :
    (value k v c l r).colorFlip = value k v c.flip l.recolor r.recolor :=
  rfl

/-- A node that answers YES to `isRed` is a value node. -/
theorem eq_value_of_isRed {n : LLRBNode κ ν} (h : n.isRed = true) :
    ∃ k v l r, n = value k v .red l r := by
  match n, h with
  | value k v .red l r, _ => exact ⟨k, v, l, r, rfl⟩

theorem eq_value_of_left_isRed {n : LLRBNode κ ν} (h : n.left.isRed = true) :
    ∃ k v c k' v' l' r' r, n = value k v c (value k' v' .red l' r') r := by
  match n, h with
  | value k v c (value k' v' .red l' r') r, _ => exact ⟨k, v, c, k', v', l', r', r, rfl⟩

/-- What `moveRedLeft` makes of a node: a colour flip, and where the right
child has a red left child, that grandchild at the top. -/
theorem moveRedLeft_cases (k : κ) (v : ν) (c : LLRBColor) (l r : LLRBNode κ ν) :
    (r.left.isRed = false ∧
      (value k v c l r).moveRedLeft = value k v c.flip l.recolor r.recolor) ∨
    ∃ kr vr cr kx vx a b d, r = value kr vr cr (value kx vx .red a b) d ∧
      (value k v c l r).moveRedLeft =
        value kx vx c (value k v .black l.recolor a) (value kr vr .black b d) := by
  cases h : r.left.isRed with
  | true =>
    obtain ⟨kr, vr, cr, kx, vx, a, b, d, rfl⟩ := eq_value_of_left_isRed h
    refine .inr ⟨kr, vr, cr, kx, vx, a, b, d, rfl, ?_⟩
    cases c <;> rfl
  | false =>
    refine .inl ⟨rfl, ?_⟩
    have hr : r.recolor.left.isRed = false := by
      cases r with
      | empty => rfl
      | value => exact h
    exact if_neg (by simpa [colorFlip_value] using hr)

/-- What `moveRedRight` makes of a node: a colour flip, and where the left
child has a red left child, the left child at the top. -/
theorem moveRedRight_cases (k : κ) (v : ν) (c : LLRBColor) (l r : LLRBNode κ ν) :
    (l.left.isRed = false ∧
      (value k v c l r).moveRedRight = value k v c.flip l.recolor r.recolor) ∨
    ∃ kl vl cl kx vx a b d, l = value kl vl cl (value kx vx .red a b) d ∧
      (value k v c l r).moveRedRight =
        value kl vl c (value kx vx .black a b) (value k v .black d r.recolor) := by
  cases h : l.left.isRed with
  | true =>
    obtain ⟨kl, vl, cl, kx, vx, a, b, d, rfl⟩ := eq_value_of_left_isRed h
    refine .inr ⟨kl, vl, cl, kx, vx, a, b, d, rfl, ?_⟩
    cases c <;> rfl
  | false =>
    refine .inl ⟨rfl, ?_⟩
    have hl : l.recolor.left.isRed = false := by
      cases l with
      | empty => rfl
      | value => exact h
    exact if_neg (by simpa [colorFlip_value] using hl)

end Shapes

/-! ## Entries -/

@[simp] theorem inorder_recolor (n : LLRBNode κ ν) : n.recolor.inorder = n.inorder := by
  cases n <;> rfl

theorem count_eq_length (n : LLRBNode κ ν) : n.count = n.inorder.length := by
  induction n with
  | empty => rfl
  | value k v c l r ihl ihr =>
    simp only [count, inorder, List.length_append, List.length_cons]
    omega

theorem inorder_rotateLeft {n : LLRBNode κ ν} (h : n.right.isRed = true) :
    n.rotateLeft.inorder = n.inorder := by
  cases n with
  | empty => rfl
  | value k v c l r =>
    obtain ⟨k', v', l', r', rfl⟩ := eq_value_of_isRed h
    simp only [rotateLeft_value, inorder, List.append_assoc, List.cons_append]

theorem inorder_rotateRight {n : LLRBNode κ ν} (h : n.left.isRed = true) :
    n.rotateRight.inorder = n.inorder := by
  cases n with
  | empty => rfl
  | value k v c l r =>
    obtain ⟨k', v', l', r', rfl⟩ := eq_value_of_isRed h
    simp only [rotateRight_value, inorder, List.append_assoc, List.cons_append]

theorem inorder_colorFlip (n : LLRBNode κ ν) : n.colorFlip.inorder = n.inorder := by
  cases n with
  | empty => rfl
  | value k v c l r => simp only [colorFlip_value, inorder, inorder_recolor]

/-- **The repair keeps the entries**, whatever the colours are. -/
theorem inorder_fixUp (n : LLRBNode κ ν) : n.fixUp.inorder = n.inorder := by
  unfold fixUp
  extract_lets n1 n2
  have h1 : n1.inorder = n.inorder := by
    unfold n1
    split_ifs with h
    · rw [Bool.and_eq_true] at h
      exact inorder_rotateLeft h.1
    · rfl
  have h2 : n2.inorder = n1.inorder := by
    unfold n2
    split_ifs with h
    · rw [Bool.and_eq_true] at h
      exact inorder_rotateRight h.1
    · rfl
  split_ifs
  · rw [inorder_colorFlip, h2, h1]
  · rw [h2, h1]

theorem inorder_moveRedLeft (n : LLRBNode κ ν) : n.moveRedLeft.inorder = n.inorder := by
  cases n with
  | empty => rfl
  | value k v c l r =>
    rcases moveRedLeft_cases k v c l r with ⟨-, h⟩ | ⟨kr, vr, cr, kx, vx, a, b, d, rfl, h⟩
    · rw [h]
      simp only [inorder, inorder_recolor]
    · rw [h]
      simp only [inorder, inorder_recolor, List.append_assoc, List.cons_append]

theorem inorder_moveRedRight (n : LLRBNode κ ν) : n.moveRedRight.inorder = n.inorder := by
  cases n with
  | empty => rfl
  | value k v c l r =>
    rcases moveRedRight_cases k v c l r with ⟨-, h⟩ | ⟨kl, vl, cl, kx, vx, a, b, d, rfl, h⟩
    · rw [h]
      simp only [inorder, inorder_recolor]
    · rw [h]
      simp only [inorder, inorder_recolor, List.append_assoc, List.cons_append]

theorem count_left_lt {n : LLRBNode κ ν} (h : 0 < n.count) : n.left.count < n.count := by
  cases n with
  | empty => exact absurd h (Nat.lt_irrefl 0)
  | value k v c l r =>
    simp only [left, count]
    omega

theorem count_right_lt {n : LLRBNode κ ν} (h : 0 < n.count) : n.right.count < n.count := by
  cases n with
  | empty => exact absurd h (Nat.lt_irrefl 0)
  | value k v c l r =>
    simp only [right, count]
    omega

theorem count_pos_of_left {n : LLRBNode κ ν} (h : ¬ n.left.isEmpty = true) : 0 < n.count := by
  cases n with
  | empty => exact absurd rfl h
  | value k v c l r =>
    simp only [count]
    omega

/-! ## Insertion and removal -/

def insertKey (cmp : κ → κ → Ordering) (aKey : κ) (aValue : ν) : LLRBNode κ ν → LLRBNode κ ν
  | empty => value aKey aValue .red empty empty
  | value k v c l r =>
    let n := value k v c l r
    let n :=
      match cmp aKey k with
      | .lt => n.copyWith none none none (some (l.insertKey cmp aKey aValue)) none
      | .eq => n.copyWith none (some aValue) none none none
      | .gt => n.copyWith none none none none (some (r.insertKey cmp aKey aValue))
    n.fixUp

/-- What `removeMin` does before it goes to the left. -/
def beforeMin (n : LLRBNode κ ν) : LLRBNode κ ν :=
  if !n.left.isRed && !n.left.left.isRed then n.moveRedLeft else n

/-- What `remove:` does before it goes to the left. -/
def beforeLeft (n : LLRBNode κ ν) : LLRBNode κ ν :=
  if !n.left.isEmpty && !n.left.isRed && !n.left.left.isRed then n.moveRedLeft else n

/-- What `remove:` does before it compares the key a second time. -/
def beforeRight (n : LLRBNode κ ν) : LLRBNode κ ν :=
  let n := if n.left.isRed then n.rotateRight else n
  if !n.right.isEmpty && !n.right.isRed && !n.right.left.isRed then n.moveRedRight else n

theorem inorder_beforeMin (n : LLRBNode κ ν) : n.beforeMin.inorder = n.inorder := by
  unfold beforeMin
  split_ifs
  · exact inorder_moveRedLeft n
  · rfl

theorem inorder_beforeLeft (n : LLRBNode κ ν) : n.beforeLeft.inorder = n.inorder := by
  unfold beforeLeft
  split_ifs
  · exact inorder_moveRedLeft n
  · rfl

theorem inorder_beforeRight (n : LLRBNode κ ν) : n.beforeRight.inorder = n.inorder := by
  unfold beforeRight
  extract_lets m
  have hm : m.inorder = n.inorder := by
    unfold m
    split_ifs with h
    · exact inorder_rotateRight h
    · rfl
  split_ifs
  · rw [inorder_moveRedRight, hm]
  · exact hm

theorem count_beforeMin (n : LLRBNode κ ν) : n.beforeMin.count = n.count := by
  rw [count_eq_length, inorder_beforeMin, ← count_eq_length]

theorem count_beforeLeft (n : LLRBNode κ ν) : n.beforeLeft.count = n.count := by
  rw [count_eq_length, inorder_beforeLeft, ← count_eq_length]

theorem count_beforeRight (n : LLRBNode κ ν) : n.beforeRight.count = n.count := by
  rw [count_eq_length, inorder_beforeRight, ← count_eq_length]

/-- Where the left child is empty the source gives the empty node and does not
look to the right. -/
def removeMin (n : LLRBNode κ ν) : LLRBNode κ ν :=
  if n.left.isEmpty then empty
  else
    let n := n.beforeMin
    (n.copyWith none none none (some n.left.removeMin) none).fixUp
termination_by n.count
decreasing_by
  rename_i h
  refine Nat.lt_of_lt_of_eq (count_left_lt ?_) (count_beforeMin _)
  rw [count_beforeMin]
  exact count_pos_of_left h

theorem count_removeMin_le (n : LLRBNode κ ν) : n.removeMin.count ≤ n.count := by
  induction n using removeMin.induct with
  | case1 n h =>
    rw [removeMin, if_pos h]
    exact Nat.zero_le _
  | case2 n h m ih =>
    rw [removeMin, if_neg h, count_eq_length, inorder_fixUp, ← count_eq_length]
    rw [← count_beforeMin n]
    change (m.copyWith none none none (some m.left.removeMin) none).count ≤ m.count
    cases hm : m with
    | empty => exact Nat.le_refl _
    | value k v c l r =>
      rw [hm] at ih
      simp only [copyWith, count, left, Option.getD_some, Option.getD_none] at ih ⊢
      omega

theorem count_value_pos {k : κ} {v : ν} {c : LLRBColor} {l r : LLRBNode κ ν} :
    0 < (value k v c l r).count := by
  simp only [count]
  omega

theorem count_right_beforeRight_lt {k : κ} {v : ν} {c : LLRBColor} {l r : LLRBNode κ ν} :
    (value k v c l r).beforeRight.right.count < (value k v c l r).count := by
  refine Nat.lt_of_lt_of_eq (count_right_lt ?_) (count_beforeRight _)
  rw [count_beforeRight]
  exact count_value_pos

theorem count_right_copyWith_le (k : Option κ) (v : Option ν) (m n : LLRBNode κ ν) :
    (n.copyWith k v none none (some m)).right.count ≤ m.count := by
  cases n with
  | empty => exact Nat.zero_le _
  | value => exact Nat.le_refl _

/-- After the successor's entry is in the place of the removed one, the source
still sends `remove:` to the right child, which does not hold the key. -/
def remove (cmp : κ → κ → Ordering) (aKey : κ) : LLRBNode κ ν → LLRBNode κ ν
  | empty => empty
  | value k v c l r =>
    let n := value k v c l r
    if cmp aKey k = .lt then
      let n := n.beforeLeft
      (n.copyWith none none none (some (n.left.remove cmp aKey)) none).fixUp
    else
      let n := n.beforeRight
      if n.key.map (cmp aKey) = some .eq then
        if n.right.isEmpty then empty
        else
          let smallest := n.right.min
          let n := n.copyWith smallest.key smallest.val none none (some n.right.removeMin)
          (n.copyWith none none none none (some (n.right.remove cmp aKey))).fixUp
      else (n.copyWith none none none none (some (n.right.remove cmp aKey))).fixUp
termination_by n => n.count
decreasing_by
  · refine Nat.lt_of_lt_of_eq (count_left_lt ?_) (count_beforeLeft _)
    rw [count_beforeLeft]
    exact count_value_pos
  · refine Nat.lt_of_le_of_lt (count_right_copyWith_le _ _ _ _) ?_
    refine Nat.lt_of_le_of_lt (count_removeMin_le _) ?_
    exact count_right_beforeRight_lt
  · exact count_right_beforeRight_lt

/-! ## The source's own check -/

/-- The reasons of the exception "check": "Red node has a red child", "Right
child is red", and the one that names both black depths. -/
inductive CheckError (ν : Type) where
  | redNodeHasRedChild
  | rightChildIsRed
  | blackDepth (value : ν) (color : LLRBColor) (left right : Nat)

/-- The black depth, or the exception. -/
def check : LLRBNode κ ν → Except (CheckError ν) Nat
  | empty => .ok 0
  | value _ v c l r =>
    if c = .red ∧ l.isRed = true then .error .redNodeHasRedChild
    else if r.isRed = true then .error .rightChildIsRed
    else do
      let blackDepth ← l.check
      let rightDepth ← r.check
      if blackDepth ≠ rightDepth then .error (.blackDepth v c blackDepth rightDepth)
      else .ok (blackDepth + if c = .red then 0 else 1)

def checkMaxDepth (n : LLRBNode κ ν) : Except (CheckError ν) Bool := do
  let blackDepth ← n.check
  return decide (2 ^ blackDepth ≤ n.count + 1)

end LLRBNode
end TerpBuilder
