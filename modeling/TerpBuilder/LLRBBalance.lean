/-
The dictionary's trees stay balanced and keep their entries.

`Balanced` is the invariant the source's own `check` looks for: no red right
child, no red node with a red left child, and one black depth. `insertKey:` and
`remove:` break it on the way down and `fixUp` restores it on the way up. For
the removal the difficulty is the second `remove:` that the source sends to the
right child after the successor was taken out of it: it walks down a tree that
need not be prepared for it. What saves it is that no step of the code reads the
colour of the node it stands on (`remove_recolor`).
-/
import TerpBuilder.LLRBNode

set_option autoImplicit false

namespace TerpBuilder.LLRBNode

open LLRBColor SortedAssoc

variable {κ ν : Type}

/-! ## The invariant -/

/-- Balanced, with the colour of the root and the black depth. -/
inductive Balanced : LLRBNode κ ν → LLRBColor → Nat → Prop
  | empty : Balanced empty .black 0
  | red {k : κ} {v : ν} {l r : LLRBNode κ ν} {h : Nat} :
      Balanced l .black h → Balanced r .black h → Balanced (value k v .red l r) .red h
  | black {k : κ} {v : ν} {l r : LLRBNode κ ν} {c : LLRBColor} {h : Nat} :
      Balanced l c h → Balanced r .black h → Balanced (value k v .black l r) .black (h + 1)

namespace Balanced

variable {n l r : LLRBNode κ ν} {c c' : LLRBColor} {h : Nat} {k : κ} {v : ν}

theorem isRed_of_red (hn : Balanced n .red h) : n.isRed = true := by
  cases hn
  rfl

theorem isRed_of_black (hn : Balanced n .black h) : n.isRed = false := by
  cases hn <;> rfl

theorem eq_red (hn : Balanced n .red h) :
    ∃ k v l r, n = value k v .red l r ∧ Balanced l .black h ∧ Balanced r .black h := by
  cases hn with
  | red hl hr => exact ⟨_, _, _, _, rfl, hl, hr⟩

theorem eq_empty (hn : Balanced n .black 0) : n = LLRBNode.empty := by
  cases hn
  rfl

/-- A red root given the other colour is one black node deeper. -/
theorem recolor_red (hn : Balanced n .red h) : Balanced n.recolor .black (h + 1) := by
  obtain ⟨k, v, l, r, rfl, hl, hr⟩ := hn.eq_red
  exact .black hl hr

/-- A black root without a red child given the other colour is one black node less deep. -/
theorem recolor_black (hn : Balanced n .black (h + 1)) (hl : n.left.isRed = false) :
    Balanced n.recolor .red h := by
  cases hn with
  | @black k v l r c h hl' hr =>
    cases c with
    | black => exact .red hl' hr
    | red =>
      rw [left_value, hl'.isRed_of_red] at hl
      exact absurd hl (by decide)

end Balanced

/-- What is left of the invariant when a red root may have a red left child. -/
def AlmostRed (n : LLRBNode κ ν) (h : Nat) : Prop :=
  ∃ k v l r c, n = value k v .red l r ∧ Balanced l c h ∧ Balanced r .black h

/-! ## `fixUp` -/

section FixUp

variable {k k' k2 : κ} {v v' v2 : ν} {c c' : LLRBColor} {l r l' r' a b d : LLRBNode κ ν} {h : Nat}

theorem fixUp_id (hr : r.isRed = false) (hl : l.isRed = true → l.left.isRed = false) :
    (value k v c l r).fixUp = value k v c l r := by
  have hll : (l.isRed && l.left.isRed) = false := by
    cases hred : l.isRed with
    | true => rw [hl hred, Bool.and_false]
    | false => rfl
  simp [fixUp, hr, hll]

theorem fixUp_rotateLeft (hl : l.isRed = false) (hr : r'.isRed = false) :
    (value k v c l (value k' v' .red l' r')).fixUp = value k' v' c (value k v .red l l') r' := by
  simp [fixUp, rotateLeft_value, hl, hr]

theorem fixUp_flip (hl : l.isRed = true) (hll : l.left.isRed = false) (hr : r.isRed = true) :
    (value k v c l r).fixUp = value k v c.flip l.recolor r.recolor := by
  simp [fixUp, hl, hll, hr, colorFlip_value]

theorem fixUp_rotateRight (hr : r.isRed = false) :
    (value k v c (value k' v' .red (value k2 v2 .red a b) d) r).fixUp =
      value k' v' c.flip (value k2 v2 .black a b) (value k v .black d r) := by
  simp [fixUp, hr, rotateRight_value, colorFlip_value, LLRBColor.flip]

theorem Balanced.fixUp_id (hl : Balanced l c' h) (hr : Balanced r .black h) :
    (value k v c l r).fixUp = value k v c l r := by
  refine LLRBNode.fixUp_id hr.isRed_of_black fun hred => ?_
  cases hl with
  | empty => rfl
  | red hll _ => exact hll.isRed_of_black
  | black _ _ => exact absurd hred Bool.false_ne_true

/-- Under a black node a red right child goes up or, with a red left one, both are flipped. -/
theorem Balanced.fixUp_black (hl : Balanced l c h) (hr : Balanced r c' h) :
    (c = .red → c' = .red → Balanced (value k v .black l r).fixUp .red (h + 1)) ∧
    (c = .black ∨ c' = .black → Balanced (value k v .black l r).fixUp .black (h + 1)) := by
  cases c' with
  | black =>
    rw [hl.fixUp_id hr]
    exact ⟨fun _ hc => absurd hc (by decide), fun _ => .black hl hr⟩
  | red =>
    cases c with
    | red =>
      have hll : l.left.isRed = false := by
        obtain ⟨_, _, _, _, rfl, hll, -⟩ := hl.eq_red
        exact hll.isRed_of_black
      rw [fixUp_flip hl.isRed_of_red hll hr.isRed_of_red]
      exact ⟨fun _ _ => .red hl.recolor_red hr.recolor_red, fun hc => absurd hc (by decide)⟩
    | black =>
      obtain ⟨k', v', l', r', rfl, hl', hr'⟩ := hr.eq_red
      rw [fixUp_rotateLeft hl.isRed_of_black hr'.isRed_of_black]
      exact ⟨fun hc => absurd hc (by decide), fun _ => .black (.red hl hl') hr'⟩

/-- Under a black node the left child may even be a red one with a red left child. -/
theorem AlmostRed.fixUp_black (hl : AlmostRed l h) (hr : Balanced r .black h) :
    ∃ c, Balanced (value k v .black l r).fixUp c (h + 1) := by
  obtain ⟨k', v', a, d, c, rfl, ha, hd⟩ := hl
  cases c with
  | black =>
    have hl' : Balanced (value k' v' .red a d) .red h := .red ha hd
    exact ⟨.black, (hl'.fixUp_black hr).2 (.inr rfl)⟩
  | red =>
    obtain ⟨k2, v2, a1, a2, rfl, ha1, ha2⟩ := ha.eq_red
    rw [fixUp_rotateRight hr.isRed_of_black]
    exact ⟨.red, .red (.black ha1 ha2) (.black hd hr)⟩

theorem Balanced.fixUp_red_left (hl : Balanced l c h) (hr : Balanced r .black h) :
    AlmostRed (value k v .red l r).fixUp h := by
  rw [hl.fixUp_id hr]
  exact ⟨k, v, l, r, c, rfl, hl, hr⟩

theorem Balanced.fixUp_red_right (hl : Balanced l .black h) (hr : Balanced r c h) :
    AlmostRed (value k v .red l r).fixUp h := by
  cases c with
  | black => exact hl.fixUp_red_left hr
  | red =>
    obtain ⟨k', v', l', r', rfl, hl', hr'⟩ := hr.eq_red
    rw [fixUp_rotateLeft hl.isRed_of_black hr'.isRed_of_black]
    exact ⟨k', v', _, r', .red, rfl, .red hl hl', hr'⟩

end FixUp

/-! ## `insertKey:` -/

section Insert

variable {cmp : κ → κ → Ordering} {aKey : κ} {aValue : ν} {n : LLRBNode κ ν} {c : LLRBColor}
  {h : Nat}

/-- What an insertion leaves of the invariant: all of it under a black root,
and under a red one all but that its left child may be red. -/
def Inserted (n : LLRBNode κ ν) : LLRBColor → Nat → Prop
  | .black, h => ∃ c, Balanced n c h
  | .red, h => AlmostRed n h

theorem insertKey_balanced (hn : Balanced n c h) : Inserted (n.insertKey cmp aKey aValue) c h := by
  induction hn with
  | empty => exact ⟨.red, .red .empty .empty⟩
  | @red k v l r h hl hr ihl ihr =>
    obtain ⟨cl, hl'⟩ := ihl
    obtain ⟨cr, hr'⟩ := ihr
    simp only [insertKey, Inserted]
    cases cmp aKey k with
    | lt => exact hl'.fixUp_red_left hr
    | eq => exact hl.fixUp_red_left hr
    | gt => exact hl.fixUp_red_right hr'
  | @black k v l r c h hl hr ihl ihr =>
    obtain ⟨cr, hr'⟩ := ihr
    simp only [insertKey, Inserted]
    cases cmp aKey k with
    | lt =>
      cases c with
      | black =>
        obtain ⟨cl, hl'⟩ := ihl
        exact ⟨.black, (hl'.fixUp_black hr).2 (.inr rfl)⟩
      | red => exact AlmostRed.fixUp_black ihl hr
    | eq => exact ⟨.black, (hl.fixUp_black hr).2 (.inr rfl)⟩
    | gt =>
      have hfix := hl.fixUp_black (k := k) (v := v) hr'
      by_cases hc : c = .red ∧ cr = .red
      · exact ⟨.red, hfix.1 hc.1 hc.2⟩
      · refine ⟨.black, hfix.2 ?_⟩
        revert hc
        cases c <;> cases cr <;> decide

/-- **An insertion puts the entry in its place among the others.** -/
theorem inorder_insertKey [Std.TransCmp cmp] (hs : Sorted cmp n.inorder) :
    (n.insertKey cmp aKey aValue).inorder = SortedAssoc.insert cmp aKey aValue n.inorder := by
  induction n with
  | empty => rfl
  | value k v c l r ihl ihr =>
    obtain ⟨hl, hr, -, -, -⟩ := sorted_append.mp hs
    have hgt : cmp aKey k ≠ .lt → ∀ x ∈ l.inorder, cmp aKey x.1 = .gt := hs.gt_of_mem (e := (k, v))
    simp only [insertKey, inorder_fixUp, inorder]
    cases hk : cmp aKey k with
    | lt =>
      rw [insert_append_left hk, ← ihl hl]
      rfl
    | eq =>
      rw [insert_append_eq (hgt (by rw [hk]; decide)) hk]
      rfl
    | gt =>
      rw [insert_append_gt (hgt (by rw [hk]; decide)) hk, ← ihr hr]
      rfl

end Insert

/-! ## No step reads the colour of its own node -/

section Recolor

theorem copyWith_recolor (k : Option κ) (v : Option ν) (l r : Option (LLRBNode κ ν))
    (n : LLRBNode κ ν) :
    n.recolor.copyWith k v none l r = (n.copyWith k v none l r).recolor := by
  cases n <;> rfl

@[simp] theorem left_recolor (n : LLRBNode κ ν) : n.recolor.left = n.left := by cases n <;> rfl

@[simp] theorem right_recolor (n : LLRBNode κ ν) : n.recolor.right = n.right := by cases n <;> rfl

@[simp] theorem key_recolor (n : LLRBNode κ ν) : n.recolor.key = n.key := by cases n <;> rfl

theorem rotateLeft_recolor (n : LLRBNode κ ν) : n.recolor.rotateLeft = n.rotateLeft.recolor := by
  rcases n with _ | ⟨k, v, c, l, _ | _⟩ <;> rfl

theorem rotateRight_recolor (n : LLRBNode κ ν) : n.recolor.rotateRight = n.rotateRight.recolor := by
  rcases n with _ | ⟨k, v, c, _ | _, r⟩ <;> rfl

theorem colorFlip_recolor (n : LLRBNode κ ν) : n.recolor.colorFlip = n.colorFlip.recolor := by
  cases n <;> rfl

theorem ite_recolor {f : LLRBNode κ ν → LLRBNode κ ν} (hf : ∀ m, f m.recolor = (f m).recolor)
    (p : Prop) [Decidable p] (m : LLRBNode κ ν) :
    (if p then f m.recolor else m.recolor) = (if p then f m else m).recolor := by
  split_ifs
  · exact hf m
  · rfl

theorem fixUp_recolor (n : LLRBNode κ ν) : n.recolor.fixUp = n.fixUp.recolor := by
  simp only [fixUp, left_recolor, right_recolor, ite_recolor rotateLeft_recolor]
  simp only [left_recolor, ite_recolor rotateRight_recolor]
  simp only [right_recolor, ite_recolor colorFlip_recolor]

theorem moveRedLeft_recolor (n : LLRBNode κ ν) :
    n.recolor.moveRedLeft = n.moveRedLeft.recolor := by
  simp only [moveRedLeft, colorFlip_recolor, right_recolor, copyWith_recolor, rotateLeft_recolor]
  split_ifs <;> rfl

theorem moveRedRight_recolor (n : LLRBNode κ ν) :
    n.recolor.moveRedRight = n.moveRedRight.recolor := by
  simp only [moveRedRight, colorFlip_recolor, left_recolor, rotateRight_recolor]
  split_ifs <;> rfl

theorem beforeLeft_recolor (n : LLRBNode κ ν) : n.recolor.beforeLeft = n.beforeLeft.recolor := by
  simp only [beforeLeft, left_recolor, ite_recolor moveRedLeft_recolor]

theorem beforeRight_recolor (n : LLRBNode κ ν) :
    n.recolor.beforeRight = n.beforeRight.recolor := by
  simp only [beforeRight, left_recolor, ite_recolor rotateRight_recolor]
  simp only [right_recolor, ite_recolor moveRedRight_recolor]

/-- **A removal does not read the colour of the node it is sent to.** -/
theorem remove_recolor (cmp : κ → κ → Ordering) (aKey : κ) (n : LLRBNode κ ν) :
    n.recolor.remove cmp aKey = (n.remove cmp aKey).recolor := by
  cases n with
  | empty =>
    simp only [recolor_empty, remove]
  | value k v c l r =>
    have hvalue : value k v c.flip l r = (value k v c l r).recolor := rfl
    rw [recolor_value, remove, remove, hvalue]
    simp only [beforeLeft_recolor, beforeRight_recolor, left_recolor, right_recolor, key_recolor,
      copyWith_recolor, fixUp_recolor]
    split_ifs <;> rfl

end Recolor

/-! ## Going to the left -/

section GoLeft

variable {n : LLRBNode κ ν} {c : LLRBColor} {k : κ} {v : ν} {l r : LLRBNode κ ν} {h : Nat}

/-- The nodes a removal is prepared for: a red one, and a black one whose left child is red. -/
inductive RedAhead : LLRBNode κ ν → LLRBColor → Nat → Prop
  | red {n : LLRBNode κ ν} {h : Nat} : Balanced n .red h → RedAhead n .red h
  | left {k : κ} {v : ν} {l r : LLRBNode κ ν} {h : Nat} :
      Balanced l .red h → Balanced r .black h → RedAhead (value k v .black l r) .black (h + 1)

theorem RedAhead.of_black (hn : Balanced n .black h) (hl : n.left.isRed = true) :
    RedAhead n .black h := by
  cases hn with
  | empty => exact absurd hl Bool.false_ne_true
  | @black k v l r c h hl' hr =>
    cases c with
    | red => exact .left hl' hr
    | black =>
      rw [left_value, hl'.isRed_of_black] at hl
      exact absurd hl Bool.false_ne_true

/-- What a removal leaves: a red node may become black, a black one keeps its colour. -/
def Shrunk (n : LLRBNode κ ν) (c : LLRBColor) (h : Nat) : Prop :=
  ∃ c', Balanced n c' h ∧ (c = .black → c' = .black)

theorem Balanced.shrunk (hn : Balanced n c h) : Shrunk n c h := ⟨c, hn, id⟩

/-- A child and what is around it: whatever takes the child's place with its
colour, or shrunk, the repaired node is what the node itself was, or shrunk. -/
structure Repairs (around : LLRBNode κ ν → LLRBNode κ ν) (c' : LLRBColor) (h' : Nat)
    (c : LLRBColor) (h : Nat) : Prop where
  shrunk : ∀ t, Shrunk t c' h' → Shrunk (around t).fixUp c h
  same : ∀ t, Balanced t c' h' → Balanced (around t).fixUp c h

/-- Going to the left, the removal comes to a node it is prepared for. -/
theorem goLeft (hn : RedAhead (value k v c l r) c h) (hl : l.isEmpty = false) :
    ∃ km vm cm lm rm c' h', (value k v c l r).beforeMin = value km vm cm lm rm ∧
      (km = k ∨ (km, vm) ∈ r.inorder) ∧ RedAhead lm c' h' ∧
      Repairs (fun t => value km vm cm t rm) c' h' c h := by
  cases hn with
  | left hl' hr =>
    refine ⟨k, v, .black, l, r, .red, _, ?_, .inl rfl, .red hl', ?_, ?_⟩
    · simp [beforeMin, hl'.isRed_of_red]
    · rintro t ⟨c', ht, -⟩
      exact ⟨.black, (ht.fixUp_black hr).2 (.inr rfl), id⟩
    · intro t ht
      exact (ht.fixUp_black hr).2 (.inr rfl)
  | red hn =>
    cases hn with
    | red hl' hr =>
      cases h with
      | zero =>
        rw [hl'.eq_empty] at hl
        simp [isEmpty] at hl
      | succ h =>
        have hlr : l.isRed = false := hl'.isRed_of_black
        cases hll : l.left.isRed with
        | true =>
          refine ⟨k, v, .red, l, r, .black, h + 1, ?_, .inl rfl, .of_black hl' hll, ?_, ?_⟩
          · simp [beforeMin, hll]
          · rintro t ⟨c', ht, hc'⟩
            obtain rfl := hc' rfl
            rw [ht.fixUp_id hr]
            exact (Balanced.red ht hr).shrunk
          · intro t ht
            rw [ht.fixUp_id hr]
            exact .red ht hr
        | false =>
          have hm : (value k v .red l r).beforeMin = (value k v .red l r).moveRedLeft := by
            simp [beforeMin, hlr, hll]
          have hl2 : Balanced l.recolor .red h := hl'.recolor_black hll
          rcases moveRedLeft_cases k v .red l r with
            ⟨hrl, hmv⟩ | ⟨kr, vr, cr, kx, vx, a, b, d, rfl, hmv⟩
          · have hr2 : Balanced r.recolor .red h := hr.recolor_black hrl
            refine ⟨k, v, .black, _, _, .red, h, hm.trans hmv, .inl rfl, .red hl2, ?_, ?_⟩
            · rintro t ⟨c', ht, -⟩
              have hfix := ht.fixUp_black (k := k) (v := v) hr2
              cases c' with
              | red => exact (hfix.1 rfl rfl).shrunk
              | black => exact ⟨.black, hfix.2 (.inl rfl), fun _ => rfl⟩
            · intro t ht
              exact (ht.fixUp_black hr2).1 rfl rfl
          · obtain ⟨ha, hb, hd⟩ : Balanced a .black h ∧ Balanced b .black h ∧
                Balanced d .black h := by
              cases hr with
              | black hx hd =>
                cases hx with
                | red ha hb => exact ⟨ha, hb, hd⟩
            refine ⟨kx, vx, .red, _, _, .black, h + 1, hm.trans hmv, .inr ?_, .left hl2 ha, ?_, ?_⟩
            · simp [inorder]
            · rintro t ⟨c', ht, hc'⟩
              obtain rfl := hc' rfl
              rw [ht.fixUp_id (.black hb hd)]
              exact (Balanced.red ht (.black hb hd)).shrunk
            · intro t ht
              rw [ht.fixUp_id (.black hb hd)]
              exact .red ht (.black hb hd)

end GoLeft

/-! ## Going to the right -/

section GoRight

variable {cmp : κ → κ → Ordering} {aKey : κ} {c : LLRBColor} {k : κ} {v : ν}
  {l r : LLRBNode κ ν} {h : Nat}

/-- The nodes `remove:` is sent to. To those it is prepared for, `moveRedRight`
adds a black node with a red right child, on the way to a key not before its own. -/
inductive Removable (cmp : κ → κ → Ordering) (aKey : κ) : LLRBNode κ ν → LLRBColor → Nat → Prop
  | ahead {n : LLRBNode κ ν} {c : LLRBColor} {h : Nat} :
      RedAhead n c h → Removable cmp aKey n c h
  | right {k : κ} {v : ν} {l r : LLRBNode κ ν} {h : Nat} :
      cmp aKey k ≠ .lt → Balanced l .black h → Balanced r .red h →
        Removable cmp aKey (value k v .black l r) .black (h + 1)

/-- Going to the right, either the node's own entry is on top and the removal
is prepared for the right child, or an entry from the left is. -/
theorem goRight (hn : Removable cmp aKey (value k v c l r) c h) (hk : cmp aKey k ≠ .lt)
    (hne : l.isRed = true ∨ r.isEmpty = false) :
    ∃ km vm cm lm rm c' h', (value k v c l r).beforeRight = value km vm cm lm rm ∧
      rm.isEmpty = false ∧
      (km = k ∧ RedAhead rm c' h' ∨ (km, vm) ∈ l.inorder ∧ Removable cmp aKey rm c' h') ∧
      ∀ k' v', Repairs (fun t => value k' v' cm lm t) c' h' c h := by
  cases hn with
  | right _ hl hr =>
    obtain ⟨kr, vr, a, d, rfl, ha, hd⟩ := hr.eq_red
    refine ⟨k, v, .black, l, _, .red, _, ?_, rfl, .inl ⟨rfl, .red hr⟩,
      fun k' v' => ⟨?_, ?_⟩⟩
    · simp [beforeRight, hl.isRed_of_black]
    · rintro t ⟨c', ht, -⟩
      exact ⟨.black, (hl.fixUp_black ht).2 (.inl rfl), id⟩
    · intro t ht
      exact (hl.fixUp_black ht).2 (.inl rfl)
  | ahead hn =>
    cases hn with
    | left hl hr =>
      obtain ⟨kl, vl, a, d, rfl, ha, hd⟩ := hl.eq_red
      refine ⟨kl, vl, .black, a, value k v .red d r, .red, _, ?_, rfl,
        .inr ⟨by simp [inorder], .ahead (.red (.red hd hr))⟩, fun k' v' => ⟨?_, ?_⟩⟩
      · simp [beforeRight, rotateRight_value]
      · rintro t ⟨c', ht, -⟩
        exact ⟨.black, (ha.fixUp_black ht).2 (.inl rfl), id⟩
      · intro t ht
        exact (ha.fixUp_black ht).2 (.inl rfl)
    | red hn =>
      cases hn with
      | red hl hr =>
        have hlr : l.isRed = false := hl.isRed_of_black
        have hre : r.isEmpty = false := by simpa [hlr] using hne
        cases h with
        | zero =>
          rw [hr.eq_empty] at hre
          simp [isEmpty] at hre
        | succ h =>
          cases hrl : r.left.isRed with
          | true =>
            refine ⟨k, v, .red, l, r, .black, h + 1, ?_, hre, .inl ⟨rfl, .of_black hr hrl⟩,
              fun k' v' => ⟨?_, ?_⟩⟩
            · simp [beforeRight, hlr, hrl]
            · rintro t ⟨c', ht, hc'⟩
              obtain rfl := hc' rfl
              rw [hl.fixUp_id ht]
              exact (Balanced.red hl ht).shrunk
            · intro t ht
              rw [hl.fixUp_id ht]
              exact .red hl ht
          | false =>
            have hm : (value k v .red l r).beforeRight = (value k v .red l r).moveRedRight := by
              simp [beforeRight, hlr, hre, hr.isRed_of_black, hrl]
            have hr2 : Balanced r.recolor .red h := hr.recolor_black hrl
            have hre2 : r.recolor.isEmpty = false := by
              cases r with
              | empty => exact hre
              | value => rfl
            rcases moveRedRight_cases k v .red l r with
              ⟨hll, hmv⟩ | ⟨kl, vl, cl, kx, vx, a, b, d, rfl, hmv⟩
            · have hl2 : Balanced l.recolor .red h := hl.recolor_black hll
              refine ⟨k, v, .black, _, _, .red, h, hm.trans hmv, hre2, .inl ⟨rfl, .red hr2⟩,
                fun k' v' => ⟨?_, ?_⟩⟩
              · rintro t ⟨c', ht, -⟩
                have hfix := hl2.fixUp_black (k := k') (v := v') ht
                cases c' with
                | red => exact (hfix.1 rfl rfl).shrunk
                | black => exact ⟨.black, hfix.2 (.inr rfl), fun _ => rfl⟩
              · intro t ht
                exact (hl2.fixUp_black ht).1 rfl rfl
            · obtain ⟨ha, hb, hd⟩ : Balanced a .black h ∧ Balanced b .black h ∧
                  Balanced d .black h := by
                cases hl with
                | black hx hd =>
                  cases hx with
                  | red ha hb => exact ⟨ha, hb, hd⟩
              have hx : Balanced (value kx vx .black a b) .black (h + 1) := .black ha hb
              refine ⟨kl, vl, .red, _, _, .black, h + 1, hm.trans hmv, rfl,
                .inr ⟨by simp [inorder], .right hk hd hr2⟩, fun k' v' => ⟨?_, ?_⟩⟩
              · rintro t ⟨c', ht, hc'⟩
                obtain rfl := hc' rfl
                rw [hx.fixUp_id ht]
                exact (Balanced.red hx ht).shrunk
              · intro t ht
                rw [hx.fixUp_id ht]
                exact .red hx ht

end GoRight

/-! ## `removeMin` -/

section RemoveMin

variable {n : LLRBNode κ ν} {c : LLRBColor} {h : Nat}

theorem min_spec (hn : n.isEmpty = false) :
    ∃ k v rest, n.min.key = some k ∧ n.min.val = some v ∧ n.inorder = (k, v) :: rest := by
  induction n with
  | empty => exact Bool.noConfusion hn
  | value k v c l r ihl ihr =>
    cases hl : l.isEmpty with
    | true =>
      cases l with
      | value => exact absurd hl Bool.false_ne_true
      | empty => exact ⟨k, v, r.inorder, rfl, rfl, rfl⟩
    | false =>
      obtain ⟨k', v', rest, hk, hv, hrest⟩ := ihl hl
      have hmin : (value k v c l r).min = l.min := by simp [min, hl]
      refine ⟨k', v', rest ++ (k, v) :: r.inorder, hmin ▸ hk, hmin ▸ hv, ?_⟩
      rw [inorder, hrest, List.cons_append]

theorem RedAhead.eq_value (hn : RedAhead n c h) : ∃ k v l r, n = value k v c l r := by
  cases hn with
  | red hn =>
    obtain ⟨k, v, l, r, rfl, -⟩ := hn.eq_red
    exact ⟨k, v, l, r, rfl⟩
  | left => exact ⟨_, _, _, _, rfl⟩

/-- Where there is nothing on the left there is nothing on the right. -/
theorem RedAhead.right_eq_empty {k : κ} {v : ν} {l r : LLRBNode κ ν}
    (hn : RedAhead (value k v c l r) c h) (hl : l.isEmpty = true) :
    l = empty ∧ r = empty ∧ c = .red ∧ h = 0 := by
  cases l with
  | value => exact absurd hl Bool.false_ne_true
  | empty =>
    cases hn with
    | left hl' _ => nomatch hl'
    | red hn =>
      cases hn with
      | red hl' hr =>
        cases hl'
        exact ⟨rfl, hr.eq_empty, rfl, rfl⟩

theorem removeMin_eq {k km : κ} {v vm : ν} {cm : LLRBColor} {l r lm rm : LLRBNode κ ν}
    (hl : l.isEmpty = false) (hm : (value k v c l r).beforeMin = value km vm cm lm rm) :
    (value k v c l r).removeMin = (value km vm cm lm.removeMin rm).fixUp := by
  rw [removeMin, left_value, hl, if_neg Bool.false_ne_true, hm]
  rfl

theorem inorder_ne_nil (hn : n.isEmpty = false) : n.inorder ≠ [] := by
  obtain ⟨k, v, rest, -, -, h⟩ := min_spec hn
  rw [h]
  exact List.cons_ne_nil _ _

theorem RedAhead.isEmpty (hn : RedAhead n c h) : n.isEmpty = false := by
  obtain ⟨k, v, l, r, rfl⟩ := hn.eq_value
  rfl

/-- **`removeMin` takes out the first entry**, of a node it is prepared for. -/
theorem removeMin_spec (hn : RedAhead n c h) :
    n.removeMin.inorder = n.inorder.tail ∧ Shrunk n.removeMin c h := by
  induction hcount : n.count using Nat.strongRecOn generalizing n c h with
  | _ N ih =>
    obtain ⟨k, v, l, r, rfl⟩ := hn.eq_value
    cases hl : l.isEmpty with
    | true =>
      obtain ⟨rfl, rfl, rfl, rfl⟩ := hn.right_eq_empty hl
      rw [removeMin, left_value, if_pos hl]
      exact ⟨rfl, .black, .empty, fun _ => rfl⟩
    | false =>
      obtain ⟨km, vm, cm, lm, rm, c', h', hm, -, hahead, hrep⟩ := goLeft hn hl
      have hin : (value k v c l r).inorder = lm.inorder ++ (km, vm) :: rm.inorder := by
        rw [← inorder_beforeMin, hm, inorder]
      have hlt : lm.count < N := by
        rw [← hcount, ← count_beforeMin (value k v c l r), hm, count]
        omega
      obtain ⟨htail, hshrunk⟩ := ih lm.count hlt hahead rfl
      rw [removeMin_eq hl hm]
      refine ⟨?_, hrep.shrunk _ hshrunk⟩
      rw [inorder_fixUp, inorder, htail, hin, List.tail_append_of_ne_nil]
      exact inorder_ne_nil hahead.isEmpty

theorem minKey_eq (n : LLRBNode κ ν) : n.minKey = n.inorder.head?.map Prod.fst := by
  cases hn : n.isEmpty with
  | true =>
    cases n with
    | empty => rfl
    | value => exact absurd hn Bool.false_ne_true
  | false =>
    obtain ⟨k, v, rest, hk, -, h⟩ := min_spec hn
    rw [minKey, hk, h]
    rfl

theorem maxKey_eq (n : LLRBNode κ ν) : n.maxKey = n.inorder.getLast?.map Prod.fst := by
  induction n with
  | empty => rfl
  | value k v c l r _ ihr =>
    rw [maxKey, inorder, List.getLast?_append, List.getLast?_cons]
    cases hr : r.isEmpty with
    | true =>
      cases r with
      | empty => rfl
      | value => exact absurd hr Bool.false_ne_true
    | false =>
      rw [if_neg Bool.false_ne_true, ihr]
      cases hlast : r.inorder.getLast? with
      | none => exact absurd (List.getLast?_eq_none_iff.mp hlast) (inorder_ne_nil hr)
      | some e => rfl

end RemoveMin

/-! ## `remove:` -/

section Remove

variable {cmp : κ → κ → Ordering} {aKey : κ} {n : LLRBNode κ ν} {c cm : LLRBColor} {h : Nat}
  {k km ks : κ} {v vm vs : ν} {l r lm rm : LLRBNode κ ν}

theorem remove_lt (hk : cmp aKey k = .lt) (hl : l.isEmpty = false)
    (hm : (value k v c l r).beforeMin = value km vm cm lm rm) :
    (value k v c l r).remove cmp aKey = (value km vm cm (lm.remove cmp aKey) rm).fixUp := by
  have hb : (value k v c l r).beforeLeft = (value k v c l r).beforeMin := by
    simp [beforeLeft, beforeMin, hl]
  rw [remove, if_pos hk, hb, hm]
  rfl

theorem remove_ne (hk : cmp aKey k ≠ .lt)
    (hm : (value k v c l r).beforeRight = value km vm cm lm rm) (hkm : cmp aKey km ≠ .eq) :
    (value k v c l r).remove cmp aKey = (value km vm cm lm (rm.remove cmp aKey)).fixUp := by
  have hkey : ¬ (value km vm cm lm rm).key.map (cmp aKey) = some .eq := by
    rw [key, Option.map_some, Option.some_inj]
    exact hkm
  rw [remove, if_neg hk, hm]
  exact if_neg hkey

theorem remove_eq (hk : cmp aKey k ≠ .lt)
    (hm : (value k v c l r).beforeRight = value km vm cm lm rm) (hkm : cmp aKey km = .eq)
    (hr : rm.isEmpty = false) (hks : rm.min.key = some ks) (hvs : rm.min.val = some vs) :
    (value k v c l r).remove cmp aKey =
      (value ks vs cm lm (rm.removeMin.remove cmp aKey)).fixUp := by
  have hkey : (value km vm cm lm rm).key.map (cmp aKey) = some .eq := by
    rw [key, Option.map_some, hkm]
  have hr' : ¬ (value km vm cm lm rm).right.isEmpty = true := by
    rw [right_value, hr]
    exact Bool.false_ne_true
  rw [remove, if_neg hk, hm]
  refine (if_pos hkey).trans ((if_neg hr').trans ?_)
  simp only [right_value, hks, hvs]
  rfl

/-- What `remove:` does to a node: its entries without the key's, the colour
only lost where the key was there. -/
structure Removed (cmp : κ → κ → Ordering) (aKey : κ) (n m : LLRBNode κ ν) (c : LLRBColor)
    (h : Nat) : Prop where
  inorder : m.inorder = erase cmp aKey n.inorder
  shrunk : Shrunk m c h
  same : lookup cmp aKey n.inorder = none → Balanced m c h

/-- **The second `remove:` changes no entry, no colour and no depth.** A key
that is not there may be removed from any balanced tree, prepared for or not. -/
theorem remove_absent
    (hspec : ∀ (m : LLRBNode κ ν) c h, m.count = n.count → Removable cmp aKey m c h → Sorted cmp m.inorder →
      Removed cmp aKey m (m.remove cmp aKey) c h)
    (hn : Balanced n c h) (hs : Sorted cmp n.inorder) (hk : lookup cmp aKey n.inorder = none) :
    (n.remove cmp aKey).inorder = n.inorder ∧ Balanced (n.remove cmp aKey) c h := by
  have hprep : ∀ (m : LLRBNode κ ν) c h, m.count = n.count → Removable cmp aKey m c h → m.inorder = n.inorder →
      (m.remove cmp aKey).inorder = n.inorder ∧ Balanced (m.remove cmp aKey) c h := by
    intro m c h hcount hm hin
    have hrem := hspec m c h hcount hm (hin ▸ hs)
    refine ⟨?_, hrem.same (hin ▸ hk)⟩
    rw [hrem.inorder, hin, erase_of_lookup_eq_none hk]
  cases hn with
  | empty =>
    rw [remove]
    exact ⟨rfl, .empty⟩
  | red hl hr => exact hprep _ _ _ rfl (.ahead (.red (.red hl hr))) rfl
  | @black k v l r c h hl hr =>
    cases c with
    | red => exact hprep _ _ _ rfl (.ahead (.left hl hr)) rfl
    | black =>
      -- The node given the other colour is one the removal is prepared for.
      obtain ⟨hin, hbal⟩ := hprep (value k v .red l r) .red h rfl (.ahead (.red (.red hl hr))) rfl
      have hflip : value k v .black l r = (value k v .red l r).recolor := rfl
      rw [hflip, remove_recolor, inorder_recolor]
      exact ⟨hin, hbal.recolor_red⟩

theorem Removable.eq_value (hn : Removable cmp aKey n c h) : ∃ k v l r, n = value k v c l r := by
  cases hn with
  | ahead hn => exact hn.eq_value
  | right => exact ⟨_, _, _, _, rfl⟩

/-- Without a red left child and without a right child the node is a red leaf. -/
theorem Removable.leaf (hn : Removable cmp aKey (value k v c l r) c h)
    (hne : ¬ (l.isRed = true ∨ r.isEmpty = false)) : l = empty ∧ r = empty ∧ c = .red ∧ h = 0 := by
  rw [not_or] at hne
  obtain ⟨hl, hr⟩ := hne
  cases hn with
  | right _ _ hr' =>
    obtain ⟨_, _, _, _, rfl, -⟩ := hr'.eq_red
    exact absurd rfl hr
  | ahead hn =>
    cases hn with
    | left hl' _ => exact absurd hl'.isRed_of_red hl
    | red hn =>
      cases hn with
      | red hl' hr' =>
        cases hr' with
        | empty => exact ⟨hl'.eq_empty, rfl, rfl, rfl⟩
        | black => exact absurd rfl hr

theorem balanced_leaf : Balanced (value k v .red empty empty) .red 0 := .red .empty .empty

/-- A red leaf goes when the key is its own, and stays when it is not. -/
theorem removed_leaf :
    Removed cmp aKey (value k v .red empty empty) ((value k v .red empty empty).remove cmp aKey)
      .red 0 := by
  have hright : (value k v .red empty empty).beforeRight = value k v .red empty empty := rfl
  have hleft : (value k v .red empty empty).beforeLeft = value k v .red empty empty := rfl
  cases hk : cmp aKey k with
  | lt =>
    have hrem : (value k v .red empty empty).remove cmp aKey = value k v .red empty empty := by
      rw [remove, if_pos hk, hleft]
      simp only [left_value, remove]
      rfl
    rw [hrem]
    exact ⟨by simp only [inorder, List.nil_append, erase, hk], balanced_leaf.shrunk,
      fun _ => balanced_leaf⟩
  | eq =>
    have hrem : (value k v .red empty empty).remove cmp aKey = empty := by
      rw [remove, if_neg (by rw [hk]; decide), hright]
      simp only [key, Option.map_some, hk, if_true]
      rfl
    rw [hrem]
    refine ⟨by simp only [inorder, List.nil_append, erase, hk],
      ⟨.black, .empty, fun _ => rfl⟩, fun h => ?_⟩
    simp only [inorder, List.nil_append, lookup, hk, reduceCtorEq] at h
  | gt =>
    have hrem : (value k v .red empty empty).remove cmp aKey = value k v .red empty empty := by
      rw [remove_ne (by rw [hk]; decide) hright (by rw [hk]; decide), remove]
      rfl
    rw [hrem]
    exact ⟨by simp only [inorder, List.nil_append, erase, hk], balanced_leaf.shrunk,
      fun _ => balanced_leaf⟩

/-- **`remove:` takes out the key's entry and keeps the invariant**, wherever it is sent. -/
theorem remove_spec [Std.TransCmp cmp] (hn : Removable cmp aKey n c h)
    (hs : Sorted cmp n.inorder) : Removed cmp aKey n (n.remove cmp aKey) c h := by
  induction hcount : n.count using Nat.strongRecOn generalizing n c h with
  | _ N ih =>
    obtain ⟨k, v, l, r, rfl⟩ := hn.eq_value
    by_cases hk : cmp aKey k = .lt
    · cases hn with
      | right hk' _ _ => exact absurd hk hk'
      | ahead hn =>
        cases hl : l.isEmpty with
        | true =>
          obtain ⟨rfl, rfl, rfl, rfl⟩ := hn.right_eq_empty hl
          exact removed_leaf
        | false =>
          obtain ⟨km, vm, cm, lm, rm, c', h', hm, hkm, hahead, hrep⟩ := goLeft hn hl
          have hin : (value k v c l r).inorder = lm.inorder ++ (km, vm) :: rm.inorder := by
            rw [← inorder_beforeMin, hm, inorder]
          have hlt : lm.count < N := by
            rw [← hcount, ← count_beforeMin (value k v c l r), hm, count]
            omega
          have hkm' : cmp aKey km = .lt := by
            rcases hkm with rfl | hmem
            · exact hk
            · exact Std.TransCmp.lt_trans hk ((sorted_append.mp hs).2.2.2.1 _ hmem)
          have hrem := ih lm.count hlt (.ahead hahead) (sorted_append.mp (hin ▸ hs)).1 rfl
          rw [remove_lt hk hl hm]
          refine ⟨?_, hrep.shrunk _ hrem.shrunk, fun hnone => hrep.same _ (hrem.same ?_)⟩
          · rw [inorder_fixUp, inorder, hrem.inorder, hin, erase_append_left hkm']
          · rwa [hin, lookup_append_left hkm'] at hnone
    · by_cases hne : l.isRed = true ∨ r.isEmpty = false
      · obtain ⟨km, vm, cm, lm, rm, c', h', hm, hrm, hside, hrep⟩ := goRight hn hk hne
        have hin : (value k v c l r).inorder = lm.inorder ++ (km, vm) :: rm.inorder := by
          rw [← inorder_beforeRight, hm, inorder]
        have hlt : rm.count < N := by
          rw [← hcount, ← count_beforeRight (value k v c l r), hm, count]
          omega
        have hsm : Sorted cmp (lm.inorder ++ (km, vm) :: rm.inorder) := hin ▸ hs
        -- The entry that is on top now is not after the key.
        have hkm : cmp aKey km ≠ .lt := by
          rcases hside with ⟨rfl, -⟩ | ⟨hmem, -⟩
          · exact hk
          · intro hlt'
            exact hk (Std.TransCmp.lt_trans hlt' ((sorted_append.mp hs).2.2.1 _ hmem))
        have hgt : ∀ x ∈ lm.inorder, cmp aKey x.1 = .gt := hsm.gt_of_mem hkm
        by_cases hkeq : cmp aKey km = .eq
        · have hahead : RedAhead rm c' h' := by
            rcases hside with ⟨-, hahead⟩ | ⟨hmem, -⟩
            · exact hahead
            · refine absurd ?_ hk
              exact Std.TransCmp.lt_of_eq_of_lt hkeq ((sorted_append.mp hs).2.2.1 _ hmem)
          obtain ⟨ks, vs, rest, hks, hvs, hrest⟩ := min_spec hrm
          obtain ⟨htail, c2, hbal, hc2⟩ := removeMin_spec hahead
          have hsr : Sorted cmp rm.removeMin.inorder := by
            rw [htail]
            exact (sorted_append.mp hsm).2.1.sublist (List.tail_sublist _)
          have hnone : lookup cmp aKey rm.removeMin.inorder = none := by
            refine lookup_eq_none_of_lt fun x hx => ?_
            rw [htail] at hx
            refine Std.TransCmp.lt_of_eq_of_lt hkeq ?_
            exact (sorted_append.mp hsm).2.2.2.1 x (List.mem_of_mem_tail hx)
          obtain ⟨hin2, hbal2⟩ := remove_absent
            (fun m c h hcm hm hsm => ih m.count
              (hcm ▸ Nat.lt_of_le_of_lt (count_removeMin_le rm) hlt) hm hsm rfl) hbal hsr hnone
          rw [remove_eq hk hm hkeq hrm hks hvs]
          refine ⟨?_, (hrep _ _).shrunk _ ⟨c2, hbal2, hc2⟩, fun hnone' => ?_⟩
          · rw [inorder_fixUp, inorder, hin2, htail, hin, erase_append_eq hgt hkeq, hrest]
            rfl
          · rw [hin, lookup_append_eq hgt hkeq] at hnone'
            exact absurd hnone' (by simp)
        · have hkgt : cmp aKey km = .gt := by
            revert hkm hkeq
            cases cmp aKey km <;> decide
          have hrem' : Removable cmp aKey rm c' h' := by
            rcases hside with ⟨-, hahead⟩ | ⟨-, hremovable⟩
            · exact .ahead hahead
            · exact hremovable
          have hrem := ih rm.count hlt hrem' (sorted_append.mp hsm).2.1 rfl
          rw [remove_ne hk hm hkeq]
          refine ⟨?_, (hrep _ _).shrunk _ hrem.shrunk, fun hnone => (hrep _ _).same _ (hrem.same ?_)⟩
          · rw [inorder_fixUp, inorder, hrem.inorder, hin, erase_append_gt hgt hkgt]
          · rwa [hin, lookup_append_gt hgt hkgt] at hnone
      · obtain ⟨rfl, rfl, rfl, rfl⟩ := hn.leaf hne
        exact removed_leaf

end Remove

/-! ## What the invariant is good for -/

section Depth

variable {n : LLRBNode κ ν} {c : LLRBColor} {h : Nat}

theorem check_of_balanced (hn : Balanced n c h) : n.check = .ok h := by
  induction hn with
  | empty => rfl
  | red hl hr ihl ihr =>
    simp [check, hl.isRed_of_black, hr.isRed_of_black, ihl, ihr, bind, Except.bind]
  | black hl hr ihl ihr =>
    simp [check, hr.isRed_of_black, ihl, ihr, bind, Except.bind]

theorem Balanced.two_pow_le (hn : Balanced n c h) : 2 ^ h ≤ n.count + 1 := by
  induction hn with
  | empty => exact Nat.le_refl 1
  | red _ _ ihl ihr =>
    rw [count]
    omega
  | black _ _ ihl ihr =>
    rw [count, Nat.pow_succ]
    omega

/-- A balanced tree passes `checkMaxDepth`. -/
theorem checkMaxDepth_of_balanced (hn : Balanced n c h) : n.checkMaxDepth = .ok true := by
  rw [checkMaxDepth, check_of_balanced hn]
  exact congrArg Except.ok (decide_eq_true hn.two_pow_le)

/-- The nodes on the longest way down. -/
def height : LLRBNode κ ν → Nat
  | empty => 0
  | value _ _ _ l r => max l.height r.height + 1

theorem Balanced.height_le (hn : Balanced n c h) :
    n.height ≤ 2 * h + if c = .red then 1 else 0 := by
  induction hn with
  | empty => exact Nat.le_refl 0
  | red _ _ ihl ihr =>
    simp only [height, reduceCtorEq, if_false, if_true] at ihl ihr ⊢
    omega
  | @black k v l r c h _ _ ihl ihr =>
    simp only [height, reduceCtorEq, if_false] at ihl ihr ⊢
    split_ifs at ihl <;> omega

/-- **No way down is longer than twice the logarithm of the count.** -/
theorem Balanced.height_le_log (hn : Balanced n .black h) :
    n.height ≤ 2 * Nat.log2 (n.count + 1) := by
  have hlog : h ≤ Nat.log2 (n.count + 1) := (Nat.le_log2 (Nat.succ_ne_zero _)).mpr hn.two_pow_le
  have hheight := hn.height_le
  simp only [reduceCtorEq, if_false] at hheight
  omega

end Depth

end TerpBuilder.LLRBNode
