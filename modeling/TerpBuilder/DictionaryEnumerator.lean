/-
The enumerators of the sorted dictionaries.

`FTreeSortedDictionaryEnumerator` keeps a stack of nodes whose keys it still
owes, and `nextObject` pops one and pushes the way down its other side. The
array's enumerator counts a position up or down. What both give, from a start
key on and in either direction, is read off the sorted list. A dictionary is not
written to, so what an enumerator gives is a list.
-/
import TerpBuilder.SortedDictionary

set_option autoImplicit false

namespace TerpBuilder

open LLRBNode SortedAssoc

/-! ## The tree's enumerator -/

namespace FTreeSortedDictionaryEnumerator

variable {κ ν : Type}

/-- The loop of the initialiser, which walks down from the root. The top of the
stack is the head of the list. -/
def fillStack (cmp : κ → κ → Ordering) (startKey : Option κ) (isReverse : Bool) :
    List (LLRBNode κ ν) → LLRBNode κ ν → List (LLRBNode κ ν)
  | stack, .empty => stack
  | stack, .value k v c l r =>
    -- without a start key the comparison is 1, and flipped to -1 in reverse
    let order := match startKey with
      | some start => cmp k start
      | none => .gt
    match (if isReverse then order.swap else order) with
    | .lt =>
      if isReverse then fillStack cmp startKey isReverse stack l
      else fillStack cmp startKey isReverse stack r
    | .eq => .value k v c l r :: stack
    | .gt =>
      if isReverse then fillStack cmp startKey isReverse (.value k v c l r :: stack) r
      else fillStack cmp startKey isReverse (.value k v c l r :: stack) l

/-- The loop of `nextObject`. -/
def pushPath (isReverse : Bool) : List (LLRBNode κ ν) → LLRBNode κ ν → List (LLRBNode κ ν)
  | stack, .empty => stack
  | stack, .value k v c l r =>
    if isReverse then pushPath isReverse (.value k v c l r :: stack) r
    else pushPath isReverse (.value k v c l r :: stack) l

def nextObject (isReverse : Bool) : List (LLRBNode κ ν) → Option (κ × List (LLRBNode κ ν))
  | [] => none
  | .empty :: _ => none
  | .value k _ _ l r :: stack => some (k, pushPath isReverse stack (if isReverse then l else r))

/-! ### What a stack owes -/

section Owed

variable {cmp : κ → κ → Ordering} {isReverse : Bool} {n : LLRBNode κ ν}
  {stack : List (LLRBNode κ ν)} {k start : κ}

/-- The comparator of the direction. -/
def towards (isReverse : Bool) (cmp : κ → κ → Ordering) : κ → κ → Ordering :=
  if isReverse then fun a b => cmp b a else cmp

/-- The entries in the direction. -/
def walk (isReverse : Bool) (n : LLRBNode κ ν) : List (κ × ν) :=
  if isReverse then n.inorder.reverse else n.inorder

/-- The child that comes first in the direction, and the one that comes last. -/
def first (isReverse : Bool) (n : LLRBNode κ ν) : LLRBNode κ ν :=
  if isReverse then n.right else n.left

def last (isReverse : Bool) (n : LLRBNode κ ν) : LLRBNode κ ν :=
  if isReverse then n.left else n.right

/-- A node on the stack owes its own entry and those of its last child. -/
def owedBy (isReverse : Bool) : LLRBNode κ ν → List (κ × ν)
  | .empty => []
  | .value k v c l r => (k, v) :: walk isReverse (last isReverse (.value k v c l r))

def owed (isReverse : Bool) (stack : List (LLRBNode κ ν)) : List (κ × ν) :=
  stack.flatMap (owedBy isReverse)

theorem walk_value (isReverse : Bool) (k : κ) (v : ν) (c : LLRBColor) (l r : LLRBNode κ ν) :
    walk isReverse (.value k v c l r) =
      walk isReverse (first isReverse (.value k v c l r)) ++ owedBy isReverse (.value k v c l r) := by
  cases isReverse <;> simp [walk, first, last, owedBy, inorder]

theorem sorted_walk (hs : Sorted cmp n.inorder) :
    Sorted (towards isReverse cmp) (walk isReverse n) := by
  cases isReverse with
  | false => exact hs
  | true => exact List.pairwise_reverse.mpr hs

theorem owed_pushPath : owed isReverse (pushPath isReverse stack n) =
    walk isReverse n ++ owed isReverse stack := by
  induction n generalizing stack with
  | empty => cases isReverse <;> rfl
  | value k v c l r ihl ihr =>
    rw [walk_value, List.append_assoc, pushPath]
    cases isReverse with
    | false => exact ihl
    | true => exact ihr

/-- `nextObject` gives the first key that is owed. -/
theorem nextObject_eq_some {s : List (LLRBNode κ ν)} (h : nextObject isReverse stack = some (k, s)) :
    ∃ v, owed isReverse stack = (k, v) :: owed isReverse s := by
  match stack, h with
  | .value k' v c l r :: rest, h =>
    obtain ⟨rfl, rfl⟩ := Prod.mk.inj (Option.some.inj h)
    refine ⟨v, ?_⟩
    rw [owed_pushPath]
    rfl

/-- What an enumerator gives until it gives nil. -/
def objects (isReverse : Bool) (stack : List (LLRBNode κ ν)) : List κ :=
  match _h : nextObject isReverse stack with
  | none => []
  | some (k, s) => k :: objects isReverse s
termination_by (owed isReverse stack).length
decreasing_by
  obtain ⟨v, hv⟩ := nextObject_eq_some _h
  rw [hv]
  exact Nat.lt_succ_self _

theorem pushPath_ne_empty (hstack : ∀ m ∈ stack, m.isEmpty = false) :
    ∀ m ∈ pushPath isReverse stack n, m.isEmpty = false := by
  induction n generalizing stack with
  | empty => exact hstack
  | value k v c l r ihl ihr =>
    have hcons : ∀ m ∈ LLRBNode.value k v c l r :: stack, m.isEmpty = false :=
      List.forall_mem_cons.mpr ⟨rfl, hstack⟩
    rw [pushPath]
    split_ifs
    · exact ihr hcons
    · exact ihl hcons

/-- **An enumerator gives what its stack owes**, and then nil. -/
theorem objects_eq (hstack : ∀ m ∈ stack, m.isEmpty = false) :
    objects isReverse stack = (owed isReverse stack).map Prod.fst := by
  induction hlen : (owed isReverse stack).length using Nat.strongRecOn generalizing stack with
  | _ N ih =>
    rw [objects]
    rcases stack with _ | ⟨m, stack⟩
    · rfl
    · rw [List.forall_mem_cons] at hstack
      rcases m with _ | ⟨k, v, c, l, r⟩
      · exact Bool.noConfusion hstack.1
      · have howed : owed isReverse (LLRBNode.value k v c l r :: stack) =
            (k, v) :: owed isReverse (pushPath isReverse stack (if isReverse then l else r)) := by
          rw [owed_pushPath]
          rfl
        rw [howed] at hlen ⊢
        have hlt : (owed isReverse (pushPath isReverse stack (if isReverse then l else r))).length <
            N := by
          rw [← hlen, List.length_cons]
          omega
        rw [List.map_cons, ← ih _ hlt (pushPath_ne_empty hstack.2) rfl]
        rfl

theorem fillStack_value [Std.OrientedCmp cmp] (v : ν) (c : LLRBColor) (l r : LLRBNode κ ν) :
    fillStack cmp (some start) isReverse stack (.value k v c l r) =
      match towards isReverse cmp k start with
      | .lt => fillStack cmp (some start) isReverse stack (last isReverse (.value k v c l r))
      | .eq => .value k v c l r :: stack
      | .gt => fillStack cmp (some start) isReverse (.value k v c l r :: stack)
          (first isReverse (.value k v c l r)) := by
  rw [fillStack]
  cases isReverse with
  | false => rfl
  | true =>
    have hswap : (cmp k start).swap = cmp start k := Std.OrientedCmp.eq_swap.symm
    simp only [if_true, hswap]
    rfl

instance transCmp_towards [Std.TransCmp cmp] : Std.TransCmp (towards isReverse cmp) := by
  cases isReverse with
  | false => exact inferInstanceAs (Std.TransCmp cmp)
  | true => exact inferInstanceAs (Std.TransCmp fun a b => cmp b a)

/-- **The walk down leaves out exactly what comes before the start key** in the
direction, and stops at the key itself. -/
theorem owed_fillStack [Std.TransCmp cmp] (hs : Sorted cmp n.inorder) :
    owed isReverse (fillStack cmp (some start) isReverse stack n) =
      startingAt (towards isReverse cmp) start (walk isReverse n) ++ owed isReverse stack := by
  induction n generalizing stack with
  | empty => cases isReverse <;> rfl
  | value k v c l r ihl ihr =>
    obtain ⟨hl, hr, -, -, -⟩ := sorted_append.mp hs
    have hside : ∀ m, m = l ∨ m = r → ∀ stack,
        owed isReverse (fillStack cmp (some start) isReverse stack m) =
          startingAt (towards isReverse cmp) start (walk isReverse m) ++ owed isReverse stack := by
      rintro m (rfl | rfl) stack
      · exact ihl hl
      · exact ihr hr
    have hfirst := hside (first isReverse (.value k v c l r)) (by cases isReverse <;> simp [first])
    have hlast := hside (last isReverse (.value k v c l r)) (by cases isReverse <;> simp [last])
    have hsw : Sorted (towards isReverse cmp) (walk isReverse (.value k v c l r)) := sorted_walk hs
    rw [walk_value, owedBy] at hsw
    rw [walk_value, fillStack_value, owedBy]
    cases hk : towards isReverse cmp k start with
    | lt =>
      rw [hsw.startingAt_lt hk]
      exact hlast stack
    | eq =>
      have hge : towards isReverse cmp k start ≠ .lt := by rw [hk]; decide
      have hnone : startingAt (towards isReverse cmp) start
          (walk isReverse (first isReverse (.value k v c l r))) = [] := by
        refine startingAt_of_lt fun x hx => ?_
        exact Std.TransCmp.lt_of_lt_of_eq ((sorted_append.mp hsw).2.2.1 x hx) hk
      rw [hsw.startingAt_ge hge, hnone]
      rfl
    | gt =>
      have hge : towards isReverse cmp k start ≠ .lt := by rw [hk]; decide
      rw [hsw.startingAt_ge hge, List.append_assoc]
      exact hfirst _

theorem fillStack_none_forward :
    fillStack cmp none false stack n = pushPath false stack n := by
  induction n generalizing stack with
  | empty => rfl
  | value k v c l r ihl _ => exact ihl

/-- Without a start key the walk of a reverse enumerator takes every node for
one before the start, and ends with an empty stack. -/
theorem fillStack_none_reverse : fillStack cmp none true stack n = stack := by
  induction n generalizing stack with
  | empty => rfl
  | value k v c l r ihl _ => exact ihl

theorem fillStack_ne_empty [Std.OrientedCmp cmp] (hstack : ∀ m ∈ stack, m.isEmpty = false) :
    ∀ m ∈ fillStack cmp (some start) isReverse stack n, m.isEmpty = false := by
  induction n generalizing stack with
  | empty => exact hstack
  | value k v c l r ihl ihr =>
    have hcons : ∀ m ∈ LLRBNode.value k v c l r :: stack, m.isEmpty = false :=
      List.forall_mem_cons.mpr ⟨rfl, hstack⟩
    rw [fillStack_value]
    cases towards isReverse cmp k start with
    | lt =>
      cases isReverse with
      | false => exact ihr hstack
      | true => exact ihl hstack
    | eq => exact hcons
    | gt =>
      cases isReverse with
      | false => exact ihl hcons
      | true => exact ihr hcons

end Owed

end FTreeSortedDictionaryEnumerator

/-! ## The array's enumerator -/

namespace FArraySortedDictionaryEnumerator

variable {κ ν : Type}

def nextObject (keys : List κ) (reverse : Bool) (pos : Int) : Option (κ × Int) :=
  if 0 ≤ pos ∧ pos < keys.length then
    keys[pos.toNat]?.map fun key => (key, if reverse then pos - 1 else pos + 1)
  else none

/-- What the enumerator gives until it gives nil, `fuel` of them at most. -/
def objects (keys : List κ) (reverse : Bool) : Nat → Int → List κ
  | 0, _ => []
  | fuel + 1, pos =>
    match nextObject keys reverse pos with
    | none => []
    | some (key, pos') => key :: objects keys reverse fuel pos'

theorem objects_forward (keys : List κ) (fuel pos : Nat) (hfuel : keys.length ≤ pos + fuel) :
    objects keys false fuel pos = keys.drop pos := by
  induction fuel generalizing pos with
  | zero => exact (List.drop_eq_nil_of_le (by omega)).symm
  | succ fuel ih =>
    rw [objects, nextObject]
    by_cases hpos : pos < keys.length
    · rw [if_pos (by omega), Int.toNat_natCast, List.getElem?_eq_getElem hpos,
        List.drop_eq_getElem_cons hpos, ← ih (pos + 1) (by omega)]
      rfl
    · rw [if_neg (by omega), List.drop_eq_nil_of_le (by omega)]

theorem objects_reverse (keys : List κ) (fuel : Nat) (pos : Int) (hfuel : pos + 1 ≤ fuel)
    (hpos : pos < keys.length) :
    objects keys true fuel pos = (keys.take (pos + 1).toNat).reverse := by
  induction fuel generalizing pos with
  | zero =>
    have h : (pos + 1).toNat = 0 := by omega
    rw [h]
    rfl
  | succ fuel ih =>
    rw [objects, nextObject]
    by_cases hneg : 0 ≤ pos
    · have hlt : pos.toNat < keys.length := by omega
      have hsucc : (pos + 1).toNat = pos.toNat + 1 := by omega
      have hpred : (pos - 1 + 1).toNat = pos.toNat := by omega
      rw [if_pos ⟨hneg, hpos⟩, List.getElem?_eq_getElem hlt, hsucc, List.take_add_one,
        List.getElem?_eq_getElem hlt]
      simp only [Option.map_some, if_true, Option.toList_some, List.reverse_append,
        List.reverse_singleton, List.singleton_append]
      rw [ih (pos - 1) (by omega) (by omega), hpred]
    · have h : (pos + 1).toNat = 0 := by omega
      rw [if_neg (by omega), h]
      rfl

end FArraySortedDictionaryEnumerator

/-! ## The enumerators of a dictionary -/

namespace FArraySortedDictionary

variable {κ ν : Type} {cmp : κ → κ → Ordering} {start : κ} {xs : List (κ × ν)}

/-- The position of `reverseKeyEnumeratorFrom:`. One before the insertion
position, if the start key is not there. -/
def reverseStart (cmp : κ → κ → Ordering) (keys : List κ) (start : κ) : Int :=
  let startPos := findInsertPosition cmp start keys
  if keys[startPos]?.map (fun key => cmp key start) = some .eq then startPos else startPos - 1

/-- The insertion position is behind the entries before the key. -/
theorem findInsertPosition_append {l r : List (κ × ν)} (hl : ∀ x ∈ l, cmp x.1 start = .lt)
    (hr : ∀ x ∈ r, cmp x.1 start ≠ .lt) :
    findInsertPosition cmp start ((l ++ r).map Prod.fst) = l.length := by
  induction l with
  | nil =>
    rcases r with _ | ⟨e, r⟩
    · rfl
    · exact if_neg (hr e List.mem_cons_self)
  | cons x l ih =>
    rw [List.forall_mem_cons] at hl
    rw [List.cons_append, List.map_cons, findInsertPosition, if_pos hl.1, ih hl.2, List.length_cons]

/-- The reverse position is that of the last entry not after the key. -/
theorem reverseStart_cut {l m r : List (κ × ν)} (hm : m.length ≤ 1)
    (hl : ∀ x ∈ l, cmp x.1 start = .lt) (hmk : ∀ x ∈ m, cmp x.1 start = .eq)
    (hr : ∀ x ∈ r, cmp x.1 start = .gt) :
    reverseStart cmp ((l ++ (m ++ r)).map Prod.fst) start = (l ++ m).length - 1 := by
  have hge : ∀ x ∈ m ++ r, cmp x.1 start ≠ .lt := by
    intro x hx hlt
    rcases List.mem_append.mp hx with hx | hx
    · rw [hmk x hx] at hlt
      exact absurd hlt (by decide)
    · rw [hr x hx] at hlt
      exact absurd hlt (by decide)
  have hat : ((l ++ (m ++ r)).map Prod.fst)[l.length]? = (m ++ r).head?.map Prod.fst := by
    rw [List.getElem?_map, List.getElem?_append_right (Nat.le_refl _), Nat.sub_self,
      List.head?_eq_getElem?]
  rw [reverseStart, findInsertPosition_append hl hge]
  simp only [hat]
  rcases m with _ | ⟨e, _ | ⟨e', m⟩⟩
  · rw [if_neg, List.append_nil]
    rcases r with _ | ⟨e, r⟩
    · simp
    · simp [hr e List.mem_cons_self]
  · rw [if_pos (by simp [hmk e List.mem_cons_self])]
    simp
  · simp at hm

end FArraySortedDictionary

namespace FImmutableSortedDictionary

variable {κ ν : Type} {cmp : κ → κ → Ordering} {d : FImmutableSortedDictionary κ ν} {start : κ}
  {xs : List (κ × ν)}

/-- The keys of `keyEnumerator` or, in reverse, of `reverseKeyEnumerator`. -/
def keyEnumerator (cmp : κ → κ → Ordering) (isReverse : Bool) :
    FImmutableSortedDictionary κ ν → List κ
  | .tree root =>
    FTreeSortedDictionaryEnumerator.objects isReverse
      (FTreeSortedDictionaryEnumerator.fillStack cmp none isReverse [] root)
  | .array d => if isReverse then d.keys.reverse else d.keys

/-- The keys of `keyEnumeratorFrom:` or, in reverse, of `reverseKeyEnumeratorFrom:`. -/
def keyEnumeratorFrom (cmp : κ → κ → Ordering) (isReverse : Bool) (start : κ) :
    FImmutableSortedDictionary κ ν → List κ
  | .tree root =>
    FTreeSortedDictionaryEnumerator.objects isReverse
      (FTreeSortedDictionaryEnumerator.fillStack cmp (some start) isReverse [] root)
  | .array d =>
    let startPos : Int :=
      if isReverse then FArraySortedDictionary.reverseStart cmp d.keys start
      else FArraySortedDictionary.findInsertPosition cmp start d.keys
    FArraySortedDictionaryEnumerator.objects d.keys isReverse (d.keys.length + 1) startPos

/-- The keys a direction asks for: those from the start key on. -/
def keysFrom (cmp : κ → κ → Ordering) (isReverse : Bool) (start : κ) (xs : List (κ × ν)) : List κ :=
  (startingAt (FTreeSortedDictionaryEnumerator.towards isReverse cmp) start
    (if isReverse then xs.reverse else xs)).map Prod.fst

theorem keyEnumerator_forward (hw : WellFormed cmp d) :
    d.keyEnumerator cmp false = d.entries.map Prod.fst := by
  rcases hw.form with ⟨root, rfl, -⟩ | ⟨xs, rfl, -⟩
  · rw [keyEnumerator, FTreeSortedDictionaryEnumerator.fillStack_none_forward,
      FTreeSortedDictionaryEnumerator.objects_eq
        (FTreeSortedDictionaryEnumerator.pushPath_ne_empty (by simp)),
      FTreeSortedDictionaryEnumerator.owed_pushPath]
    exact congrArg (List.map Prod.fst) (List.append_nil _)
  · rw [entries_array]
    rfl

/-- **`reverseKeyEnumerator` of a tree gives nothing**; that of an array gives every key. -/
theorem keyEnumerator_reverse (hw : WellFormed cmp d) :
    d.keyEnumerator cmp true =
      if d.isTree then [] else (d.entries.map Prod.fst).reverse := by
  rcases hw.form with ⟨root, rfl, -⟩ | ⟨xs, rfl, -⟩
  · rw [keyEnumerator, FTreeSortedDictionaryEnumerator.fillStack_none_reverse,
      FTreeSortedDictionaryEnumerator.objects_eq (by simp)]
    rfl
  · rw [entries_array]
    rfl

variable [Std.TransCmp cmp]

theorem keyEnumeratorFrom_array (isReverse : Bool) (hs : Sorted cmp xs) :
    (array (.ofEntries xs)).keyEnumeratorFrom cmp isReverse start =
      keysFrom cmp isReverse start xs := by
  obtain ⟨l, m, r, rfl, hm, hl, hmk, hr⟩ := hs.exists_cut start
  cases isReverse with
  | false =>
    have hge : ∀ x ∈ m ++ r, cmp x.1 start ≠ .lt := by
      intro x hx hlt
      rcases List.mem_append.mp hx with hx | hx
      · rw [hmk x hx] at hlt
        exact absurd hlt (by decide)
      · rw [hr x hx] at hlt
        exact absurd hlt (by decide)
    have hfrom : keysFrom cmp false start (l ++ (m ++ r)) = (m ++ r).map Prod.fst := by
      change (startingAt cmp start (l ++ (m ++ r))).map Prod.fst = _
      rw [startingAt_append, startingAt_of_lt hl, startingAt_of_ge hge, List.nil_append]
    rw [hfrom]
    have hpos := FArraySortedDictionary.findInsertPosition_append hl hge
    have hobjects := FArraySortedDictionaryEnumerator.objects_forward
      ((l ++ (m ++ r)).map Prod.fst) (((l ++ (m ++ r)).map Prod.fst).length + 1) l.length (by omega)
    rw [← List.map_drop, List.drop_left] at hobjects
    rw [← hobjects, ← hpos]
    rfl
  | true =>
    have hfrom : keysFrom cmp true start (l ++ (m ++ r)) = ((l ++ m).reverse).map Prod.fst := by
      have hr' : ∀ x ∈ r.reverse, FTreeSortedDictionaryEnumerator.towards true cmp x.1 start = .lt :=
        fun x hx => Std.OrientedCmp.lt_of_gt (hr x (List.mem_reverse.mp hx))
      have hkept : ∀ x ∈ (l ++ m).reverse,
          FTreeSortedDictionaryEnumerator.towards true cmp x.1 start ≠ .lt := by
        intro x hx
        have hle : (cmp x.1 start).isLE := by
          rcases List.mem_append.mp (List.mem_reverse.mp hx) with hx | hx
          · rw [hl x hx]
            rfl
          · rw [hmk x hx]
            rfl
        intro hlt
        have hgt : cmp x.1 start = .gt := Std.OrientedCmp.gt_of_lt hlt
        rw [hgt] at hle
        exact Bool.noConfusion hle
      rw [keysFrom, if_pos rfl, ← List.append_assoc, List.reverse_append, startingAt_append,
        startingAt_of_lt hr', startingAt_of_ge hkept, List.nil_append]
    rw [hfrom]
    have hpos := FArraySortedDictionary.reverseStart_cut hm hl hmk hr
    have htake : (((l ++ m).length : Int) - 1 + 1).toNat = (l ++ m).length := by omega
    have hfuel : ((l ++ m).length : Int) - 1 + 1 ≤
        (((l ++ (m ++ r)).map Prod.fst).length + 1 : Nat) := by
      simp only [List.length_map, List.length_append]
      omega
    have hlt : ((l ++ m).length : Int) - 1 < ((l ++ (m ++ r)).map Prod.fst).length := by
      simp only [List.length_map, List.length_append]
      omega
    have hobjects := FArraySortedDictionaryEnumerator.objects_reverse _ _ _ hfuel hlt
    rw [htake, ← List.map_take, ← List.append_assoc, List.take_left, ← List.map_reverse] at hobjects
    rw [← hobjects, ← hpos]
    simp only [List.append_assoc]
    rfl

/-- **From a start key on, in either direction and in either form, the keys are
those of the sorted list.** -/
theorem keyEnumeratorFrom_eq (hw : WellFormed cmp d) (isReverse : Bool) :
    d.keyEnumeratorFrom cmp isReverse start = keysFrom cmp isReverse start d.entries := by
  rcases hw.form with ⟨root, rfl, hroot⟩ | ⟨xs, rfl, hs⟩
  · rw [keyEnumeratorFrom, FTreeSortedDictionaryEnumerator.objects_eq
      (FTreeSortedDictionaryEnumerator.fillStack_ne_empty (by simp)),
      FTreeSortedDictionaryEnumerator.owed_fillStack hroot.sorted]
    rw [FTreeSortedDictionaryEnumerator.owed, List.flatMap_nil, List.append_nil]
    rfl
  · rw [entries_array]
    exact keyEnumeratorFrom_array isReverse hs

end FImmutableSortedDictionary

end TerpBuilder
