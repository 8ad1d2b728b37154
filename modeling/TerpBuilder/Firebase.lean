/-
The part of FirebaseDatabase that the reviews go through: `FValidation`,
`FPath`, `FIRDatabaseReference` and the values of a snapshot.

The database is a tree whose leaves are strings, the only values the
application writes. Its children are listed in the order of their insertion, not
in the order of `compareKey`, so nothing is said here about the order in which a
snapshot delivers them. A rejected path throws an exception that the application
does not catch, which is `none`. The limits on the size of keys and leaves are
left out.
-/
import TerpBuilder.KeyTree
import TerpBuilder.Text
import TerpBuilder.Trap

set_option autoImplicit false

namespace TerpBuilder

abbrev FNode := KeyTree String String

/-! ## Paths -/

/-- `isValidPathString:` -/
def isValidPathString (pathString : String) : Bool :=
  pathString ≠ "" && pathString.toList.all fun c => c ∉ ['[', ']', '.', '#', '$']

/-- `childFromString:` of `FPath` -/
def childFromString (path : List String) (childPath : String) : List String :=
  path ++ (pieces '/' childPath.toList).map String.ofList

/-- `child:` of a reference. At the root the validation differs for ".info"
only. -/
def reference (path : List String) (pathString : String) : Option (List String) :=
  if isValidPathString pathString then some (childFromString path pathString) else none

/-- `PUSH_CHARS` -/
def pushChars : List Char :=
  "-0123456789ABCDEFGHIJKLMNOPQRSTUVWXYZ_abcdefghijklmnopqrstuvwxyz".toList

/-- A key from `childByAutoId`, as `FNextPushId` writes it. -/
structure PushId where
  text : String
  length_eq : text.length = 20
  drawn : text.toList.all (fun c => c ∈ pushChars) = true

/-- `childByAutoId`, when the next id is `id`. -/
def childByAutoId (path : List String) (id : PushId) : Option (List String) := reference path id.text

/-- A string that is one component of a path. -/
structure IsComponent (s : String) : Prop where
  valid : isValidPathString s = true
  one : '/' ∉ s.toList

theorem childFromString_of_isComponent {s : String} (h : IsComponent s) (path : List String) :
    childFromString path s = path ++ [s] := by
  have hne : s.toList ≠ [] := by
    intro hnil
    have hvalid := h.valid
    rw [isValidPathString, String.toList_eq_nil_iff.mp hnil] at hvalid
    cases hvalid
  rw [childFromString, pieces_of_not_mem h.one hne, List.map_singleton, String.ofList_toList]

/-- A component leads to the child under it. -/
theorem reference_of_isComponent {s : String} (h : IsComponent s) (path : List String) :
    reference path s = some (path ++ [s]) := by
  rw [reference, if_pos h.valid, childFromString_of_isComponent h]

theorem PushId.isComponent (id : PushId) : IsComponent id.text := by
  -- none of the characters of an id is a slash or is rejected
  have hchars : pushChars.all (fun c => c ≠ '/' && c ∉ ['[', ']', '.', '#', '$']) = true := by decide
  have hid : ∀ c ∈ id.text.toList, c ≠ '/' ∧ c ∉ ['[', ']', '.', '#', '$'] := by
    intro c hc
    have hdrawn := of_decide_eq_true (List.all_eq_true.mp id.drawn c hc)
    simpa using List.all_eq_true.mp hchars c hdrawn
  refine ⟨?_, fun hslash => (hid _ hslash).1 rfl⟩
  have hne : id.text ≠ "" := by
    intro h
    have hlen := id.length_eq
    rw [h] at hlen
    cases hlen
  rw [isValidPathString, Bool.and_eq_true, List.all_eq_true]
  exact ⟨decide_eq_true hne, fun c hc => decide_eq_true (hid c hc).2⟩

theorem childByAutoId_eq (path : List String) (id : PushId) :
    childByAutoId path id = some (path ++ [id.text]) :=
  reference_of_isComponent id.isComponent path

/-! ## Values -/

/-- A Swift `[String:String]`, as its entries. -/
abbrev StringDict := List (String × String)

/-- The node that `setValue` makes of a dictionary of strings. -/
def nodeFrom (value : StringDict) : FNode := .node (value.map fun x => (x.1, .leaf x.2))

/-- A key that `FChildrenNode` counts as an integer: digits, without a leading
zero. -/
def integerKey (key : String) : Option ℕ :=
  if key.toList.head? = some '0' ∧ 1 < key.length then none else readNat key.toList

/-- `val` turns a node into an array when its keys are integers that leave at
most half of the places empty. -/
def isArray (keys : List String) : Bool :=
  keys.all (fun key => (integerKey key).isSome) &&
    decide ((keys.filterMap integerKey).foldl max 0 < 2 * keys.length)

/-- `snapshot.value as! [String:String]`. -/
def asStringDict (node : FNode) : Option StringDict :=
  match node with
  | .leaf _ => none
  | .node [] => none
  | .node kids =>
      if isArray (kids.map Prod.fst) then none
      else kids.mapM fun x => x.2.value?.map fun value => (x.1, value)

example : isArray ["0", "1", "3"] = true := by decide
example : isArray ["professor", "review", "rating"] = false := by decide

/-- A node with a child that is no leaf is no dictionary of strings. -/
theorem asStringDict_of_node_kid {kids : List (String × FNode)} {x : String × FNode} (hx : x ∈ kids)
    (hnode : x.2.value? = none) : asStringDict (.node kids) = none := by
  rcases kids with _ | ⟨y, kids⟩
  · rfl
  · simp only [asStringDict]
    split_ifs
    · rfl
    · exact mapM_eq_none hx (by rw [hnode]; rfl)

end TerpBuilder
