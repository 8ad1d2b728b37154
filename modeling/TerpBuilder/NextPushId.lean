/-
`FNextPushId`: the ids of `childByAutoId`.

An id is eight characters for the time in milliseconds and twelve that are
drawn. Within one millisecond nothing is drawn: the twelve of the last id are
counted up by one. The characters are in the order of their codes, so an id is
compared as a number of twenty digits to the base 64, and the ids of one
process ascend as long as its clock does not go back and the twelve do not
overflow. Where none of the twelve can be counted up, all of them become the first
character and the next id is a lower one. The source then also counts up the `int`
before its array; what stands there is not said, and it is left alone here.
-/
import TerpBuilder.Firebase
import TerpBuilder.Keys
import TerpBuilder.Numeral
import TerpBuilder.Run

set_option autoImplicit false

namespace TerpBuilder

/-- `lastRandChars` -/
structure RandChars where
  digits : List ℕ
  length_eq : digits.length = 12
  lt : ∀ d ∈ digits, d < 64

/-- None of the twelve can be counted up. -/
def RandChars.Full (chars : RandChars) : Prop := ∀ d ∈ chars.digits, d = 63

/-- The static variables of `get:`. -/
structure FNextPushId where
  lastPushTime : ℕ
  lastRandChars : RandChars

/-- One call: the time in milliseconds, and what `arc4random()` would return. -/
structure PushCall where
  now : ℕ
  arc4random : ℕ → ℕ

namespace FNextPushId

/-- The static variables before the first call. -/
def initial : FNextPushId := ⟨0, ⟨List.replicate 12 0, by decide, by decide⟩⟩

/-- `PUSH_CHARS characterAtIndex:` -/
def pushChar (d : ℕ) : Char := pushChars.getD d '-'

theorem pushChar_mem {d : ℕ} (h : d < 64) : pushChar d ∈ pushChars := by
  have hlen : d < pushChars.length := h
  rw [pushChar, List.getD_eq_getElem?_getD, List.getElem?_eq_getElem hlen]
  exact List.getElem_mem hlen

/-- Twelve new characters. -/
def drawn (arc4random : ℕ → ℕ) : RandChars where
  digits := (List.range 12).map fun i => arc4random i % 64
  length_eq := by rw [List.length_map, List.length_range]
  lt := by
    intro d hd
    obtain ⟨i, -, rfl⟩ := List.mem_map.mp hd
    exact Nat.mod_lt _ (by decide)

/-- The characters of the last call, counted up; from the last of all twelve on, the
first. -/
def incremented (chars : RandChars) : RandChars where
  digits := (Numeral.carry 64 chars.digits.reverse).reverse
  length_eq := by rw [List.length_reverse, Numeral.length_carry, List.length_reverse, chars.length_eq]
  lt := fun d hd =>
    Numeral.lt_of_mem_carry (by decide) (fun d hd => chars.lt d (List.mem_reverse.mp hd)) d
      (List.mem_reverse.mp hd)

/-- The digits of an id. -/
def idDigits (now : ℕ) (chars : RandChars) : List ℕ := Numeral.lastDigits 64 8 now ++ chars.digits

theorem length_idDigits (now : ℕ) (chars : RandChars) : (idDigits now chars).length = 20 := by
  rw [idDigits, List.length_append, Numeral.length_lastDigits, chars.length_eq]

theorem lt_of_mem_idDigits {now : ℕ} {chars : RandChars} {d : ℕ} (h : d ∈ idDigits now chars) :
    d < 64 := by
  rcases List.mem_append.mp h with h | h
  · exact Numeral.lt_of_mem_lastDigits (by decide) h
  · exact chars.lt d h

def idOf (now : ℕ) (chars : RandChars) : PushId where
  text := String.ofList ((idDigits now chars).map pushChar)
  length_eq := by rw [String.length_ofList, List.length_map, length_idDigits]
  drawn := by
    rw [String.toList_ofList, List.all_eq_true]
    intro c hc
    obtain ⟨d, hd, rfl⟩ := List.mem_map.mp hc
    exact decide_eq_true (pushChar_mem (lt_of_mem_idDigits hd))

def get (s : FNextPushId) (call : PushCall) : PushId × FNextPushId :=
  let duplicateTime := call.now = s.lastPushTime
  let chars := if duplicateTime then incremented s.lastRandChars else drawn call.arc4random
  (idOf call.now chars, ⟨call.now, chars⟩)

/-! ## Ids are numbers -/

/-- The unit of a character. -/
def pushUnit (d : ℕ) : UInt16 := UInt16.ofNat (pushChar d).toNat

theorem utf16_pushChar : ∀ d < 64, utf16 (pushChar d) = [pushUnit d] := by decide +kernel

/-- The characters are in the order of their codes. -/
theorem pushUnit_lt : ∀ e < 64, ∀ d < e, pushUnit d < pushUnit e := by decide +kernel

theorem compare_pushUnit {d e : ℕ} (hd : d < 64) (he : e < 64) :
    compare (pushUnit d) (pushUnit e) = compare d e := by
  have ascending : ∀ {d e : ℕ}, e < 64 → d < e → compare (pushUnit d) (pushUnit e) = .lt :=
    fun he h => compareOfLessAndEq_eq_lt.mpr (pushUnit_lt _ he _ h)
  rcases lt_trichotomy d e with h | rfl | h
  · rw [compare_lt_iff_lt.mpr h, ascending he h]
  · exact Std.ReflCmp.compare_self.trans Std.ReflCmp.compare_self.symm
  · rw [compare_gt_iff_gt.mpr h, Std.OrientedCmp.gt_of_lt (ascending hd h)]

theorem compare_map_pushUnit {ds es : List ℕ} (hd : ∀ d ∈ ds, d < 64) (he : ∀ e ∈ es, e < 64) :
    compare (ds.map pushUnit) (es.map pushUnit) = compare ds es := by
  induction ds generalizing es with
  | nil => cases es <;> rfl
  | cons d ds ih =>
    cases es with
    | nil => rfl
    | cons e es =>
      rw [List.forall_mem_cons] at hd he
      rw [List.map_cons, List.map_cons, List.compare_cons_cons, List.compare_cons_cons,
        compare_pushUnit hd.1 he.1, ih hd.2 he.2]

/-- An id as the key of a child. -/
def key (id : PushId) : Key := .name (unichars id.text)

/-- What is left of a time with more than eight digits, and the drawn part. -/
def serial (now : ℕ) (chars : RandChars) : ℕ :=
  now % 64 ^ 8 * 64 ^ 12 + Numeral.value 64 chars.digits

theorem unichars_idOf (now : ℕ) (chars : RandChars) :
    unichars (idOf now chars).text = (idDigits now chars).map pushUnit := by
  rw [unichars, idOf, String.toList_ofList, List.flatMap_map]
  have h : ∀ ds : List ℕ, (∀ d ∈ ds, d < 64) → ds.flatMap (fun d => utf16 (pushChar d)) = ds.map pushUnit := by
    intro ds hds
    induction ds with
    | nil => rfl
    | cons d ds ih =>
      rw [List.forall_mem_cons] at hds
      rw [List.flatMap_cons, utf16_pushChar d hds.1, ih hds.2, List.map_cons, List.singleton_append]
  exact h _ fun d => lt_of_mem_idDigits

theorem serial_eq (now : ℕ) (chars : RandChars) :
    Numeral.value 64 (idDigits now chars) = serial now chars := by
  rw [idDigits, Numeral.value_append, Numeral.value_lastDigits, chars.length_eq, serial]

/-- **Ids are compared as the numbers they write.** -/
theorem compareKey_idOf (now now' : ℕ) (chars chars' : RandChars) :
    FUtilities.compareKey (key (idOf now chars)) (key (idOf now' chars'))
      = compare (serial now chars) (serial now' chars') := by
  have hlen : ∀ now chars, 11 < (unichars (idOf now chars).text).length := by
    intro now chars
    rw [unichars_idOf, List.length_map, length_idDigits]
    decide
  rw [key, key, FUtilities.compareKey_of_long (hlen now chars) (hlen now' chars'), unichars_idOf,
    unichars_idOf, compare_map_pushUnit (fun d => lt_of_mem_idDigits) fun e => lt_of_mem_idDigits,
    Numeral.compare_eq (by decide) (by rw [length_idDigits, length_idDigits])
      (fun d => lt_of_mem_idDigits) fun e => lt_of_mem_idDigits, serial_eq, serial_eq]

theorem value_incremented (chars : RandChars) :
    Numeral.value 64 (incremented chars).digits = (Numeral.value 64 chars.digits + 1) % 64 ^ 12 := by
  rw [incremented, Numeral.value, List.reverse_reverse,
    Numeral.ofDigits_carry (by decide) fun d hd => chars.lt d (List.mem_reverse.mp hd), List.length_reverse,
    chars.length_eq, Numeral.value]

theorem not_full_iff (chars : RandChars) : ¬ chars.Full ↔ Numeral.value 64 chars.digits + 1 < 64 ^ 12 := by
  have hroom := Numeral.ofDigits_add_one_lt_iff (b := 64) (by decide) fun d hd =>
    chars.lt d (List.mem_reverse.mp hd)
  rw [List.length_reverse, chars.length_eq] at hroom
  rw [Numeral.value, hroom, RandChars.Full, not_forall₂]
  simp

/-! ## A run of calls -/

/-- The static variables after each of the calls of one process. -/
def states (s : FNextPushId) : List PushCall → List FNextPushId
  | [] => []
  | c :: calls => (get s c).2 :: states (get s c).2 calls

/-- The ids of the calls. -/
def ids (s : FNextPushId) : List PushCall → List PushId
  | [] => []
  | c :: calls => (get s c).1 :: ids (get s c).2 calls

/-- The id of the last call. -/
def lastId (s : FNextPushId) : PushId := idOf s.lastPushTime s.lastRandChars

def lastSerial (s : FNextPushId) : ℕ := serial s.lastPushTime s.lastRandChars

/-- One call after another: in the same millisecond the characters are counted up. -/
def Succeeds (s s' : FNextPushId) : Prop :=
  s'.lastPushTime = s.lastPushTime →
    Numeral.value 64 s'.lastRandChars.digits = (Numeral.value 64 s.lastRandChars.digits + 1) % 64 ^ 12

/-- The second call is in the millisecond of the first, and none of its characters
can be counted up. -/
def Overflows (s s' : FNextPushId) : Prop := s'.lastPushTime = s.lastPushTime ∧ s.lastRandChars.Full

/-- **What a call does.** -/
theorem get_spec (s : FNextPushId) (c : PushCall) :
    (get s c).1 = (get s c).2.lastId ∧ (get s c).2.lastPushTime = c.now ∧ s.Succeeds (get s c).2 := by
  refine ⟨rfl, rfl, fun hsame => ?_⟩
  have hchars : (get s c).2.lastRandChars = incremented s.lastRandChars := if_pos hsame
  rw [hchars, value_incremented]

theorem ids_eq_states (s : FNextPushId) (calls : List PushCall) :
    ids s calls = (states s calls).map lastId := by
  induction calls generalizing s with
  | nil => rfl
  | cons c calls ih => rw [ids, states, List.map_cons, ih, (get_spec s c).1]

theorem times_states (s : FNextPushId) (calls : List PushCall) :
    (states s calls).map (·.lastPushTime) = calls.map (·.now) := by
  induction calls generalizing s with
  | nil => rfl
  | cons c calls ih => rw [states, List.map_cons, ih, (get_spec s c).2.1, List.map_cons]

theorem length_ids (s : FNextPushId) (calls : List PushCall) : (ids s calls).length = calls.length := by
  have hlen := congrArg List.length (times_states s calls)
  rw [List.length_map, List.length_map] at hlen
  rw [ids_eq_states, List.length_map, hlen]

theorem chain_states (s : FNextPushId) (calls : List PushCall) : (s :: states s calls).IsChain Succeeds := by
  induction calls generalizing s with
  | nil => exact List.isChain_singleton s
  | cons c calls ih => exact List.isChain_cons_cons.mpr ⟨(get_spec s c).2.2, ih (get s c).2⟩

/-! ## The order of the ids -/

theorem value_lt (chars : RandChars) : Numeral.value 64 chars.digits < 64 ^ 12 := by
  rw [← chars.length_eq]
  exact Numeral.value_lt (by decide) chars.lt

/-- **One call after another**: the second id is the greater one exactly if the clock
did not go back and the characters did not overflow. -/
theorem lastSerial_lt_iff {s s' : FNextPushId} (h : s.Succeeds s') (hs : s.lastPushTime < 64 ^ 8)
    (hs' : s'.lastPushTime < 64 ^ 8) :
    s.lastSerial < s'.lastSerial ↔ s.lastPushTime ≤ s'.lastPushTime ∧ ¬ s.Overflows s' := by
  have hlow := value_lt s.lastRandChars
  have hlow' := value_lt s'.lastRandChars
  rw [lastSerial, lastSerial, serial, serial, Nat.mod_eq_of_lt hs, Nat.mod_eq_of_lt hs', Overflows]
  rcases lt_trichotomy s.lastPushTime s'.lastPushTime with hlt | heq | hgt
  · -- a later time outweighs all the characters
    refine iff_of_true (by omega) ⟨hlt.le, fun hover => ?_⟩
    exact absurd hover.1 hlt.ne'
  · -- the same time: the characters are counted up, or start again
    rw [heq, Nat.add_lt_add_iff_left, h heq.symm]
    simp only [le_refl, true_and]
    by_cases hfull : s.lastRandChars.Full
    · have hmax : Numeral.value 64 s.lastRandChars.digits + 1 = 64 ^ 12 := by
        have hfullest := mt (not_full_iff s.lastRandChars).mpr (not_not_intro hfull)
        omega
      rw [hmax, Nat.mod_self]
      exact iff_of_false (Nat.not_lt_zero _) (not_not_intro hfull)
    · rw [Nat.mod_eq_of_lt ((not_full_iff _).mp hfull)]
      exact iff_of_true (Nat.lt_succ_self _) hfull
  · refine iff_of_false (by omega) fun hle => ?_
    exact absurd hle.1 hgt.not_ge

/-- The calls in the order of their times. -/
def ClockAscends (calls : List PushCall) : Prop := calls.Pairwise fun c c' => c.now ≤ c'.now

/-- The ids in the order of the keys. -/
def KeysAscend (ids : List PushId) : Prop :=
  ids.Pairwise fun id id' => FUtilities.compareKey (key id) (key id') = .lt

theorem keysAscend_iff (log : List FNextPushId) :
    KeysAscend (log.map lastId) ↔ log.Pairwise fun s s' => s.lastSerial < s'.lastSerial := by
  rw [KeysAscend, List.pairwise_map]
  refine iff_of_eq (congrArg (List.Pairwise · log) ?_)
  funext s s'
  rw [lastId, lastId, compareKey_idOf, compare_lt_iff_lt, lastSerial, lastSerial]

/-- No call finds the characters of the call before it, in the same millisecond, all at
their last. -/
def NeverOverflows (s : FNextPushId) (calls : List PushCall) : Prop :=
  (states s calls).IsChain fun s s' => ¬ s.Overflows s'

theorem clockAscends_iff (s : FNextPushId) (calls : List PushCall) :
    ClockAscends calls ↔ (states s calls).IsChain fun s s' => s.lastPushTime ≤ s'.lastPushTime := by
  have : IsTrans FNextPushId fun s s' => s.lastPushTime ≤ s'.lastPushTime := ⟨fun _ _ _ => Nat.le_trans⟩
  have hcalls : (calls.map (·.now)).Pairwise (· ≤ ·) ↔ ClockAscends calls := List.pairwise_map
  rw [List.isChain_iff_pairwise, ← hcalls, ← times_states s calls, List.pairwise_map]

theorem isChain_and {α : Type} {R S : α → α → Prop} {xs : List α} :
    (xs.IsChain fun a b => R a b ∧ S a b) ↔ xs.IsChain R ∧ xs.IsChain S := by
  simp only [List.isChain_iff_getElem, forall_and]

/-- As long as times have eight digits, the ids ascend exactly if the clock never
goes back and the characters never overflow. -/
theorem keysAscend_iff_clockAscends {s : FNextPushId} {calls : List PushCall}
    (hbound : ∀ c ∈ calls, c.now < 64 ^ 8) :
    KeysAscend (ids s calls) ↔ ClockAscends calls ∧ NeverOverflows s calls := by
  have hsmall : ∀ t ∈ states s calls, t.lastPushTime < 64 ^ 8 := by
    intro t ht
    have hmem : t.lastPushTime ∈ calls.map (·.now) := times_states s calls ▸ List.mem_map_of_mem ht
    obtain ⟨c, hc, heq⟩ := List.mem_map.mp hmem
    exact heq ▸ hbound c hc
  have hchain : (states s calls).IsChain Succeeds := (chain_states s calls).tail
  have : IsTrans FNextPushId fun s s' => s.lastSerial < s'.lastSerial := ⟨fun _ _ _ => Nat.lt_trans⟩
  rw [ids_eq_states, keysAscend_iff, ← List.isChain_iff_pairwise, clockAscends_iff s, NeverOverflows,
    ← isChain_and]
  simp only [List.isChain_iff_getElem] at hchain ⊢
  refine forall₂_congr fun i hi => ?_
  exact lastSerial_lt_iff (hchain i hi) (hsmall _ (List.getElem_mem _)) (hsmall _ (List.getElem_mem _))

/-- Ids that ascend are all different. -/
theorem KeysAscend.nodup {ids : List PushId} (h : KeysAscend ids) : (ids.map (·.text)).Nodup := by
  refine List.pairwise_map.mpr (h.imp ?_)
  intro id id' hlt htext
  rw [key, key, htext] at hlt
  exact SortedAssoc.cmp_self_ne_lt _ hlt

/-- **When the ids of a process ascend.** Any number of calls, as long as their
times have eight digits: there is one id for each call, the ids are in the order
of the keys exactly if the clock never went back and the characters never
overflowed, and then no two are the same. -/
theorem ids_ascend_iff (s : FNextPushId) (calls : List PushCall) (hbound : ∀ c ∈ calls, c.now < 64 ^ 8) :
    (ids s calls).length = calls.length ∧
      (KeysAscend (ids s calls) ↔ ClockAscends calls ∧ NeverOverflows s calls) ∧
      (ClockAscends calls → NeverOverflows s calls → ((ids s calls).map (·.text)).Nodup) := by
  have hiff := keysAscend_iff_clockAscends (s := s) hbound
  exact ⟨length_ids s calls, hiff, fun hclock hroom => (hiff.mpr ⟨hclock, hroom⟩).nodup⟩

/-- Three calls in one millisecond, the second of which carries. -/
def threeCalls : List PushCall :=
  [⟨1700000000000, fun i => if i = 11 then 63 else i⟩, ⟨1700000000000, fun _ => 5⟩, ⟨1700000000000, fun _ => 5⟩]

theorem ids_ascend_iff_three : KeysAscend (ids initial threeCalls) := by
  refine (ids_ascend_iff initial threeCalls (by decide)).2.1.mpr ⟨?_, ?_⟩
  · simp [ClockAscends, threeCalls]
  · simp only [NeverOverflows, threeCalls, states, List.isChain_cons_cons, List.isChain_singleton, and_true]
    -- the first character drawn is zero, and the carry does not come up to it
    exact ⟨fun hover => absurd (hover.2 0 (by decide)) (Nat.zero_ne_add_one 62),
      fun hover => absurd (hover.2 0 (by decide)) (Nat.zero_ne_add_one 62)⟩

/-- Two calls in one millisecond, the first of which draws the last characters: the
second id is the lower one. -/
def overflowing : List PushCall := [⟨1700000000000, fun _ => 63⟩, ⟨1700000000000, fun _ => 5⟩]

example : (ids initial overflowing).map (·.text) = ["-NjEtLV-zzzzzzzzzzzz", "-NjEtLV-------------"] := by decide

end FNextPushId

end TerpBuilder
