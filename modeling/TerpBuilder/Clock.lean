/-
Times of day as text, and the part of Foundation's `DateFormatter` the schedule
rests on.

The API sends times as "9:30am". `ClockTime` is such a time with its range as
fields, `text` writes it and `readClock` reads it back; the two are inverse, so
the well-formed strings are exactly the texts. `DateFormatter` itself is not in
the repository: `date(from:)` is a parameter wherever a parse is made, and what
the code needs of it are the named properties at the end.
-/
import TerpBuilder.Text
import Mathlib.Data.List.Basic
import Mathlib.Tactic.IntervalCases

set_option autoImplicit false

namespace TerpBuilder

/-- A time of day on the twelve-hour clock. -/
@[ext]
structure ClockTime where
  hour : ℕ
  minute : ℕ
  pm : Bool
  hour_pos : 1 ≤ hour
  hour_le : hour ≤ 12
  minute_lt : minute < 60
  deriving DecidableEq, Repr

namespace ClockTime

/-- Minutes after midnight; twelve o'clock is hour zero of its half. -/
def minuteOfDay (t : ClockTime) : ℕ :=
  (t.hour % 12 + if t.pm then 12 else 0) * 60 + t.minute

/-- Different times are different minutes. -/
theorem minuteOfDay_inj {t u : ClockTime} (h : t.minuteOfDay = u.minuteOfDay) : t = u := by
  have := t.hour_pos
  have := t.hour_le
  have := t.minute_lt
  have := u.hour_pos
  have := u.hour_le
  have := u.minute_lt
  unfold minuteOfDay at h
  ext1
  · split_ifs at h <;> omega
  · split_ifs at h <;> omega
  · -- the halves of the day do not meet
    rw [Bool.eq_iff_iff]
    split_ifs at h with ht hu hu
    · exact iff_of_true ht hu
    · omega
    · omega
    · exact iff_of_false ht hu

def hourChars (h : ℕ) : List Char :=
  if h < 10 then [Nat.digitChar h] else ['1', Nat.digitChar (h - 10)]

def meridiemChars (pm : Bool) : List Char := if pm then ['p', 'm'] else ['a', 'm']

/-- "h:mmam" or "h:mmpm", the hour without a leading zero. -/
def text (t : ClockTime) : String :=
  String.ofList (hourChars t.hour ++
    ':' :: Nat.digitChar (t.minute / 10) :: Nat.digitChar (t.minute % 10) :: meridiemChars t.pm)

end ClockTime

/-! ## Reading a time back -/

def digitVal (c : Char) : Option ℕ := if c.isDigit then some (c.toNat - 48) else none

def meridiemVal (c : Char) : Option Bool :=
  if c = 'a' then some false else if c = 'p' then some true else none

/-- The time with the given parts, when they are in range. -/
def mkClock (hour minute : ℕ) (pm : Bool) : Option ClockTime :=
  if h : 1 ≤ hour ∧ hour ≤ 12 ∧ minute < 60 then
    some ⟨hour, minute, pm, h.1, h.2.1, h.2.2⟩
  else none

def readClockChars : List Char → Option ClockTime
  | [h, ':', m₁, m₂, x, 'm'] => do
      mkClock (← digitVal h) ((← digitVal m₁) * 10 + (← digitVal m₂)) (← meridiemVal x)
  | ['1', h, ':', m₁, m₂, x, 'm'] => do
      mkClock (10 + (← digitVal h)) ((← digitVal m₁) * 10 + (← digitVal m₂)) (← meridiemVal x)
  | _ => none

/-- The time a string denotes, if it is a well-formed time. -/
def readClock (s : String) : Option ClockTime := readClockChars s.toList

theorem digitVal_digitChar {n : ℕ} (h : n < 10) : digitVal (Nat.digitChar n) = some n := by
  interval_cases n <;> decide

theorem digitChar_of_digitVal {c : Char} {n : ℕ} (h : digitVal c = some n) :
    n < 10 ∧ Nat.digitChar n = c := by
  unfold digitVal at h
  split at h
  case isFalse => cases h
  case isTrue hc =>
    simp only [Char.isDigit, Bool.and_eq_true, decide_eq_true_eq] at hc
    obtain rfl : c.toNat - 48 = n := Option.some.inj h
    have h1 : 48 ≤ c.toNat := hc.1
    have h2 : c.toNat ≤ 57 := hc.2
    -- the digits are the ten characters from `0` on
    obtain ⟨k, hk⟩ : ∃ k, c.toNat = 48 + k := ⟨c.toNat - 48, by omega⟩
    have hk10 : k < 10 := by omega
    have hofNat : c = Char.ofNat (48 + k) := by rw [← hk, Char.ofNat_toNat]
    rw [hk, Nat.add_sub_cancel_left]
    refine ⟨hk10, ?_⟩
    rw [hofNat]
    interval_cases k <;> decide

theorem meridiemVal_spec {x : Char} {pm : Bool} (h : meridiemVal x = some pm) :
    [x, 'm'] = ClockTime.meridiemChars pm := by
  unfold meridiemVal at h
  split_ifs at h with ha hp
  · rw [← Option.some.inj h, ha]; rfl
  · rw [← Option.some.inj h, hp]; rfl

theorem mkClock_self (t : ClockTime) : mkClock t.hour t.minute t.pm = some t := by
  rw [mkClock, dif_pos ⟨t.hour_pos, t.hour_le, t.minute_lt⟩]

/-- **Reading undoes writing.** -/
theorem readClock_text (t : ClockTime) : readClock t.text = some t := by
  have hm₁ : digitVal (Nat.digitChar (t.minute / 10)) = some (t.minute / 10) :=
    digitVal_digitChar (by have := t.minute_lt; omega)
  have hm₂ : digitVal (Nat.digitChar (t.minute % 10)) = some (t.minute % 10) :=
    digitVal_digitChar (Nat.mod_lt _ (by omega))
  have hmin : t.minute / 10 * 10 + t.minute % 10 = t.minute := by omega
  rw [readClock, ClockTime.text, String.toList_ofList]
  have hmer : ∃ x, ClockTime.meridiemChars t.pm = [x, 'm'] ∧ meridiemVal x = some t.pm := by
    cases t.pm
    · exact ⟨'a', rfl, rfl⟩
    · exact ⟨'p', rfl, rfl⟩
  obtain ⟨x, hx, hxv⟩ := hmer
  rw [hx]
  by_cases hh : t.hour < 10
  · -- an hour of one digit: the first pattern of `readClockChars`
    rw [ClockTime.hourChars, if_pos hh]
    simp only [List.cons_append, List.nil_append, readClockChars, digitVal_digitChar hh, hm₁, hm₂, hxv,
      Option.bind_eq_bind, Option.bind_some, hmin]
    exact mkClock_self t
  · -- ten, eleven or twelve: the second one
    have hh' : t.hour - 10 < 10 := by have := t.hour_le; omega
    have hhour : 10 + (t.hour - 10) = t.hour := by omega
    rw [ClockTime.hourChars, if_neg hh]
    simp only [List.cons_append, List.nil_append, readClockChars, digitVal_digitChar hh', hm₁, hm₂, hxv,
      Option.bind_eq_bind, Option.bind_some, hmin, hhour]
    exact mkClock_self t

theorem mkClock_eq_some {h m : ℕ} {pm : Bool} {t : ClockTime} (e : mkClock h m pm = some t) :
    t.hour = h ∧ t.minute = m ∧ t.pm = pm := by
  unfold mkClock at e
  split at e
  · obtain rfl := Option.some.inj e
    exact ⟨rfl, rfl, rfl⟩
  · cases e

/-- **Writing undoes reading**: only texts of times are read. -/
theorem text_of_readClock {s : String} {t : ClockTime} (h : readClock s = some t) : s = t.text := by
  unfold readClock readClockChars at h
  apply String.toList_inj.mp
  rw [ClockTime.text, String.toList_ofList]
  split at h
  case h_1 hc m₁ m₂ x hs =>
    simp only [Option.bind_eq_bind, Option.bind_eq_some_iff] at h
    obtain ⟨a, ha, b, hb, c, hc', p, hp, e⟩ := h
    obtain ⟨hhour, hmin, hpm⟩ := mkClock_eq_some e
    obtain ⟨ha10, rfl⟩ := digitChar_of_digitVal ha
    obtain ⟨hb10, rfl⟩ := digitChar_of_digitVal hb
    obtain ⟨hc10, rfl⟩ := digitChar_of_digitVal hc'
    rw [hs, hhour, hmin, hpm, ← meridiemVal_spec hp, ClockTime.hourChars, if_pos ha10,
      show (b * 10 + c) / 10 = b by omega, show (b * 10 + c) % 10 = c by omega]
    rfl
  case h_2 hc m₁ m₂ x hs =>
    simp only [Option.bind_eq_bind, Option.bind_eq_some_iff] at h
    obtain ⟨a, ha, b, hb, c, hc', p, hp, e⟩ := h
    obtain ⟨hhour, hmin, hpm⟩ := mkClock_eq_some e
    obtain ⟨-, rfl⟩ := digitChar_of_digitVal ha
    obtain ⟨hb10, rfl⟩ := digitChar_of_digitVal hb
    obtain ⟨hc10, rfl⟩ := digitChar_of_digitVal hc'
    rw [hs, hhour, hmin, hpm, ← meridiemVal_spec hp, ClockTime.hourChars, if_neg (by omega),
      show (b * 10 + c) / 10 = b by omega, show (b * 10 + c) % 10 = c by omega,
      show 10 + a - 10 = a by omega]
    rfl
  case h_3 => cases h

/-- A string is well formed when it is the text of a time, and then it is the
text of one time only. -/
theorem readClock_eq_some_iff {s : String} {t : ClockTime} : readClock s = some t ↔ s = t.text :=
  ⟨text_of_readClock, fun h => h ▸ readClock_text t⟩

example : readClock "9:30am" = some ⟨9, 30, false, by decide, by decide, by decide⟩ := by decide
example : (readClock "12:05pm").map ClockTime.minuteOfDay = some 725 := by decide
example : readClock "9:30" = none := by decide

/-- A string that `readClock` reads is the text of some time. -/
theorem exists_clock_of_readClock {s : String} (h : (readClock s).isSome = true) :
    ∃ t : ClockTime, s = t.text := by
  obtain ⟨t, ht⟩ := Option.isSome_iff_exists.mp h
  exact ⟨t, readClock_eq_some_iff.mp ht⟩

/-- A time split at its colon: before it something that is not a number of three
digits or more, and after it something without a second colon. -/
def SplitsAtColon (s : List Char) : Prop :=
  ∃ hh mma, s = hh ++ ':' :: mma ∧ (hh ≠ [] ∧ ':' ∉ hh) ∧ (mma ≠ [] ∧ ':' ∉ mma) ∧
    ∀ n, readInt hh = some n → n < 100

theorem ClockTime.text_splitsAtColon (t : ClockTime) : SplitsAtColon t.text.toList := by
  have hmin := t.minute_lt
  have hhour := t.hour_le
  refine ⟨hourChars t.hour, _, by rw [text, String.toList_ofList], ⟨?_, ?_⟩, ⟨by simp, ?_⟩, ?_⟩
  · unfold hourChars
    split_ifs <;> simp
  · unfold hourChars
    split_ifs <;> simp
  · cases t.pm <;> simp [meridiemChars]
  · have hlen : (hourChars t.hour).length ≤ 2 := by
      unfold hourChars
      split_ifs <;> simp
    exact fun n hn => (readInt_le hlen hn).2

/-! ## Foundation's `DateFormatter` -/

/-- What the code sets on a formatter before it uses it. -/
structure DateFormatter where
  dateFormat : String
  amSymbol : String
  pmSymbol : String
  deriving DecidableEq, Repr

/-- The formatter of `checkLecture`. -/
def lectureFormatter : DateFormatter := { dateFormat := "HH:mma", amSymbol := "am", pmSymbol := "pm" }

/-- The formatter of `checkDiscussion`, which leaves the symbols as they are. -/
def discussionFormatter : DateFormatter := { dateFormat := "HH:mm", amSymbol := "AM", pmSymbol := "PM" }

/-- `date(from:)`. Neither format has a date part, so the `Date` it gives lies
on a fixed day and is counted here in minutes. -/
abbrev DateFrom := DateFormatter → String → Option ℕ

namespace DateFrom

/-- "HH:mma" reads a well-formed time as the minute of day it denotes. -/
def ReadsClock (date : DateFrom) : Prop :=
  ∀ t : ClockTime, date lectureFormatter t.text = some t.minuteOfDay

/-- The formatter reads a well-formed time, if it accepts it, as the minute of day
it denotes. -/
def Denotes (date : DateFrom) (formatter : DateFormatter) : Prop :=
  ∀ (t : ClockTime) (m : ℕ), date formatter t.text = some m → m = t.minuteOfDay

/-- "HH:mm" reads no well-formed time: the am or pm is left over, and a
formatter gives nil unless the whole string matches. -/
def RejectsMeridiem (date : DateFrom) : Prop :=
  ∀ t : ClockTime, date discussionFormatter t.text = none

/-- What "HH:mma" reads matches it as a whole: the hour, a colon, and the minutes
with the symbol. -/
def MatchesWhole (date : DateFrom) : Prop :=
  ∀ s m, date lectureFormatter s = some m → SplitsAtColon s.toList

/-- A formatter that reads the well-formed times under "HH:mma" and nothing
else. -/
def strict : DateFrom := fun f s =>
  if f = lectureFormatter then (readClock s).map ClockTime.minuteOfDay else none

theorem strict_readsClock : ReadsClock strict := fun t => by
  rw [strict, if_pos rfl, readClock_text]
  rfl

theorem strict_denotes (f : DateFormatter) : strict.Denotes f := by
  intro t m h
  unfold strict at h
  split_ifs at h
  rw [readClock_text] at h
  exact (Option.some.inj h).symm

theorem strict_rejectsMeridiem : RejectsMeridiem strict := fun t => by
  rw [strict, if_neg (by decide)]

theorem strict_matchesWhole : MatchesWhole strict := by
  intro s m h
  rw [strict, if_pos rfl] at h
  obtain ⟨t, ht, -⟩ := Option.map_eq_some_iff.mp h
  rw [readClock_eq_some_iff.mp ht]
  exact t.text_splitsAtColon

end DateFrom

end TerpBuilder
