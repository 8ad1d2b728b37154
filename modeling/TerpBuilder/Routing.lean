/-
Whose route the map shows.

The abstract machine `Provenance` forgets what a route looks like and keeps only
which request each published figure came from. `screen` turns it back into the
state of the map, and `step_screen` says that the map steps exactly as the
abstract machine does: the state of the map is a function of the order of the
events and of the routes. When every request has been served, the figures are
those of the request answered last and the region is that of the task that ended
last, and neither has to be the request of the last pick.
-/
import TerpBuilder.MapView
import TerpBuilder.Run
import Mathlib.Tactic.NormNum

set_option autoImplicit false

namespace TerpBuilder

/-! ## The abstract machine -/

/-- `Phase` without the region. -/
inductive Stage where
  | created | waiting | returned | finished
  deriving DecidableEq

/-- A request, by the number of its task and the building it leads to. -/
abbrev RouteRequest := ℕ × BuildingResponse

structure Provenance where
  /-- the picked buildings, with the stage of their tasks -/
  tasks : List (BuildingResponse × Stage)
  /-- the steps have been reset since the last response -/
  cleared : Bool
  /-- whose figures are published -/
  shown : Option RouteRequest
  /-- whose region is on the map -/
  framed : Option RouteRequest

namespace Provenance

def initial : Provenance := ⟨[], false, none, none⟩

def step (p : Provenance) : MapEvent → Option Provenance
  | .pick building => some { p with tasks := p.tasks ++ [(building, .created)] }
  | .enter i => match p.tasks[i]? with
      | some (b, .created) => some { p with tasks := p.tasks.set i (b, .waiting), cleared := true }
      | _ => none
  | .respond i => match p.tasks[i]? with
      | some (b, .waiting) => some
          { p with tasks := p.tasks.set i (b, .returned), cleared := false, shown := some (i, b) }
      | _ => none
  | .assign i => match p.tasks[i]? with
      | some (b, .returned) => some
          { p with tasks := p.tasks.set i (b, .finished), framed := some (i, b) }
      | _ => none

/-! ## The state of the map it stands for -/

variable (route : ℕ → MKRoute)

/-- The region of a request from the user. -/
def regionOf (r : RouteRequest) : MKCoordinateRegion :=
  DirectionsViewModel.regionAround MapState.user.long MapState.user.lat r.2.long r.2.lat (route r.1)

def phaseOf (r : RouteRequest) : Stage → Phase
  | .created => .created
  | .waiting => .waiting
  | .returned => .returned (regionOf route r)
  | .finished => .finished

def taskOf (i : ℕ) (x : BuildingResponse × Stage) : RouteTask :=
  { sourceLong := MapState.user.long, sourceLat := MapState.user.lat
    destLong := x.1.long, destLat := x.1.lat
    phase := phaseOf route (i, x.1) x.2 }

/-- What is published: the figures of the request, its steps gone after a reset. -/
def published (cleared : Bool) : Option RouteRequest → DirectionsViewModel
  | none => .initial
  | some r =>
      if cleared then { DirectionsViewModel.figures (route r.1) with dirs := [] }
      else DirectionsViewModel.figures (route r.1)

def screen (p : Provenance) : MapState :=
  { annotations := MapState.user :: (p.tasks.getLast?.map Prod.fst).toList
    region := (p.framed.map (regionOf route)).getD DirectionsViewModel.campus
    directionModel := published route p.cleared p.shown
    tasks := p.tasks.mapIdx (taskOf route) }

/-! ## The map steps as the abstract machine does -/

variable {route}

theorem screen_pick (p : Provenance) (building : BuildingResponse) :
    (screen route p).pick building
      = some (screen route { p with tasks := p.tasks ++ [(building, .created)] }) := by
  rcases hp : p.tasks.getLast? with _ | ⟨b, st⟩
  · -- the first pick
    have hann : (screen route p).annotations = [MapState.user] := by simp [screen, hp]
    rw [MapState.pick, hann]
    simp [screen, MapState.computeDirs, taskOf, phaseOf, List.mapIdx_concat]
  · -- a later pick replaces the pin
    have hann : (screen route p).annotations = [MapState.user, b] := by simp [screen, hp]
    rw [MapState.pick, hann]
    simp [screen, MapState.computeDirs, MapState.removeAt, taskOf, phaseOf, List.mapIdx_concat]

theorem published_reset (cleared : Bool) (r : Option RouteRequest) :
    (published route cleared r).beginDirections = published route true r := by
  rw [DirectionsViewModel.beginDirections_eq]
  rcases r with _ | r
  · rfl
  · rcases cleared <;> rfl

theorem screen_getElem? (p : Provenance) (i : ℕ) :
    (screen route p).tasks[i]? = p.tasks[i]?.map (taskOf route i) := by
  rw [screen, List.getElem?_mapIdx]

theorem map_fst_set {tasks : List (BuildingResponse × Stage)} {i : ℕ} {b : BuildingResponse} {st : Stage}
    (h : tasks[i]? = some (b, st)) (st' : Stage) :
    (tasks.set i (b, st')).map Prod.fst = tasks.map Prod.fst := by
  obtain ⟨hi, hget⟩ := List.getElem?_eq_some_iff.mp h
  have hlen : i < (tasks.map Prod.fst).length := by rwa [List.length_map]
  have hb : (tasks.map Prod.fst)[i] = b := by rw [List.getElem_map, hget]
  rw [List.map_set, ← hb]
  exact List.set_getElem_self hlen

/-- The screen when one task moves on to its next stage. -/
theorem screen_set (p : Provenance) {i : ℕ} {b : BuildingResponse} {st : Stage}
    (h : p.tasks[i]? = some (b, st)) (st' : Stage) (cleared : Bool) (shown framed : Option RouteRequest) :
    screen route ⟨p.tasks.set i (b, st'), cleared, shown, framed⟩
      = { annotations := (screen route p).annotations
          region := (framed.map (regionOf route)).getD DirectionsViewModel.campus
          directionModel := published route cleared shown
          tasks := (screen route p).tasks.set i (taskOf route i (b, st')) } := by
  have hlast : (p.tasks.set i (b, st')).getLast?.map Prod.fst = p.tasks.getLast?.map Prod.fst := by
    rw [← List.getLast?_map, map_fst_set h, List.getLast?_map]
  rw [screen, hlast, List.mapIdx_set]
  rfl

theorem screen_enter (p : Provenance) (i : ℕ) :
    (screen route p).enter i = (p.step (.enter i)).map (screen route) := by
  rw [MapState.enter, screen_getElem?, step]
  rcases h : p.tasks[i]? with _ | ⟨b, st⟩
  · rfl
  · rcases st
    case created =>
      have hmodel : (screen route p).directionModel.beginDirections = published route true p.shown :=
        published_reset p.cleared p.shown
      simp only [Option.map_some, screen_set p h, ← hmodel]
      rfl
    all_goals rfl

theorem screen_respond {responses : ℕ → Response}
    (hroute : ∀ i, ∃ rest, responses i = .routes (route i :: rest)) (p : Provenance) (i : ℕ) :
    (screen route p).respond i (responses i) = (p.step (.respond i)).map (screen route) := by
  rw [MapState.respond, screen_getElem?, step]
  rcases h : p.tasks[i]? with _ | ⟨b, st⟩
  · rfl
  · rcases st
    case waiting =>
      simp only [Option.map_some, Option.bind_eq_bind, Option.bind_some, taskOf, phaseOf, screen_set p h,
        DirectionsViewModel.finishDirections_of_route _ _ _ _ _ (hroute i)]
      rfl
    all_goals rfl

theorem screen_assign (p : Provenance) (i : ℕ) :
    (screen route p).assign i = (p.step (.assign i)).map (screen route) := by
  rw [MapState.assign, screen_getElem?, step]
  rcases h : p.tasks[i]? with _ | ⟨b, st⟩
  · rfl
  · rcases st
    case returned =>
      simp only [Option.map_some, screen_set p h]
      rfl
    all_goals rfl

/-- **The map refines the abstract machine**: it makes the same steps, and its
state is the screen of the abstract one. -/
theorem step_screen {responses : ℕ → Response}
    (hroute : ∀ i, ∃ rest, responses i = .routes (route i :: rest)) (p : Provenance) (e : MapEvent) :
    e.step responses (screen route p) = (p.step e).map (screen route) := by
  rcases e with building | i | i | i
  · exact screen_pick p building
  · exact screen_enter p i
  · exact screen_respond hroute p i
  · exact screen_assign p i

theorem screen_initial (route : ℕ → MKRoute) : screen route initial = MapState.initial := rfl

/-- The same for whole runs. -/
theorem run_screen {responses : ℕ → Response}
    (hroute : ∀ i, ∃ rest, responses i = .routes (route i :: rest)) (events : List MapEvent) :
    run (MapEvent.step responses) MapState.initial events
      = (run step initial events).map (screen route) := by
  rw [← screen_initial route]
  exact run_map (screen route) (step_screen hroute) initial events

/-! ## What the order of the events decides -/

end Provenance

namespace MapEvent

/-- The buildings picked. -/
def picks (events : List MapEvent) : List BuildingResponse :=
  events.filterMap fun
    | pick building => some building
    | _ => none

/-- The tasks whose requests are answered, in the order of the answers. -/
def responded (events : List MapEvent) : List ℕ :=
  events.filterMap fun
    | respond i => some i
    | _ => none

/-- The tasks in the order in which they assign the region. -/
def assigned (events : List MapEvent) : List ℕ :=
  events.filterMap fun
    | assign i => some i
    | _ => none

end MapEvent

open MapEvent

namespace Provenance

/-- What an order of events has led to: the tasks are the picks, the figures come
from the last answer and the region from the last assignment. The steps are
missing only while a request is waiting, and figures and a region are there as
soon as a task has got so far. -/
structure Accounts (events : List MapEvent) (p : Provenance) : Prop where
  picked : p.tasks.map Prod.fst = picks events
  shown : p.shown.map Prod.fst = (responded events).getLast?
  framed : p.framed.map Prod.fst = (assigned events).getLast?
  shown_task : ∀ r, p.shown = some r → (picks events)[r.1]? = some r.2
  framed_task : ∀ r, p.framed = some r → (picks events)[r.1]? = some r.2
  cleared : p.cleared = true → ∃ (i : ℕ) (b : BuildingResponse), p.tasks[i]? = some (b, .waiting)
  answered : p.shown = none → ∀ x ∈ p.tasks, x.2 ≠ .returned ∧ x.2 ≠ .finished
  ended : p.framed = none → ∀ x ∈ p.tasks, x.2 ≠ .finished

theorem accounts_initial : Accounts [] initial where
  picked := rfl
  shown := rfl
  framed := rfl
  shown_task := fun r h => by cases h
  framed_task := fun r h => by cases h
  cleared := fun h => by cases h
  answered := fun _ x hx => absurd hx List.not_mem_nil
  ended := fun _ x hx => absurd hx List.not_mem_nil

section Step

variable {events : List MapEvent} {p : Provenance} {i : ℕ} {b : BuildingResponse}

theorem Accounts.pick (h : Accounts events p) (building : BuildingResponse) :
    Accounts (events ++ [.pick building]) { p with tasks := p.tasks ++ [(building, .created)] } := by
  have hpicks : picks (events ++ [.pick building]) = picks events ++ [building] := by simp [picks]
  have hold : ∀ {r : RouteRequest}, (picks events)[r.1]? = some r.2 →
      (picks (events ++ [.pick building]))[r.1]? = some r.2 := by
    intro r hr
    rw [hpicks, List.getElem?_append_left (List.getElem?_eq_some_iff.mp hr).1, hr]
  refine ⟨by simp [hpicks, h.picked], by simp [responded, h.shown], by simp [assigned, h.framed],
    fun r hr => hold (h.shown_task r hr), fun r hr => hold (h.framed_task r hr), ?_, ?_, ?_⟩
  · intro hc
    obtain ⟨j, c, hj⟩ := h.cleared hc
    exact ⟨j, c, by rw [List.getElem?_append_left (List.getElem?_eq_some_iff.mp hj).1, hj]⟩
  · intro hnone x hx
    rcases List.mem_append.mp hx with hx | hx
    · exact h.answered hnone x hx
    · rw [List.mem_singleton.mp hx]
      simp
  · intro hnone x hx
    rcases List.mem_append.mp hx with hx | hx
    · exact h.ended hnone x hx
    · rw [List.mem_singleton.mp hx]
      simp

theorem Accounts.enter (h : Accounts events p) (hi : p.tasks[i]? = some (b, .created)) :
    Accounts (events ++ [.enter i]) { p with tasks := p.tasks.set i (b, .waiting), cleared := true } := by
  have hpicks : picks (events ++ [.enter i]) = picks events := by simp [picks]
  refine ⟨by rw [map_fst_set hi, hpicks, h.picked], by simp [responded, h.shown],
    by simp [assigned, h.framed], hpicks ▸ h.shown_task, hpicks ▸ h.framed_task, fun _ => ⟨i, b, ?_⟩, ?_, ?_⟩
  · exact List.getElem?_set_self (List.getElem?_eq_some_iff.mp hi).1
  · intro hnone x hx
    rcases List.mem_or_eq_of_mem_set hx with hx | rfl
    · exact h.answered hnone x hx
    · simp
  · intro hnone x hx
    rcases List.mem_or_eq_of_mem_set hx with hx | rfl
    · exact h.ended hnone x hx
    · simp

theorem Accounts.respond (h : Accounts events p) (hi : p.tasks[i]? = some (b, .waiting)) :
    Accounts (events ++ [.respond i])
      { p with tasks := p.tasks.set i (b, .returned), cleared := false, shown := some (i, b) } := by
  have hpicks : picks (events ++ [.respond i]) = picks events := by simp [picks]
  have hb : (picks events)[i]? = some b := by rw [← h.picked, List.getElem?_map, hi]; rfl
  refine ⟨by rw [map_fst_set hi, hpicks, h.picked], by simp [responded], by simp [assigned, h.framed],
    ?_, hpicks ▸ h.framed_task, fun hc => absurd hc Bool.false_ne_true,
    fun hnone => absurd hnone (Option.some_ne_none _), ?_⟩
  · rintro r hr
    rw [hpicks, ← Option.some.inj hr, hb]
  · intro hnone x hx
    rcases List.mem_or_eq_of_mem_set hx with hx | rfl
    · exact h.ended hnone x hx
    · simp

theorem Accounts.assign (h : Accounts events p) (hi : p.tasks[i]? = some (b, .returned)) :
    Accounts (events ++ [.assign i])
      { p with tasks := p.tasks.set i (b, .finished), framed := some (i, b) } := by
  have hpicks : picks (events ++ [.assign i]) = picks events := by simp [picks]
  have hb : (picks events)[i]? = some b := by rw [← h.picked, List.getElem?_map, hi]; rfl
  refine ⟨by rw [map_fst_set hi, hpicks, h.picked], by simp [responded, h.shown], by simp [assigned],
    hpicks ▸ h.shown_task, ?_, ?_, ?_,
    fun hnone => absurd hnone (Option.some_ne_none _)⟩
  · rintro r hr
    rw [hpicks, ← Option.some.inj hr, hb]
  · -- the task that is waiting is not the one that ends
    intro hc
    obtain ⟨j, c, hj⟩ := h.cleared hc
    have hne : i ≠ j := by
      rintro rfl
      rw [hi, Option.some.injEq, Prod.mk.injEq] at hj
      exact absurd hj.2 (by decide)
    exact ⟨j, c, by rw [List.getElem?_set_ne hne, hj]⟩
  · intro hnone
    exact absurd rfl (h.answered hnone (b, .returned) (List.mem_of_getElem? hi)).1

theorem Accounts.step {p' : Provenance} {e : MapEvent} (h : Accounts events p) (hstep : p.step e = some p') :
    Accounts (events ++ [e]) p' := by
  rcases e with building | i | i | i
  · rw [← Option.some.inj hstep]
    exact h.pick building
  all_goals
    rw [Provenance.step] at hstep
    split at hstep
    · rename_i b hi
      rw [← Option.some.inj hstep]
      first
        | exact h.enter hi
        | exact h.respond hi
        | exact h.assign hi
    · cases hstep

end Step

/-- The accounts hold after every run of the abstract machine. -/
theorem accounts_of_run {events : List MapEvent} {p : Provenance} (hrun : run step initial events = some p) :
    Accounts events p :=
  run_history Accounts (fun _ _ => True) (fun _ _ _ _ h _ _ hstep => h.step hstep) accounts_initial
    (fun _ _ _ _ _ => trivial) hrun

/-- Once every task has finished and there was a pick, figures and a region are
published and the steps are there. -/
theorem Accounts.settled {events : List MapEvent} {p : Provenance} (h : Accounts events p)
    (hdone : ∀ x ∈ p.tasks, x.2 = .finished) (hpick : picks events ≠ []) :
    p.cleared = false ∧ ∃ r r', p.shown = some r ∧ p.framed = some r' := by
  have hne : p.tasks ≠ [] := by
    intro hnil
    apply hpick
    rw [← h.picked, hnil, List.map_nil]
  obtain ⟨x, hx⟩ := List.exists_mem_of_ne_nil p.tasks hne
  refine ⟨?_, ?_⟩
  · -- steps are missing only while some task waits
    rw [← Bool.not_eq_true]
    intro hc
    obtain ⟨i, b, hi⟩ := h.cleared hc
    have hwait := hdone _ (List.mem_of_getElem? hi)
    simp at hwait
  · rcases hs : p.shown with _ | r
    · exact absurd (hdone x hx) (h.answered hs x hx).2
    · rcases hf : p.framed with _ | r'
      · exact absurd (hdone x hx) (h.ended hf x hx)
      · exact ⟨r, r', rfl, rfl⟩

end Provenance

/-! ## The route to the pinned building -/

namespace MapState

/-- No request is outstanding. -/
def Quiescent (s : MapState) : Prop := ∀ t ∈ s.tasks, t.phase = .finished

/-- Every request is answered with at least one route. -/
def Succeed (responses : ℕ → Response) : Prop :=
  ∀ i, ∃ route rest, responses i = .routes (route :: rest)

/-- The pins are the user and `b`, and steps, time, distance and region are all
those of one request whose destination is `b`. -/
def ShowsRouteTo (responses : ℕ → Response) (b : BuildingResponse) (s : MapState) : Prop :=
  s.annotations = [user, b] ∧ ∃ i t route rest, s.tasks[i]? = some t ∧
    (t.destLong = b.long ∧ t.destLat = b.lat) ∧ responses i = .routes (route :: rest) ∧
    s.directionModel = DirectionsViewModel.figures route ∧
    s.region = DirectionsViewModel.regionAround t.sourceLong t.sourceLat t.destLong t.destLat route

/-- The events can happen in this order, and leave no request outstanding. -/
def Completes (events : List MapEvent) : Prop :=
  ∃ responses s, Succeed responses ∧ run (MapEvent.step responses) initial events = some s ∧ s.Quiescent

/-- The request answered last is also the one whose region is assigned last, and
it leads to where `b` is. -/
def ServesLast (events : List MapEvent) (b : BuildingResponse) : Prop :=
  ∃ i c, (responded events).getLast? = some i ∧ (assigned events).getLast? = some i ∧
    (picks events)[i]? = some c ∧ c.long = b.long ∧ c.lat = b.lat

open Provenance

/-- A complete order of events is one of the abstract machine's. -/
theorem Completes.provenance {events : List MapEvent} (h : Completes events) :
    ∃ p, run Provenance.step Provenance.initial events = some p ∧ ∀ x ∈ p.tasks, x.2 = .finished := by
  obtain ⟨responses, s, hsucceed, hrun, hquiet⟩ := h
  choose route hroute using hsucceed
  rw [run_screen hroute] at hrun
  obtain ⟨p, hp, rfl⟩ := Option.map_eq_some_iff.mp hrun
  refine ⟨p, hp, fun x hx => ?_⟩
  obtain ⟨i, hi⟩ := List.getElem?_of_mem hx
  have ht : taskOf route i x ∈ (screen route p).tasks := by
    apply List.mem_of_getElem? (i := i)
    rw [screen_getElem?, hi, Option.map_some]
  have hphase := hquiet _ ht
  obtain ⟨b, st⟩ := x
  rcases st <;> simp [taskOf, phaseOf] at hphase ⊢

section Settled

variable {events : List MapEvent} {p : Provenance} {b : BuildingResponse} {r r' : RouteRequest}

/-- What the map shows when no request is outstanding, for any routes: the last
pick, the figures of the request `r` and the region of the request `r'`. -/
theorem screen_settled (hacc : Accounts events p) (hlast : (picks events).getLast? = some b)
    (hcleared : p.cleared = false) (hshown : p.shown = some r) (hframed : p.framed = some r')
    (route : ℕ → MKRoute) :
    (screen route p).annotations = [user, b] ∧
      (screen route p).directionModel = DirectionsViewModel.figures (route r.1) ∧
      (screen route p).region = regionOf route r' := by
  refine ⟨?_, ?_, ?_⟩
  · rw [screen, ← List.getLast?_map, hacc.picked, hlast]
    rfl
  · rw [screen, hcleared, hshown]
    rfl
  · rw [screen, hframed]
    rfl

/-- Routes that can be told apart by the number of their steps and by their
length. -/
def tellingRoute (i : ℕ) : MKRoute := ⟨List.replicate i ⟨""⟩, 0, i⟩

/-- With these routes, what is shown tells which request it comes from. -/
theorem request_of_shows (hmodel : (screen tellingRoute p).directionModel
      = DirectionsViewModel.figures (tellingRoute r.1))
    (hregion : (screen tellingRoute p).region = regionOf tellingRoute r')
    (h : (screen tellingRoute p).ShowsRouteTo (fun i => .routes [tellingRoute i]) b) :
    ∃ x, p.tasks[r.1]? = some x ∧ r'.1 = r.1 ∧ x.1.long = b.long ∧ x.1.lat = b.lat := by
  obtain ⟨-, i, t, route, rest, ht, hdest, hanswer, hfigures, harea⟩ := h
  obtain rfl : tellingRoute i = route := by
    rw [Response.routes.injEq, List.cons.injEq] at hanswer
    exact hanswer.1
  rw [screen_getElem?] at ht
  obtain ⟨x, hx, rfl⟩ := Option.map_eq_some_iff.mp ht
  -- the number of steps tells whose figures are shown
  have hi : r.1 = i := by
    rw [hmodel] at hfigures
    have hsteps := congrArg (fun m => m.dirs.length) hfigures
    simpa [DirectionsViewModel.figures, tellingRoute] using hsteps
  -- and the size of the region whose region it is
  have hi' : r'.1 = i := by
    rw [hregion] at harea
    have hmeters := congrArg (fun m => m.latitudinalMeters) harea
    simpa [regionOf, DirectionsViewModel.regionAround, tellingRoute] using hmeters
  exact ⟨x, hi ▸ hx, hi'.trans hi.symm, hdest⟩

/-- One request for both, and it leads to where `b` is. -/
theorem shows_of_request {responses : ℕ → Response} {route : ℕ → MKRoute}
    (hroute : ∀ i, ∃ rest, responses i = .routes (route i :: rest)) {x : BuildingResponse × Stage}
    (hx : p.tasks[r.1]? = some x) (hxr : x.1 = r.2) (hdest : r.2.long = b.long ∧ r.2.lat = b.lat)
    (hpins : (screen route p).annotations = [user, b])
    (hmodel : (screen route p).directionModel = DirectionsViewModel.figures (route r.1))
    (hregion : (screen route p).region = regionOf route r) :
    (screen route p).ShowsRouteTo responses b := by
  obtain ⟨rest, hanswer⟩ := hroute r.1
  refine ⟨hpins, r.1, taskOf route r.1 x, route r.1, rest, ?_, ?_, hanswer, hmodel, ?_⟩
  · rw [screen_getElem?, hx, Option.map_some]
  · exact ⟨(congrArg BuildingResponse.long hxr).trans hdest.1,
      (congrArg BuildingResponse.lat hxr).trans hdest.2⟩
  · rw [hregion, regionOf, ← hxr]
    rfl

end Settled

/-- **When the map shows the route to the pinned building.** For an order of
events with a last pick `b` that leaves no request outstanding: whatever the
routes are, the pins are the user and `b` and all that is shown comes from one
request for `b`, if and only if the request answered last is also the last to
assign its region and leads to `b`. -/
theorem shows_route_iff (events : List MapEvent) (b : BuildingResponse)
    (hlast : (picks events).getLast? = some b) (hcomplete : Completes events) :
    (∀ responses, Succeed responses → ∀ s,
        run (MapEvent.step responses) initial events = some s → s.ShowsRouteTo responses b) ↔
      ServesLast events b := by
  obtain ⟨p, hp, hdone⟩ := hcomplete.provenance
  have hacc := accounts_of_run hp
  have hpick : picks events ≠ [] := by
    intro hnil
    rw [hnil] at hlast
    cases hlast
  obtain ⟨hcleared, r, r', hshown, hframed⟩ := hacc.settled hdone hpick
  have hresponded : (responded events).getLast? = some r.1 := by rw [← hacc.shown, hshown]; rfl
  have hassigned : (assigned events).getLast? = some r'.1 := by rw [← hacc.framed, hframed]; rfl
  have hsettled := screen_settled hacc hlast hcleared hshown hframed
  constructor
  · intro h
    have hroute : ∀ i, ∃ rest, Response.routes [tellingRoute i] = .routes (tellingRoute i :: rest) :=
      fun i => ⟨[], rfl⟩
    have hrun : run (MapEvent.step fun i => .routes [tellingRoute i]) initial events
        = some (screen tellingRoute p) := by
      rw [run_screen hroute, hp]
      rfl
    have hshows := h _ (fun i => ⟨tellingRoute i, [], rfl⟩) _ hrun
    obtain ⟨-, hmodel, hregion⟩ := hsettled tellingRoute
    obtain ⟨x, hx, hone, hdest⟩ := request_of_shows hmodel hregion hshows
    refine ⟨r.1, x.1, hresponded, hone ▸ hassigned, ?_, hdest⟩
    rw [← hacc.picked, List.getElem?_map, hx]
    rfl
  · rintro ⟨i, c, hi, hi', hc, hdest⟩ responses hsucceed s hrun
    choose route hroute using hsucceed
    rw [run_screen hroute, hp, Option.map_some, Option.some.injEq] at hrun
    subst hrun
    -- the last answer and the last assignment are of one request, the one for `c`
    obtain rfl : r.1 = i := Option.some.inj (hresponded.symm.trans hi)
    have hone : r'.1 = r.1 := Option.some.inj (hassigned.symm.trans hi')
    have hrc : r.2 = c := Option.some.inj ((hacc.shown_task r hshown).symm.trans hc)
    have hr' : r' = r := by
      have htask := hacc.framed_task r' hframed
      rw [hone, hc] at htask
      exact Prod.ext hone ((Option.some.inj htask).symm.trans hrc.symm)
    obtain ⟨x, hx, hxc⟩ : ∃ x, p.tasks[r.1]? = some x ∧ x.1 = c := by
      rw [← hacc.picked, List.getElem?_map] at hc
      exact Option.map_eq_some_iff.mp hc
    obtain ⟨hpins, hmodel, hregion⟩ := hsettled route
    exact shows_of_request hroute hx (hxc.trans hrc.symm) (hrc ▸ hdest) hpins hmodel (hr' ▸ hregion)

/-- Two of the popular locations. -/
def irb : BuildingResponse :=
  { name := "IRB", code := "", id := "432"
    long := -769364438800535 / 10000000000000, lat := 389891607057353 / 10000000000000 }

def mck : BuildingResponse :=
  { name := "MCK", code := "", id := "035"
    long := -769451004712142 / 10000000000000, lat := 3898598155 / 100000000 }

/-- Two picks whose requests overlap; the first one is answered last. -/
def overtaken : List MapEvent :=
  [.pick irb, .pick mck, .enter 0, .enter 1, .respond 1, .assign 1, .respond 0, .assign 0]

/-- The pin is on the second building, the route leads to the first. -/
theorem stale_route_shown :
    ¬ ∀ (events : List MapEvent) (b : BuildingResponse), (picks events).getLast? = some b →
      ∀ responses, Succeed responses → ∀ s, run (MapEvent.step responses) initial events = some s →
      s.Quiescent → s.ShowsRouteTo responses b := by
  intro h
  let responses : ℕ → Response := fun i => .routes [⟨[], 0, i⟩]
  have hrun : ∃ s, run (MapEvent.step responses) initial overtaken = some s ∧
      s.tasks.map RouteTask.phase = [.finished, .finished] ∧
      s.tasks.map RouteTask.destLong = [irb.long, mck.long] ∧
      s.region.latitudinalMeters = ((0 : ℕ) : ℚ) + 100 := ⟨_, rfl, rfl, rfl, rfl⟩
  obtain ⟨s, hs, hphases, hdests, hmeters⟩ := hrun
  have hquiet : s.Quiescent := by
    intro t ht
    have hphase : t.phase ∈ s.tasks.map RouteTask.phase := List.mem_map_of_mem ht
    rw [hphases] at hphase
    simpa using hphase
  obtain ⟨-, i, t, route, rest, ht, hdest, hanswer, -, hregion⟩ :=
    h overtaken mck rfl responses (fun i => ⟨_, _, rfl⟩) s hs hquiet
  -- the region is that of the first request
  have hi : i = 0 := by
    rw [Response.routes.injEq, List.cons.injEq] at hanswer
    rw [hregion, ← hanswer.1, DirectionsViewModel.regionAround] at hmeters
    simpa using hmeters
  have hlong : (s.tasks.map RouteTask.destLong)[0]? = some mck.long := by
    rw [List.getElem?_map, ← hi, ht, Option.map_some, hdest.1]
  rw [hdests] at hlong
  exact absurd (Option.some.inj hlong) (by norm_num [irb, mck])

/-- The same two picks, answered in the order in which they were made. -/
def inOrder : List MapEvent :=
  [.pick irb, .pick mck, .enter 0, .enter 1, .respond 0, .respond 1, .assign 0, .assign 1]

theorem shows_route_iff_two :
    (∀ responses, Succeed responses → ∀ s, run (MapEvent.step responses) initial inOrder = some s →
        s.ShowsRouteTo responses mck) ↔
      ServesLast inOrder mck := by
  refine shows_route_iff inOrder mck rfl ⟨fun _ => .routes [⟨[], 0, 0⟩], _, fun _ => ⟨_, _, rfl⟩, rfl, ?_⟩
  intro t ht
  rcases List.mem_pair.mp ht with rfl | rfl <;> rfl

end MapState

end TerpBuilder
