/-
Calls of `computeDirections` one after the other, and whose figures are left.

A call clears the steps at its start and assigns all three figures when it gets a
route, so between two calls nothing of the first is lost but its steps. After a
call without a route the time and the distance are still those of the last route
before it, however far back that is; the theorem says when this does not show.
-/
import TerpBuilder.DirectionsModel
import Mathlib.Data.List.Induction
import Mathlib.Tactic.NormNum

set_option autoImplicit false

namespace TerpBuilder

/-- The route the code takes from a response: the first one. -/
def Response.route? : Response → Option MKRoute
  | .routes found => found.head?
  | .error => none

/-- A call of `computeDirections`, with the response its request gets. -/
structure DirectionsCall where
  sourceLong : ℚ
  sourceLat : ℚ
  destLong : ℚ
  destLat : ℚ
  response : Response

namespace DirectionsViewModel

/-- `computeDirections`, when nothing else runs while it is suspended. -/
def computeDirections (model : DirectionsViewModel) (call : DirectionsCall) :
    DirectionsViewModel × MKCoordinateRegion :=
  model.beginDirections.finishDirections call.sourceLong call.sourceLat call.destLong call.destLat call.response

/-- The model after a sequence of calls, each finished before the next starts. -/
def after (calls : List DirectionsCall) : DirectionsViewModel :=
  calls.foldl (fun model call => (model.computeDirections call).1) initial

@[simp] theorem after_concat (calls : List DirectionsCall) (call : DirectionsCall) :
    after (calls ++ [call]) = ((after calls).computeDirections call).1 := by
  rw [after, List.foldl_append]
  rfl

/-! ## One call -/

variable {model : DirectionsViewModel} {call : DirectionsCall}

/-- With a route the figures are all overwritten. -/
theorem computeDirections_of_route {route : MKRoute} (h : call.response.route? = some route) :
    (model.computeDirections call).1 = figures route := by
  rw [computeDirections]
  cases hresponse : call.response with
  | routes found =>
      rw [hresponse, Response.route?, List.head?_eq_some_iff] at h
      obtain ⟨rest, rfl⟩ := h
      rw [finishDirections_of_route _ _ _ _ _ ⟨rest, rfl⟩]
  | error =>
      rw [hresponse] at h
      cases h

/-- Without one, an empty list or a thrown error, only the steps are cleared. -/
theorem computeDirections_of_no_route (h : call.response.route? = none) :
    (model.computeDirections call).1 = { model with dirs := [] } := by
  rw [computeDirections, beginDirections_eq]
  cases hresponse : call.response with
  | routes found =>
      rw [hresponse, Response.route?, List.head?_eq_none_iff] at h
      rw [h]
      rfl
  | error => rfl

/-! ## A sequence of calls -/

/-- The last route that one of the calls got. -/
def lastRoute (calls : List DirectionsCall) : Option MKRoute :=
  (calls.filterMap fun call => call.response.route?).getLast?

theorem lastRoute_concat (calls : List DirectionsCall) (call : DirectionsCall) :
    lastRoute (calls ++ [call]) = call.response.route?.or (lastRoute calls) := by
  rw [lastRoute, List.filterMap_append, List.getLast?_append]
  cases hroute : call.response.route? <;> simp [lastRoute, hroute]

/-- **Whose time and distance are left**: those of the last route, whichever call
got it. -/
theorem after_time_distance (calls : List DirectionsCall) :
    (after calls).time = ((lastRoute calls).elim initial figures).time ∧
      (after calls).distance = ((lastRoute calls).elim initial figures).distance := by
  -- from the right, as the last call decides unless it has no route
  induction calls using List.reverseRecOn with
  | nil => exact ⟨rfl, rfl⟩
  | append_singleton calls call ih =>
      rw [after_concat, lastRoute_concat]
      cases hroute : call.response.route? with
      | none => rwa [computeDirections_of_no_route hroute]
      | some route =>
          rw [computeDirections_of_route hroute]
          exact ⟨rfl, rfl⟩

/-- The figures of a request: those of its route, and empty and zero without
one. -/
def ownFigures (call : DirectionsCall) : DirectionsViewModel := call.response.route?.elim initial figures

/-- A call with no route leaves its own figures when the last route before it took
no time and led nowhere. -/
theorem after_concat_eq_ownFigures_iff (calls : List DirectionsCall) (call : DirectionsCall) :
    after (calls ++ [call]) = ownFigures call ↔
      (call.response.route? = none → ∀ route, lastRoute calls = some route →
        route.expectedTravelTime = 0 ∧ route.distance = 0) := by
  rw [after_concat, ownFigures]
  cases hroute : call.response.route? with
  | some route =>
      rw [computeDirections_of_route hroute]
      exact iff_of_true rfl fun hnone => absurd hnone (Option.some_ne_none route)
  | none =>
      obtain ⟨htime, hdistance⟩ := after_time_distance calls
      rw [computeDirections_of_no_route hroute, DirectionsViewModel.ext_iff, htime, hdistance]
      cases lastRoute calls with
      | none => simp [initial]
      | some route => simp [initial, figures, and_comm]

/-- **When no stale figures are left.** In a sequence of calls the three figures
are after each call those of its own request, if and only if no call without a
route comes after one with a route, unless the last such route took no time and
led nowhere. -/
theorem figures_of_last_request_iff (calls : List DirectionsCall) :
    (∀ earlier call, earlier ++ [call] <+: calls → after (earlier ++ [call]) = ownFigures call) ↔
      ∀ earlier call, earlier ++ [call] <+: calls → call.response.route? = none →
        ∀ route, lastRoute earlier = some route → route.expectedTravelTime = 0 ∧ route.distance = 0 := by
  simp only [after_concat_eq_ownFigures_iff]

/-- A walk of ten minutes and a kilometre. -/
def tenMinutes : MKRoute := ⟨[⟨"Head north"⟩], 600, 1000⟩

def callWith (response : Response) : DirectionsCall :=
  ⟨-769426 / 10000, 389869 / 10000, -769365 / 10000, 389891 / 10000, response⟩

/-- The time of the first destination is shown for the second. -/
theorem stale_figures_left :
    ¬ ∀ calls earlier call, earlier ++ [call] <+: calls → after (earlier ++ [call]) = ownFigures call := by
  intro h
  have hfigures := h [callWith (.routes [tenMinutes]), callWith .error] [callWith (.routes [tenMinutes])]
    (callWith .error) (List.prefix_refl _)
  have htime : (600 / 60 : ℚ) = 0 := congrArg DirectionsViewModel.time hfigures
  norm_num at htime

end DirectionsViewModel

end TerpBuilder
