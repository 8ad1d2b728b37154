/-
`Models/DirectionsModel.swift`: the published directions and the request that
fills them.

`computeDirections` is suspended once, while the network answers, so it is two
functions here: what runs up to `await directions.calculate()` and what runs
when it returns or throws. Coordinates, times and lengths are rationals; nothing
the application does with them depends on how a `Double` rounds.
-/
import Mathlib.Data.Rat.Defs
import Mathlib.Algebra.Order.Field.Rat

set_option autoImplicit false

namespace TerpBuilder

/-- `MKRoute.Step`, of which the application shows the instructions. -/
structure Step where
  instructions : String
  deriving DecidableEq, Repr

structure MKRoute where
  steps : List Step
  expectedTravelTime : ℚ
  distance : ℚ
  deriving DecidableEq

structure CLLocationCoordinate2D where
  latitude : ℚ
  longitude : ℚ
  deriving DecidableEq

structure MKCoordinateRegion where
  center : CLLocationCoordinate2D
  latitudinalMeters : ℚ
  longitudinalMeters : ℚ
  deriving DecidableEq

/-- How `directions.calculate()` ends. -/
inductive Response where
  | routes (routes : List MKRoute)
  | error
  deriving DecidableEq

/-- `class DirectionsViewModel`. -/
@[ext]
structure DirectionsViewModel where
  dirs : List Step
  /-- distance in miles -/
  distance : ℚ
  /-- time in minutes -/
  time : ℚ
  deriving DecidableEq

namespace DirectionsViewModel

/-- A new `DirectionsViewModel()`. -/
def initial : DirectionsViewModel := { dirs := [], distance := 0, time := 0 }

/-- The campus, which is also the region the map starts with. -/
def campus : MKCoordinateRegion :=
  { center := { latitude := 389869 / 10000, longitude := -769426 / 10000 }
    latitudinalMeters := 500
    longitudinalMeters := 500 }

/-- The figures that are published for a route. -/
def figures (route : MKRoute) : DirectionsViewModel :=
  { dirs := route.steps
    time := route.expectedTravelTime / 60
    distance := route.distance * (621 / 1000000) }

/-- The region that shows both ends of a route. -/
def regionAround (sourceLong sourceLat destLong destLat : ℚ) (route : MKRoute) : MKCoordinateRegion :=
  { center := { latitude := (sourceLat + destLat) / 2, longitude := (sourceLong + destLong) / 2 }
    latitudinalMeters := route.distance + 100
    longitudinalMeters := route.distance + 100 }

/-- `computeDirections` up to the suspension: reset previous directions. -/
def beginDirections (model : DirectionsViewModel) : DirectionsViewModel :=
  if model.dirs.length ≠ 0 then { model with dirs := [] } else model

/-- `computeDirections` after the suspension: the model it leaves and the region
it returns. -/
def finishDirections (model : DirectionsViewModel) (sourceLong sourceLat destLong destLat : ℚ) :
    Response → DirectionsViewModel × MKCoordinateRegion
  | .routes (route :: _) =>
      ({ model with
          dirs := route.steps
          time := route.expectedTravelTime / 60
          distance := route.distance * (621 / 1000000) },
        regionAround sourceLong sourceLat destLong destLat route)
  -- no route, or a thrown error: the figures stay, and the map returns to the campus
  | .routes [] => (model, campus)
  | .error => (model, campus)

/-- The reset clears the steps and nothing else. -/
theorem beginDirections_eq (model : DirectionsViewModel) :
    model.beginDirections = { model with dirs := [] } := by
  unfold beginDirections
  by_cases h : model.dirs.length ≠ 0
  · rw [if_pos h]
  · rw [if_neg h]
    ext1
    · exact List.length_eq_zero_iff.mp (not_not.mp h)
    · rfl
    · rfl

/-- A route overwrites all three figures, whatever was there. -/
theorem finishDirections_of_route (model : DirectionsViewModel) (sourceLong sourceLat destLong destLat : ℚ)
    {response : Response} {route : MKRoute} (h : ∃ rest, response = .routes (route :: rest)) :
    model.finishDirections sourceLong sourceLat destLong destLat response
      = (figures route, regionAround sourceLong sourceLat destLong destLat route) := by
  obtain ⟨rest, rfl⟩ := h
  rfl

end DirectionsViewModel

end TerpBuilder
