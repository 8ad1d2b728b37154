/-
`MapView.swift`: picking a destination, and the tasks that fetch its route.

Every pick starts a task of its own. A task is created by the pick, runs up to
its request, is resumed by the response and, back in `computeDirs`, assigns the
region; between any two of these the other tasks and further picks may run. The
steps of the state machine below are these pieces, each of which runs as one, and
the operating system chooses their order. A step that is not due gives `none`.
-/
import TerpBuilder.DirectionsModel
import Mathlib.Data.List.Basic

set_option autoImplicit false

namespace TerpBuilder

/-- `struct BuildingResponse`. -/
structure BuildingResponse where
  name : String
  code : String
  id : String
  long : ℚ
  lat : ℚ
  deriving DecidableEq

/-- Where a `Task` of `computeDirs` stands. -/
inductive Phase where
  | created
  /-- suspended in `directions.calculate()` -/
  | waiting
  /-- `computeDirections` has returned this region -/
  | returned (region : MKCoordinateRegion)
  | finished
  deriving DecidableEq

/-- A `Task` with the arguments of its `computeDirections`. -/
structure RouteTask where
  sourceLong : ℚ
  sourceLat : ℚ
  destLong : ℚ
  destLat : ℚ
  phase : Phase
  deriving DecidableEq

/-- The state of `MapView` that the map and the popups show, its directions model,
and its tasks in the order of their creation. -/
structure MapState where
  annotations : List BuildingResponse
  region : MKCoordinateRegion
  directionModel : DirectionsViewModel
  tasks : List RouteTask

namespace MapState

/-- user is fixed and is the first `BuildingResponse` -/
def user : BuildingResponse :=
  { name := "user", code := "", id := "", long := -769426 / 10000, lat := 389869 / 10000 }

def initial : MapState := ⟨[user], DirectionsViewModel.campus, .initial, []⟩

/-- `computeDirs`: starts the task. -/
def computeDirs (sourceLong sourceLat destLong destLat : ℚ) (s : MapState) : MapState :=
  { s with tasks := s.tasks ++ [⟨sourceLong, sourceLat, destLong, destLat, .created⟩] }

/-- `xs.remove(at: i)`, which traps past the end. -/
def removeAt {α : Type*} (xs : List α) (i : ℕ) : Option (List α) :=
  if i < xs.length then some (xs.eraseIdx i) else none

/-- The delayed closure of a search row, and of a popular location. -/
def pick (building : BuildingResponse) (s : MapState) : Option MapState := do
  let annotations ←
    if s.annotations.length = 1 then
      some (s.annotations ++ [building])
    else
      -- the pin of the pick before gives way
      (removeAt s.annotations 1).map (· ++ [building])
  let source ← annotations[0]?
  let dest ← annotations[1]?
  return { s with annotations := annotations }.computeDirs source.long source.lat dest.long dest.lat

/-- The `i`-th task starts, as far as its request. -/
def enter (i : ℕ) (s : MapState) : Option MapState := do
  let t ← s.tasks[i]?
  match t.phase with
  | .created => return { s with
      directionModel := s.directionModel.beginDirections
      tasks := s.tasks.set i { t with phase := .waiting } }
  | _ => none

/-- The `i`-th task is resumed with the response to its request. -/
def respond (i : ℕ) (response : Response) (s : MapState) : Option MapState := do
  let t ← s.tasks[i]?
  match t.phase with
  | .waiting =>
      let (model, region) :=
        s.directionModel.finishDirections t.sourceLong t.sourceLat t.destLong t.destLat response
      return { s with
        directionModel := model
        tasks := s.tasks.set i { t with phase := .returned region } }
  | _ => none

/-- The `i`-th task assigns the region and ends. -/
def assign (i : ℕ) (s : MapState) : Option MapState := do
  let t ← s.tasks[i]?
  match t.phase with
  | .returned region => return { s with
      region := region
      tasks := s.tasks.set i { t with phase := .finished } }
  | _ => none

end MapState

/-- What happens next. -/
inductive MapEvent where
  | pick (building : BuildingResponse)
  | enter (i : ℕ)
  | respond (i : ℕ)
  | assign (i : ℕ)
  deriving DecidableEq

namespace MapEvent

/-- One step, when the request of the `i`-th task is answered by `responses i`. -/
def step (responses : ℕ → Response) (s : MapState) : MapEvent → Option MapState
  | pick building => s.pick building
  | enter i => s.enter i
  | respond i => s.respond i (responses i)
  | assign i => s.assign i

end MapEvent

end TerpBuilder
