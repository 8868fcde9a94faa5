import FlowSched.Planning.Planner

/-!
# Settings

The settings of one run: its algorithm, the delay under which the schedule is reconciled, and the
limits of the planners.
-/

namespace FlowSched

open Quantity

/-- The settings of one run. A port delay of zero leaves the schedule as executed. -/
structure Settings (α : Type) [Quantity α] where
  algorithm : Algorithm := .heft
  portDelay : α := 0
  includeParentStart : Bool := true
  startFloor : α := tenth
  maxWidth : Int := 8
  warnWidth : Int := 6
  fallbackLatency : α := tenth
  seed : Option Int := none

namespace Settings

variable {α : Type} [Quantity α]

/-- The names under which settings are given. -/
def keys : List String :=
  ["algorithm", "port_delay", "include_parent_start", "start_floor", "ocs_max_permutation_width",
    "ocs_permutation_warning_width", "fallback_latency", "seed"]

/-- The given names that no setting has, in ascending order. -/
def unknownKeys (given : List String) : List String :=
  (given.filter fun k => !keys.contains k).mergeSort fun a b => !decide (b < a)

/-- Every given name is that of a setting. -/
def checkKeys (given : List String) : Except (Fault α) Unit :=
  let unknown := unknownKeys given
  if unknown.isEmpty then .ok () else .error (.unknownKeys unknown)

/-- Checks the settings, and warns of groups that fail before they are warned of. -/
def check (s : Settings α) : Step (Fault α) (Array (Note α)) Unit := do
  if s.portDelay < 0 then throw (.negativeSettingDelay s.portDelay)
  if s.startFloor < 0 then throw (.negativeSettingFloor s.startFloor)
  if s.maxWidth < 2 then throw .narrowSettingWidth
  if s.warnWidth < 2 then throw .narrowSettingWarning
  if s.maxWidth < s.warnWidth then modify (·.push .lateWarning)
  if s.fallbackLatency ≤ 0 then throw .noLatency

/-- The planner of the algorithm, if it has one. -/
def planner? (s : Settings α) : Except (Fault α) (Option (Planner α)) :=
  match s.algorithm with
  | .heft => some <$> Planner.byRank s.startFloor
  | .ocs => some <$> Planner.byEstimate s.startFloor
      { maxWidth := s.maxWidth, warnWidth := s.warnWidth, fallback := s.fallbackLatency }
  | _ => .ok none

end Settings

end FlowSched
