import FlowSched.Number.Quantity

/-!
# Virtual machines

A VM belongs to one of three tiers and is idle or busy. A roster is a list of VMs; its order
decides ties, and an id that stands in it twice names the later VM.
-/

namespace FlowSched

open Quantity

/-- The layer of the topology a VM lives in. -/
inductive Tier where
  | cloud
  | fog
  | mobile
  deriving DecidableEq

namespace Tier

/-- The tiers from the fastest to the slowest. -/
def all : List Tier := [cloud, fog, mobile]

/-- The tier in capitals, as tables show it. -/
def label : Tier → String
  | cloud => "CLOUD"
  | fog => "FOG"
  | mobile => "MOBILE"

/-- The tier with one capital, as charts show it. -/
def title : Tier → String
  | cloud => "Cloud"
  | fog => "Fog"
  | mobile => "Mobile"

/-- The tier in small letters, as host lists name it. -/
def key : Tier → String
  | cloud => "cloud"
  | fog => "fog"
  | mobile => "mobile"

end Tier

/-- A virtual machine. Speed is in million instructions per second, bandwidth in megabits per
second; `load` is the speed requested of it at the moment. -/
structure Vm (α : Type) [Quantity α] where
  id : Int
  mips : α
  bandwidth : α := ((1000 : Nat) : α)
  elements : Int := 1
  datacenter : Int := 0
  tier : Tier := .cloud
  busy : Bool := false
  load : α := 0
  price : α := 0

namespace Vm

variable {α : Type} [Quantity α]

/-- The VM with nothing running on it. -/
def release (v : Vm α) : Vm α := { v with busy := false, load := 0 }

/-- The VM that an id names: the last one in the roster that bears it. -/
def named? (vms : List (Vm α)) (id : Int) : Option (Vm α) := vms.findRev? (·.id = id)

/-- The place of the VM that an id names. -/
def placeOf? (vms : List (Vm α)) (id : Int) : Option Nat :=
  (vms.zipIdx.findRev? fun (v, _) => v.id = id).map Prod.snd

end Vm

end FlowSched
