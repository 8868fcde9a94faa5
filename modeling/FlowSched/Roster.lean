import FlowSched.Random.Source

/-!
# Rosters

A roster of one VM per host in three tiers, each tier its own datacenter. Speeds are given or
drawn from the range of the tier.
-/

namespace FlowSched

open Quantity

namespace Tier

/-- The datacenter of a tier. -/
def datacenter : Tier → Int
  | cloud => 2
  | fog => 3
  | mobile => 4

/-- Least and greatest speed drawn in a tier. -/
def speeds : Tier → Int × Int
  | cloud => (2000, 3000)
  | fog => (1000, 2000)
  | mobile => (250, 750)

/-- The price of a tier per unit of speed, in hundredths. -/
def cents : Tier → Nat
  | cloud => 96
  | fog => 48
  | mobile => 0

end Tier

/-- The number of hosts in each tier, and the speeds that are given. -/
structure HostSpec (α : Type) where
  cloud : Int := 1
  fog : Int := 1
  mobile : Int := 1
  mips : Tier → List α := fun _ => []

namespace HostSpec

variable {α γ : Type} [Quantity α] [Source γ]

/-- The number of hosts in a tier. -/
def count (spec : HostSpec α) : Tier → Int
  | .cloud => spec.cloud
  | .fog => spec.fog
  | .mobile => spec.mobile

/-- The speed of a host: the given one, else a drawn one. -/
def drawSpeed (spec : HostSpec α) (tier : Tier) (index : Nat) : Draw α γ α :=
  match (spec.mips tier)[index]? with
  | some mips => pure mips
  | none => do
    let n ← Draw.between tier.speeds.1 tier.speeds.2
    pure (n : α)

/-- Draws the VM of a host behind those there are. -/
def drawHost (spec : HostSpec α) (tier : Tier) (vms : List (Vm α)) (index : Nat) :
    Draw α γ (List (Vm α)) := do
  let mips ← drawSpeed spec tier index
  if mips ≤ 0 then throw (.weakHost tier index)
  pure (vms ++
    [{ id := vms.length, mips, datacenter := tier.datacenter, tier
       price := ((tier.cents : Nat) : α) / ((100 : Nat) : α) }])

/-- Draws a roster. -/
def draw (spec : HostSpec α) : Draw α γ (List (Vm α)) := do
  if Tier.all.any fun tier => spec.count tier < 0 then throw .negativeHosts
  Tier.all.foldlM (fun vms tier =>
    (List.range (spec.count tier).toNat).foldlM (drawHost spec tier) vms) []

end HostSpec

end FlowSched
