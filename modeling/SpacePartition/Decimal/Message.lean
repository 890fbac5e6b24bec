import SpacePartition.Space.Fault
import SpacePartition.Decimal.Shortest

/-!
The texts of faults. Tolerances are written with the fewest digits.
-/

namespace SpacePartition

def nodeName (id : Nat) : String :=
  s!"#{id}"

namespace Violation

def message : Violation Float → String
  | cutIntoInternal id => s!"cannot insert a cut into internal node {nodeName id}"
  | toleranceMismatch a b =>
    "cannot combine regions with tolerances " ++ Decimal.shortest a ++ " and " ++ Decimal.shortest b

end Violation

namespace Fault

def message : Fault Float → String
  | geometry e  => e.message
  | violation v => v.message

end Fault
end SpacePartition
