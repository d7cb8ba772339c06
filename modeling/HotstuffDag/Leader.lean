import HotstuffDag.Config
import Mathlib.Data.List.Sort

/-! # Leader election -/

namespace HotstuffDag

/-- `RandomLeaderElector::get_leader`. An empty committee, where the source divides by zero, is
never elected from: `Core.start` has no chain to run then. -/
def Committee.getLeader (c : Committee) (epoch : SeqNumber) : PublicKey :=
  let keys := c.keys.insertionSort (· ≤ ·)
  keys.getD (epoch.toNat % c.size) PublicKey.zero

end HotstuffDag
