import RoutineScripts.Digest.Sha256
import RoutineScripts.Guid

/-!
# Supplies of identifiers

New identifiers are drawn from a seed: the digest of the seed and a count gives the digits of the
identifier with that count.
-/

namespace RoutineScripts

namespace Guid

/-- The number that a sequence of bytes stands for, highest byte first. -/
def numberOf (bytes : Bytes) : Nat :=
  bytes.foldl (fun number byte => number * 256 + byte.toNat) 0

/-- The identifier with a count in the supply of a seed. -/
def seeded (seed : Bytes) (count : Nat) : Guid :=
  ofNat (numberOf (Sha256.digest (seed ++ Sha256.lengthBytes count)))

end Guid

end RoutineScripts
