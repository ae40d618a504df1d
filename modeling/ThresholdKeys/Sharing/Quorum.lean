import ThresholdKeys.Cause
import ThresholdKeys.Outcome

/-!
# Quorums for a rehearsal

To try every quorum of a given size would take too long. Three are tried: the first holders, the
last ones, and the first ones with the last holder in place of the last of them. Together they cover
all holders as long as a quorum is at least half of them. A quorum of all holders is tried alone.
-/

namespace ThresholdKeys

/-- The quorums of a size to be tried, each in the order of the holders. -/
def selectQuorums {α : Type} (holders : List α) (size : Nat) :
    Outcome SharingError (List (List α)) :=
  let n := holders.length
  if size = 0 ∨ n < size then .error (.badQuorumSize size n)
  else if size = n then .ok [holders]
  else .ok
    [holders.take size, holders.drop (n - size), holders.take (size - 1) ++ holders.drop (n - 1)]

end ThresholdKeys
