import LogTail.Tracker.Basic

namespace LogTail.Tracker

/-- Cuts a list into pieces of `n`, of which the last may be shorter; there is at least one piece.
`fuel` is the length of the list. -/
def chunksFrom {α : Type} (n : Nat) : Nat → List α → List (List α)
  | 0, as => [as]
  | fuel + 1, as =>
    if as.length ≤ n then [as] else as.take n :: chunksFrom n fuel (as.drop n)

def chunks {α : Type} (n : Nat) (as : List α) : List (List α) := chunksFrom n as.length as

def reached (limit batches : Nat) : Bool := limit ≠ 0 && limit ≤ batches

/-- Reads batches, of which `count` are done. Only a poll that comes to its last batch is complete;
between batches the token is looked at. -/
def readBatches : List (List Path) → Nat → Tracker → World → Option Tracker × World
  | [], _, k, w => (some k, w)
  | [batch], _, k, w =>
    match k.readBatch batch w with
    | (some k, w) => (some k.readFromBeginning, w)
    | (none, w) => (none, w)
  | batch :: batches, count, k, w =>
    match k.readBatch batch w with
    | (none, w) => (none, w)
    | (some k, w) =>
      if reached k.settings.maxBatches (count + 1) then (some k, w)
      else
        match w.outlet.lookJoined with
        | (true, outlet) => (some k, { w with outlet })
        | (false, outlet) => readBatches batches (count + 1) k { w with outlet }

def matched (k : Tracker) (t : FileTree) : List Path :=
  match k.selector.select t with
  | .ok paths => paths
  | .error _ => []

def poll (k : Tracker) (w : World) : Option Tracker × World :=
  let batches := chunks (max k.settings.batchFiles 1) (k.matched w.tree)
  readBatches batches 0 { k with gathered := [] } w

end LogTail.Tracker
