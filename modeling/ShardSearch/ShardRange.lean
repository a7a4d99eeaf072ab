import ShardSearch.Error
import ShardSearch.ShardDate

/-!
# Ranges of days

A `ShardRange` restricts a search to the shards of some consecutive days.  Shards without a day
are in no range.
-/

namespace ShardSearch

/-- The days from `first` to `last`, both included. -/
structure ShardRange where
  first : String
  last : String
  isDay_first : isDayShard first
  isDay_last : isDayShard last
  first_le_last : first ≤ last
  deriving DecidableEq

namespace ShardRange

/-- The range between two days.  The bounds are looked at in order, each has to be a day, and only
    then is it asked whether they are in order. -/
def ofBounds (first last : String) : Except Error ShardRange :=
  if isDay_first : isDayShard first then
    if isDay_last : isDayShard last then
      if first_le_last : first ≤ last then
        .ok { first, last, isDay_first, isDay_last, first_le_last }
      else .error (.reversedRange first last)
    else .error (.notADay last)
  else .error (.notADay first)

/-- The range of a single day. -/
def ofDay (day : String) : Except Error ShardRange := ofBounds day day

/-- Whether the day of a shard lies in the range. -/
def contains (r : ShardRange) (shard : String) : Bool :=
  (shardDate shard).any (fun day => r.first ≤ day && day ≤ r.last)

/-- Whether the day of a shard comes after the last one of the range. -/
def isPastEnd (r : ShardRange) (shard : String) : Bool :=
  (shardDate shard).any (fun day => r.last < day)

end ShardRange

end ShardSearch
