/-!
# Days in shard names

A shard is named by a day, eight digits `yyyyMMdd`, either alone or followed by an underscore and
the name of a partition of that day.  Names of any other form have no day.
-/

namespace ShardSearch

/-- The day a shard belongs to: the first eight characters of its name, if these are digits and
    either end the name or are followed by an underscore. -/
def shardDate (shard : String) : Option String :=
  let day := shard.toList.take 8
  let rest := shard.toList.drop 8
  if day.length = 8 ∧ day.all Char.isDigit ∧ (rest = [] ∨ rest.head? = some '_') then
    some (String.ofList day)
  else none

/-- Whether the name is that of a whole day. -/
def isDayShard (shard : String) : Bool := shardDate shard == some shard

end ShardSearch
