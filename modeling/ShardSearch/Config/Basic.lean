import ShardSearch.Error

/-!
# Settings of a search
-/

namespace ShardSearch

/-- How the streams of a query are made. -/
structure EngineConfig where
  /-- Shards that hold a term for more uids than this are not enumerated; without a threshold
      every shard is. -/
  uidThreshold : Option Nat
  /-- Whether descendants of documents already found are dropped from the result. -/
  ancestorDedup : Bool
  deriving DecidableEq, Inhabited

namespace EngineConfig

/-- Everything is enumerated and nothing is dropped. -/
def standard : EngineConfig := ⟨none, false⟩

/-- Settings for stores of nested documents. -/
def hierarchical : EngineConfig := ⟨none, true⟩

/-- Sets the threshold. -/
def withUidThreshold (c : EngineConfig) (n : Nat) : EngineConfig :=
  { c with uidThreshold := some n }

/-- Sets whether descendants are dropped. -/
def withAncestorDedup (c : EngineConfig) (b : Bool) : EngineConfig := { c with ancestorDedup := b }

/-- A threshold of zero is refused. -/
def validate (c : EngineConfig) : Except Error Unit :=
  if c.uidThreshold = some 0 then .error .zeroThreshold else .ok ()

end EngineConfig

end ShardSearch
