import ShardSearch.Error
import ShardSearch.MatchSet.Basic

/-!
# The head of a stream
-/

namespace ShardSearch

/-- What a stream knows of its next entry.  Once it has `ended` or `failed` it stays so. -/
inductive Head where
  /-- Not looked for yet. -/
  | unread
  /-- This is the next entry. -/
  | ready (entry : Entry)
  /-- There is none. -/
  | ended
  /-- The search for it failed, and will answer with the same error from now on. -/
  | failed (error : Error)
  deriving DecidableEq, Inhabited

namespace Head

/-- The next entry, if it is known. -/
def entry? : Head → Option Entry
  | ready e => some e
  | _ => none

/-- Whether no entry will come any more. -/
def isOver : Head → Bool
  | ended | failed _ => true
  | _ => false

/-- Whether the search for the next entry failed. -/
def isFailure : Head → Bool
  | failed _ => true
  | _ => false

/-- Applies `f` to the set of the next entry. -/
def mapSet (f : MatchSet → MatchSet) : Head → Head
  | ready e => ready { e with set := f e.set }
  | h => h

theorem isOver_of_isFailure {head : Head} (h : head.isFailure = true) : head.isOver = true := by
  cases head with
  | failed error => rfl
  | unread | ready e | ended => cases h

end Head

end ShardSearch
