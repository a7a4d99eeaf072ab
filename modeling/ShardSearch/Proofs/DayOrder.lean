import ShardSearch.ShardRange

/-!
# Days and the order of shards

The day of a shard is where its name begins, so days come in the order of the names.  This is why
a scan restricted to a range may skip to its first day and stop behind its last one.
-/

namespace ShardSearch

/-- Where the beginnings of two texts are in order, so are the texts. -/
theorem lex_of_lex_take {n : Nat} {xs ys : List Char}
    (h : List.Lex (· < ·) (xs.take n) (ys.take n)) : List.Lex (· < ·) xs ys := by
  induction n generalizing xs ys with
  | zero => exact absurd h List.not_lex_nil
  | succ n ih =>
    cases ys with
    | nil => exact absurd h List.not_lex_nil
    | cons y ys =>
      cases xs with
      | nil => exact .nil
      | cons x xs =>
        rw [List.take_succ_cons, List.take_succ_cons] at h
        cases h with
        | rel hlt => exact .rel hlt
        | cons hrest => exact .cons (ih hrest)

theorem not_lex_take {n : Nat} {xs : List Char} : ¬ List.Lex (· < ·) xs (xs.take n) := by
  induction n generalizing xs with
  | zero => exact List.not_lex_nil
  | succ n ih =>
    intro h
    cases xs with
    | nil => exact absurd h List.not_lex_nil
    | cons x xs =>
      rw [List.take_succ_cons] at h
      cases h with
      | rel hlt => exact Char.lt_irrefl x hlt
      | cons hrest => exact ih hrest

theorem toList_of_shardDate {shard day : String} (h : shardDate shard = some day) :
    day.toList = shard.toList.take 8 := by
  simp only [shardDate] at h
  split at h
  · rw [← Option.some.inj h, String.toList_ofList]
  · cases h

/-- The day of a shard does not come after the shard. -/
theorem shardDate_le {shard day : String} (h : shardDate shard = some day) : day ≤ shard := by
  apply String.not_lt.1
  intro hlt
  rw [String.lt_iff, toList_of_shardDate h] at hlt
  exact not_lex_take hlt

/-- Days come in the order of their shards. -/
theorem shardDate_le_shardDate {s t day day' : String} (hst : s ≤ t) (hs : shardDate s = some day)
    (ht : shardDate t = some day') : day ≤ day' := by
  refine String.not_lt.1 fun hlt => String.not_lt.2 hst ?_
  rw [String.lt_iff, toList_of_shardDate hs, toList_of_shardDate ht] at hlt
  exact lex_of_lex_take hlt

namespace ShardRange

variable {r : ShardRange} {shard s t : String}

theorem contains_iff :
    r.contains shard = true ↔ ∃ day, shardDate shard = some day ∧ r.first ≤ day ∧ day ≤ r.last := by
  rw [contains, Option.any_eq_true]
  simp

theorem isPastEnd_iff :
    r.isPastEnd shard = true ↔ ∃ day, shardDate shard = some day ∧ r.last < day := by
  rw [isPastEnd, Option.any_eq_true]
  simp

/-- No shard of a range comes before its first day. -/
theorem first_le_of_contains (h : r.contains shard = true) : r.first ≤ shard := by
  obtain ⟨day, hday, hfirst, -⟩ := contains_iff.1 h
  exact String.le_trans hfirst (shardDate_le hday)

/-- No shard of a range comes after one past its end. -/
theorem not_contains_of_isPastEnd (hst : s ≤ t) (h : r.isPastEnd s = true) :
    r.contains t = false := by
  obtain ⟨day, hday, hlast⟩ := isPastEnd_iff.1 h
  apply Bool.eq_false_iff.2
  intro ht
  obtain ⟨day', hday', -, hlast'⟩ := contains_iff.1 ht
  have hle := shardDate_le_shardDate hst hday hday'
  grind

end ShardRange

end ShardSearch
