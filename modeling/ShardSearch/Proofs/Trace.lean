import ShardSearch.Stream.Cursor

/-!
# Traces

A `Trace` is all that a stream will ever answer: its entries and how the sequence of them ends.
The trace of a composite is got from the traces of its parts by rounds, as its head is got from
the heads of its parts, but without any of the bookkeeping: there is nothing to fill, and seeking
a shard drops the entries before it.  `meet` and `join` unroll these rounds, and `unroll_eq` is
the equation that everything about them is derived from.
-/

namespace ShardSearch

/-- The entries of a stream, and the error that ends them if it is not their end that does. -/
structure Trace where
  entries : List Entry
  fault : Option Error
  deriving DecidableEq, Inhabited

namespace Trace

/-- The trace that ends at once. -/
def stop (fault : Option Error) : Trace := ⟨[], fault⟩

/-- A trace with an entry put in front of it, if there is one. -/
def after (t : Trace) (entry : Option Entry) : Trace :=
  { t with entries := entry.toList ++ t.entries }

/-- A trace without its first entry. -/
def tail (t : Trace) : Trace := { t with entries := t.entries.tail }

/-- The number of entries. -/
def size (t : Trace) : Nat := t.entries.length

/-- Applies `f` to the set of every entry. -/
def mapSets (f : MatchSet → MatchSet) (t : Trace) : Trace :=
  { t with entries := t.entries.map (fun e => { e with set := f e.set }) }

/-- What a stream of this trace has at its head. -/
def head : Trace → Head
  | ⟨e :: _, _⟩ => .ready e
  | ⟨[], none⟩ => .ended
  | ⟨[], some error⟩ => .failed error

/-- The shard of the first entry. -/
def headShard? (t : Trace) : Option String := t.head.entry?.map (·.shard)

/-- The set of the first entry, if that entry lies at `shard`. -/
def setAt? (shard : String) (t : Trace) : Option MatchSet :=
  (t.head.entry?.filter (·.shard = shard)).map (·.set)

/-- Drops the entries that come before the first one at `shard` or above. -/
def seek (shard : String) (t : Trace) : Trace :=
  { t with entries := t.entries.dropWhile (·.shard < shard) }

/-- The number of entries of some traces together. -/
def total : List Trace → Nat
  | [] => 0
  | t :: rest => t.size + total rest

/-! ## Rounds -/

/-- What a round over traces comes to. -/
inductive Move where
  /-- Nothing more will come. -/
  | stop (fault : Option Error)
  /-- Entries of `rest` have been consumed, for the given entry or to no avail. -/
  | pass (entry : Option Entry) (rest : List Trace)

/-- The entry made of a set, unless nothing can match in it. -/
def entryOf (shard : String) (set : MatchSet) : Option Entry :=
  if set.matchesNothing then none else some ⟨shard, set⟩

/-- The end of a round of an intersection, once the entries before `shard` are dropped: consumes
    `shard` if all parts hold it. -/
def consume (node : Option NodeId) (shard : String) (parts : List Trace) : Move :=
  match parts.find? (·.head.isOver) with
  | some t => .stop t.fault
  | none =>
    if parts.all (fun t => (t.setAt? shard).isSome) then
      .pass (entryOf shard (MatchSet.intersect shard node (parts.filterMap (setAt? shard))))
        (parts.map tail)
    else .pass none parts

/-- A round of an intersection. -/
def meetMove (node : Option NodeId) (parts : List Trace) : Move :=
  match parts.find? (·.head.isOver) with
  | some t => .stop t.fault
  | none =>
    match Stream.greatest (parts.filterMap headShard?) with
    | none => .stop none
    | some shard => consume node shard (parts.map (seek shard))

/-- A trace without its first entry, if that entry lies at `shard`. -/
def leave (shard : String) (t : Trace) : Trace := if (t.setAt? shard).isSome then t.tail else t

/-- A round of a union. -/
def joinMove (node : Option NodeId) (parts : List Trace) : Move :=
  match parts.find? (·.head.isFailure) with
  | some t => .stop t.fault
  | none =>
    match Stream.least (parts.filterMap headShard?) with
    | none => .stop none
    | some shard =>
      .pass (entryOf shard (MatchSet.unite shard node (parts.filterMap (setAt? shard))))
        (parts.map (leave shard))

/-- The trace of at most `n` rounds. -/
def unrollWithin (move : List Trace → Move) : (n : Nat) → List Trace → Trace
  | 0, _ => stop none
  | n + 1, parts =>
    match move parts with
    | .stop fault => stop fault
    | .pass entry rest => (unrollWithin move n rest).after entry

/-- The trace of all rounds; there are no more of them than entries, plus one. -/
def unroll (move : List Trace → Move) (parts : List Trace) : Trace :=
  unrollWithin move (total parts + 1) parts

/-- The trace of an intersection. -/
def meet (node : Option NodeId) (parts : List Trace) : Trace := unroll (meetMove node) parts

/-- The trace of a union. -/
def join (node : Option NodeId) (parts : List Trace) : Trace := unroll (joinMove node) parts

/-- Every round that is not the last consumes an entry. -/
def Shrinks (move : List Trace → Move) : Prop :=
  ∀ parts entry rest, move parts = .pass entry rest → total rest < total parts

theorem unrollWithin_eq_of_lt {move : List Trace → Move} (hmove : Shrinks move) (m n : Nat)
    (parts : List Trace) (hm : total parts < m) (hn : total parts < n) :
    unrollWithin move m parts = unrollWithin move n parts := by
  induction m generalizing n parts with
  | zero => omega
  | succ m ih =>
    obtain ⟨n, rfl⟩ : ∃ k, n = k + 1 := ⟨n - 1, by omega⟩
    simp only [unrollWithin]
    cases hp : move parts with
    | stop fault => rfl
    | pass entry rest =>
      have hlt := hmove parts entry rest hp
      simp only [ih n rest (by omega) (by omega)]

/-- The first round, then all others. -/
theorem unroll_eq {move : List Trace → Move} (hmove : Shrinks move) (parts : List Trace) :
    unroll move parts =
      match move parts with
      | .stop fault => stop fault
      | .pass entry rest => (unroll move rest).after entry := by
  rw [unroll, unrollWithin]
  cases hp : move parts with
  | stop fault => rfl
  | pass entry rest =>
    have hlt := hmove parts entry rest hp
    simp only [unroll, unrollWithin_eq_of_lt hmove (total parts) (total rest + 1) rest hlt
      (by omega)]

/-! ## Heads -/

@[simp] theorem after_none (t : Trace) : t.after none = t := rfl

theorem head_ne_unread (t : Trace) : t.head ≠ .unread := by
  obtain ⟨_ | ⟨e, es⟩, _ | error⟩ := t <;> simp [head]

/-- A trace whose head is over is empty. -/
theorem isOver_head {t : Trace} : t.head.isOver = true ↔ t.entries = [] := by
  obtain ⟨_ | ⟨e, es⟩, _ | error⟩ := t <;> simp [head, Head.isOver]

theorem isFailure_head {t : Trace} :
    t.head.isFailure = true ↔ t.entries = [] ∧ t.fault.isSome := by
  obtain ⟨_ | ⟨e, es⟩, _ | error⟩ := t <;> simp [head, Head.isFailure]

theorem headShard?_cons (e : Entry) (es : List Entry) (fault : Option Error) :
    headShard? ⟨e :: es, fault⟩ = some e.shard := rfl

theorem setAt?_cons (shard : String) (e : Entry) (es : List Entry) (fault : Option Error) :
    setAt? shard ⟨e :: es, fault⟩ = if e.shard = shard then some e.set else none := by
  by_cases h : e.shard = shard <;> simp [setAt?, head, Head.entry?, Option.filter, h]

theorem entries_ne_nil_of_setAt? {shard : String} {t : Trace} (h : (t.setAt? shard).isSome) :
    t.entries ≠ [] := by
  obtain ⟨_ | ⟨e, es⟩, _ | error⟩ := t <;> simp_all [setAt?, head, Head.entry?]

theorem head_mapSets (f : MatchSet → MatchSet) (t : Trace) :
    (t.mapSets f).head = t.head.mapSet f := by
  obtain ⟨_ | ⟨e, es⟩, _ | error⟩ := t <;> rfl

@[simp] theorem fault_tail (t : Trace) : t.tail.fault = t.fault := rfl

@[simp] theorem fault_seek (shard : String) (t : Trace) : (t.seek shard).fault = t.fault := rfl

theorem seek_cons_of_lt {e : Entry} {es : List Entry} {fault : Option Error} {shard : String}
    (h : e.shard < shard) : seek shard ⟨e :: es, fault⟩ = seek shard ⟨es, fault⟩ :=
  congrArg (Trace.mk · fault) (List.dropWhile_cons_of_pos (decide_eq_true h))

theorem seek_cons_of_not_lt {e : Entry} {es : List Entry} {fault : Option Error} {shard : String}
    (h : ¬ e.shard < shard) : seek shard ⟨e :: es, fault⟩ = ⟨e :: es, fault⟩ :=
  congrArg (Trace.mk · fault) (List.dropWhile_cons_of_neg (mt of_decide_eq_true h))

theorem size_tail (t : Trace) : t.tail.size = t.size - 1 := by
  simp [size, tail]

end Trace

end ShardSearch
