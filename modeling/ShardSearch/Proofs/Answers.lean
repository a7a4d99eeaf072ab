import ShardSearch.Proofs.Assembly
import ShardSearch.Proofs.Completeness

/-!
# The entries a reader is handed

Whatever calls a reader makes, the entries it is handed are entries of the trace, and those it is
handed by `next` are the first ones, in their order.  So `run_entries` brings what holds of traces
to what a reader sees of any stream that is put together from leaves.
-/

namespace ShardSearch

/-- The entry that an answer hands out, if it does. -/
def Answer.entry? : Answer → Option Entry
  | entry e => some e
  | flag _ | done => none

/-- The entries that some answers hand out. -/
def entriesOf (answers : List (Except Error Answer)) : List Entry :=
  answers.filterMap fun answer => answer.toOption.bind Answer.entry?

namespace Trace

variable {t : Trace} {kind : String} {i : Nat}

theorem getElem?_of_answer {c : Call} {e : Entry} (h : t.answer kind i c = .ok (.entry e)) :
    t.entries[i]? = some e := by
  unfold answer at h
  generalize t.entries[i]? = found at h ⊢
  generalize t.fault = fault at h
  cases c <;> cases found <;> cases fault <;> cases h <;> rfl

/-- Every entry that is handed out is one of the trace. -/
theorem mem_entries_of_answers {calls : List Call} {e : Entry}
    (h : e ∈ entriesOf (t.answers kind i calls)) : e ∈ t.entries := by
  induction calls generalizing i with
  | nil => cases h
  | cons c calls ih =>
    obtain ⟨answer, hanswer, hentry⟩ := List.mem_filterMap.1 h
    rcases List.mem_cons.1 hanswer with rfl | hanswer
    · obtain ⟨a, ha, hentry⟩ := Option.bind_eq_some_iff.1 hentry
      cases hc : t.answer kind i c with
      | error error => rw [hc] at ha; cases ha
      | ok a' =>
        rw [hc] at ha
        cases ha
        cases a with
        | flag holds | done => cases hentry
        | entry e' =>
          cases hentry
          exact List.mem_of_getElem? (getElem?_of_answer hc)
    · exact ih (List.mem_filterMap.2 ⟨answer, hanswer, hentry⟩)

/-- Calls of `next` hand out the entries from the position on, one by one. -/
theorem entriesOf_next (n : Nat) :
    entriesOf (t.answers kind i (List.replicate n .next)) = (t.entries.drop i).take n := by
  induction n generalizing i with
  | zero => rfl
  | succ n ih =>
    rw [List.replicate_succ, answers, position, entriesOf, List.filterMap_cons]
    cases hi : t.entries[i]? with
    | none =>
      have hle : t.entries.length ≤ i := List.getElem?_eq_none_iff.1 hi
      have hnext : (t.answer kind i .next).toOption.bind Answer.entry? = none := by
        simp only [answer, hi]
        cases t.fault <;> rfl
      rw [hnext, if_neg (Nat.not_lt.2 hle)]
      -- at the end the position stays where it is, so the remaining calls hand out nothing either
      have hrest := ih (i := i)
      rw [List.drop_eq_nil_of_le hle, List.take_nil] at hrest ⊢
      exact hrest
    | some e =>
      obtain ⟨hlt, he⟩ := List.getElem?_eq_some_iff.1 hi
      have hnext : (t.answer kind i .next).toOption.bind Answer.entry? = some e := by
        simp only [answer, hi]
        rfl
      rw [hnext, if_pos hlt, List.drop_eq_getElem_cons hlt, he, List.take_succ_cons]
      exact congrArg (e :: ·) ih

end Trace

namespace Stream

theorem mem_entries_of_run {s : Stream} {calls : List Call} {e : Entry}
    (h : e ∈ entriesOf (s.run calls).1) : e ∈ s.trace.entries := by
  rw [run_answers (i := 0) rfl] at h
  exact Trace.mem_entries_of_answers h

theorem entriesOf_nextAnswers (s : Stream) (calls : List Call) :
    entriesOf (nextAnswers calls (s.run calls).1) =
      s.trace.entries.take (calls.count .next) := by
  rw [run_answers (i := 0) rfl, nextAnswers_answers, Trace.entriesOf_next, List.drop_zero]

/-- The entry that a call of `next` hands out, if it does. -/
def handedOut (c : Call) (answer : Except Error Answer) : Option Entry :=
  if c = .next then answer.toOption.bind Answer.entry? else none

theorem entriesOf_nextAnswers_cons (c : Call) (calls : List Call) (answer : Except Error Answer)
    (answers : List (Except Error Answer)) :
    entriesOf (nextAnswers (c :: calls) (answer :: answers)) =
      (handedOut c answer).toList ++ entriesOf (nextAnswers calls answers) := by
  by_cases hc : c = .next
  · simp only [nextAnswers, entriesOf, handedOut, hc, List.zip_cons_cons, decide_true,
      List.filter_cons_of_pos, List.map_cons, List.filterMap_cons, if_pos]
    cases answer.toOption.bind Answer.entry? <;> rfl
  · simp [nextAnswers, entriesOf, handedOut, hc]

/-- The shards of the entries that `next` hands out ascend strictly, whatever the scanners below
    yield and whatever other calls are made.  Every entry is filed under the shard of its set, whose
    uids ascend strictly, and an intersection or a union hands out no set in which nothing can
    match.  No stream does whose leaves all come out of indexes that were built up entry by
    entry. -/
theorem run_entries (s : Stream) (calls : List Call) :
    (s.BuiltFrom IsLeaf →
      (entriesOf (nextAnswers calls (s.run calls).1)).Pairwise (·.shard < ·.shard) ∧
      (∀ e ∈ entriesOf (s.run calls).1,
        e.set.shard = e.shard ∧ e.set.uids.Pairwise (· < ·)) ∧
      (s.IsComposite → ∀ e ∈ entriesOf (s.run calls).1, e.set.matchesNothing = false)) ∧
    (s.BuiltFrom IsIndexLeaf →
      ∀ e ∈ entriesOf (s.run calls).1, e.set.matchesNothing = false) := by
  constructor
  · intro hbuilt
    refine ⟨?_, ?_, ?_⟩
    · rw [entriesOf_nextAnswers]
      exact (hbuilt.ascending fun _ => IsLeaf.ascending).sublist (List.take_sublist _ _)
    · intro e he
      have hfiled := hbuilt.forall_entries (P := fun e => e.set.shard = e.shard)
        (fun _ => IsLeaf.filed) (fun _ => Trace.Made.filed) fun _ h => h
      exact ⟨hfiled e (mem_entries_of_run he), SortedMap.pairwise_keys _⟩
    · intro hcomposite e he
      have hmade := hbuilt.made_of_isComposite (fun _ => IsLeaf.not_isComposite) hcomposite
      exact (hmade e (mem_entries_of_run he)).matching
  · intro hbuilt e he
    refine hbuilt.forall_entries (P := fun e => e.set.matchesNothing = false)
      (fun _ => IsIndexLeaf.matching) (fun _ => Trace.Made.matching) ?_ e (mem_entries_of_run he)
    intro e' hmatching
    rw [MatchSet.removeOverlapping_eq, MatchSet.matchesNothing_dropCovered]
    exact hmatching

/-- A scanner that finds nothing in its second shard and goes back to its third one. -/
def unruly : Stream :=
  ofScanner (some ⟨1⟩) <| .ofItems
    [.found (.ofUids "20240101_0" (some ⟨1⟩) ["x"]), .found (.empty "20240102_0" (some ⟨1⟩)),
      .found (.ofUids "20240103_0" (some ⟨1⟩) ["y"]),
      .found (.ofUids "20240103_0" (some ⟨1⟩) ["z"])]

theorem builtFrom_unruly : unruly.BuiltFrom IsLeaf :=
  .leaf ⟨some ⟨1⟩, .scan _, unruly, _, rfl, rfl⟩

theorem reachable_sample : ShardIndex.sample.Reachable :=
  .add "B" "2" "20240102_0" "z" <| .add "B" "2" "20240102_0" "y" <|
    .add "A" "1" "20240102_0" "y" <| .add "A" "1" "20240102_0" "x" .empty

def sampleCalls : List Call := [.peek, .next, .hasNext, .next, .next]

theorem run_entries_sample :
    (∃ s, unite (some ⟨3⟩) [unruly, delayed (some ⟨2⟩)] = .ok s ∧
      (entriesOf (nextAnswers sampleCalls (s.run sampleCalls).1)).map (·.shard) =
        ["20240101_0", "20240103_0"] ∧
      (entriesOf (nextAnswers sampleCalls (s.run sampleCalls).1)).Pairwise (·.shard < ·.shard) ∧
      ∀ e ∈ entriesOf (s.run sampleCalls).1,
        e.set.shard = e.shard ∧ e.set.matchesNothing = false) ∧
    ∃ s, (ShardIndex.leafOf .unrestricted ⟨0⟩ "A" "1" .sample).1 = .ok s ∧
      ∀ e ∈ entriesOf ((s.dropDescendants none).run [.next]).1, e.set.matchesNothing = false := by
  constructor
  · obtain ⟨s, hs⟩ : ∃ s, unite (some ⟨3⟩) [unruly, delayed (some ⟨2⟩)] = .ok s := ⟨_, rfl⟩
    have hbuilt : s.BuiltFrom IsLeaf := by
      refine .union ?_ hs
      intro child hchild
      simp only [List.mem_cons, List.not_mem_nil, or_false] at hchild
      rcases hchild with rfl | rfl
      · exact builtFrom_unruly
      · exact .leaf (isLeaf_delayed _)
    have hcomposite : s.IsComposite := by
      cases hs
      exact trivial
    have hshards : (entriesOf (nextAnswers sampleCalls (s.run sampleCalls).1)).map (·.shard) =
        ["20240101_0", "20240103_0"] := by
      cases hs
      rfl
    obtain ⟨hasc, hfiled, hmatching⟩ := (run_entries s sampleCalls).1 hbuilt
    exact ⟨s, hs, hshards, hasc, fun e he => ⟨(hfiled e he).1, hmatching hcomposite e he⟩⟩
  · obtain ⟨s, hs⟩ : ∃ s, (ShardIndex.leafOf .unrestricted ⟨0⟩ "A" "1" .sample).1 = .ok s :=
      ⟨_, rfl⟩
    have hbuilt : (s.dropDescendants none).BuiltFrom IsIndexLeaf :=
      .ancestor none (.leaf (.supplied _ _ _ _ reachable_sample hs))
    exact ⟨s, hs, (run_entries (s.dropDescendants none) [.next]).2 hbuilt⟩

end Stream

end ShardSearch
