import ShardSearch.Proofs.Answers
import ShardSearch.Proofs.Loops

/-!
# What reading consumes

A round of a composite that does not settle its head consumes an entry of some part, whatever the
parts are; so rounds come to an end, and a stream yields no more entries than there are sets in its
leaves and scanners (`pulls_return`).
-/

namespace ShardSearch

/-! ## What rounds consume -/

namespace Trace

/-- A round of an intersection takes away the first entries of its parts. -/
theorem suffix_of_meetMove {node : Option NodeId} {parts rest : List Trace} {entry : Option Entry}
    (h : meetMove node parts = .pass entry rest) :
    List.Forall₂ (fun t t' => t'.entries <:+ t.entries) parts rest := by
  have hcase := meetCase_meetMove node parts
  rw [h] at hcase
  cases hcase with
  | consumed shard leads aligned =>
    rw [List.map_map, List.forall₂_map_right_iff, List.forall₂_same]
    exact fun t _ => (List.tail_suffix _).trans (List.dropWhile_suffix _)
  | passed shard leads t mem rest missing =>
    rw [List.forall₂_map_right_iff, List.forall₂_same]
    exact fun t _ => List.dropWhile_suffix _

/-- A round of a union takes away the first entry of some of its parts. -/
theorem suffix_of_joinMove {node : Option NodeId} {parts rest : List Trace} {entry : Option Entry}
    (h : joinMove node parts = .pass entry rest) :
    List.Forall₂ (fun t t' => t'.entries <:+ t.entries) parts rest := by
  have hcase := joinCase_joinMove node parts
  rw [h] at hcase
  cases hcase with
  | consumed shard held bound sound =>
    rw [List.forall₂_map_right_iff, List.forall₂_same]
    intro t _
    rw [leave]
    split
    · exact List.tail_suffix _
    · exact List.suffix_refl _

theorem size_after_le (t : Trace) (entry : Option Entry) : (t.after entry).size ≤ t.size + 1 := by
  cases entry <;> simp [after, size]

/-- A composite has no more entries than its parts have together. -/
theorem size_unroll_le {move : List Trace → Move} (hmove : Shrinks move) (parts : List Trace) :
    (unroll move parts).size ≤ total parts := by
  induction parts using (measure total).wf.induction with
  | _ parts ih =>
    have hlt := hmove parts
    rw [unroll_eq hmove]
    generalize move parts = outcome at hlt
    cases outcome with
    | stop fault => exact Nat.zero_le _
    | pass entry rest =>
      have hfewer := hlt entry rest rfl
      have hrest := ih rest hfewer
      have hafter := size_after_le (unroll move rest) entry
      simp only
      omega

end Trace

theorem Head.size_before_le (head : Head) (t : Trace) :
    (head.before t).size ≤ t.size + head.entry?.toList.length := by
  cases head with
  | unread => exact Nat.le_refl _
  | ready e => exact Trace.size_after_le t (some e)
  | ended | failed error => exact Nat.zero_le _

/-- The set that a source yields with an item, if it does. -/
def ScanItem.set? : ScanItem → Option MatchSet
  | found set => some set
  | failure _ | pause => none

/-- A scan lets no more entries through than its source yields sets. -/
theorem Scanner.size_traceFrom_le (last : Option String) (items : List ScanItem) :
    (Scanner.traceFrom last items).size ≤ (items.filterMap ScanItem.set?).length := by
  induction items generalizing last with
  | nil => exact Nat.le_refl _
  | cons item items ih =>
    cases item with
    | pause | failure error => exact Nat.zero_le _
    | found set =>
      rw [List.filterMap_cons_some (f := ScanItem.set?) rfl]
      rcases Stream.ascends_or_descends last set with hlast | ⟨shard, rfl, hdescends⟩
      · rw [Stream.traceFrom_found hlast]
        exact Nat.le_trans (Trace.size_after_le _ _) (Nat.succ_le_succ (ih _))
      · rw [Stream.traceFrom_descending hdescends]
        exact Nat.zero_le _

namespace Stream

/-! ## What is consumed -/

/-- Of the entries that some parts would still yield, `parts'` have lost the first ones, and at
    least one of them. -/
structure Consumes (parts parts' : List Stream) : Prop where
  left : List.Forall₂ (fun s s' => s'.trace.entries <:+ s.trace.entries) parts parts'
  fewer : Trace.total (parts'.map trace) < Trace.total (parts.map trace)

section Rounds

variable {Fill : Stream → Stream → Prop} (hFill : ∀ s s', Fill s s' → Fills s s')
  {node : Option NodeId} {parts parts' : List Stream}

include hFill

/-- A round of an intersection that does not settle the head consumes an entry. -/
theorem Meets.consumes (hmeets : Meets Fill node parts (.again parts')) :
    Consumes parts parts' := by
  have hfill := fillAt_readsBelow (heightAll parts)
  have hround := hmeets.eq_meetRound hfill (fun s s' hs hs' => (hFill s s' hs').eq_fillAt _ hs)
    (Nat.le_refl _)
  obtain ⟨hpass, -⟩ := move_of_again (fun _ hh => meetRound_spec hfill node hh) (Nat.le_refl _)
    hround.symm
  refine ⟨?_, Trace.shrinks_meetMove node _ _ _ hpass⟩
  exact List.forall₂_map_left_iff.1 (List.forall₂_map_right_iff.1 (Trace.suffix_of_meetMove hpass))

/-- A round of a union that does not settle the head consumes an entry. -/
theorem Joins.consumes (hjoins : Joins Fill node parts (.again parts')) :
    Consumes parts parts' := by
  have hfill := fillAt_readsBelow (heightAll parts)
  have hround := hjoins.eq_joinRound (fun s s' hs hs' => (hFill s s' hs').eq_fillAt _ hs)
    (Nat.le_refl _)
  obtain ⟨hpass, -⟩ := move_of_again (fun _ hh => joinRound_spec hfill node hh) (Nat.le_refl _)
    hround.symm
  refine ⟨?_, Trace.shrinks_joinMove node _ _ _ hpass⟩
  exact List.forall₂_map_left_iff.1 (List.forall₂_map_right_iff.1 (Trace.suffix_of_joinMove hpass))

end Rounds

/-- If every round that does not settle the head consumes an entry, there are at most as many rounds
    as entries, and one. -/
theorem Settles.rounds_le {Rounds : List Stream → Round → Prop} {n : Nat} {parts : List Stream}
    {result : Head × List Stream} (hsettles : Settles Rounds n parts result)
    (hconsumes : ∀ parts parts', Rounds parts (.again parts') → Consumes parts parts') :
    n ≤ Trace.total (parts.map trace) + 1 := by
  induction hsettles with
  | settled last => omega
  | again first rest ih =>
    have hfewer := (hconsumes _ _ first).fewer
    omega

/-! ## What there is to consume -/

mutual

/-- The number of sets that the leaves and the scanners of a stream hold, and of the entries it has
    prepared.  Before it is read it has prepared none. -/
def stock : Stream → Nat
  | leaf _ _ _ entries => entries.length
  | scan _ _ scanner head =>
    (scanner.coming.filterMap ScanItem.set?).length + head.entry?.toList.length
  | intersection _ _ filters deferred head =>
    stockAll filters + stockAll deferred + head.entry?.toList.length
  | union _ _ _ sources head => stockAll sources + head.entry?.toList.length
  | ancestor delegate _ _ => stock delegate

/-- The number of sets that some streams hold together. -/
def stockAll : List Stream → Nat
  | [] => 0
  | s :: rest => stock s + stockAll rest

end

mutual

/-- A stream yields no more entries than there are sets in it. -/
theorem size_trace_le : ∀ s : Stream, s.trace.size ≤ s.stock
  | leaf node context label entries => Nat.le_refl _
  | scan node label scanner head => by
    have hbefore := head.size_before_le (Scanner.traceFrom scanner.last scanner.coming)
    have hscanner := Scanner.size_traceFrom_le scanner.last scanner.coming
    rw [trace, stock]
    omega
  | intersection node context filters deferred head => by
    have hbefore := head.size_before_le (Trace.meet node (filters.map trace))
    have hmeet := Trace.size_unroll_le (Trace.shrinks_meetMove node) (filters.map trace)
    have hparts := total_trace_le filters
    rw [trace, stock, traceAll_eq_map]
    rw [Trace.meet] at hbefore ⊢
    omega
  | union node context prunes sources head => by
    have hbefore := head.size_before_le (Trace.join node (sources.map trace))
    have hjoin := Trace.size_unroll_le (Trace.shrinks_joinMove node) (sources.map trace)
    have hparts := total_trace_le sources
    rw [trace, stock, traceAll_eq_map]
    rw [Trace.join] at hbefore ⊢
    omega
  | ancestor delegate parent _ => by
    have hdelegate := size_trace_le delegate
    rw [trace, stock, Trace.mapSets, Trace.size, List.length_map]
    exact hdelegate

theorem total_trace_le : ∀ ss : List Stream, Trace.total (ss.map trace) ≤ stockAll ss
  | [] => Nat.le_refl _
  | s :: rest => by
    have hs := size_trace_le s
    have hrest := total_trace_le rest
    rw [List.map_cons, Trace.total_cons, stockAll]
    omega

end

/-- Whatever the leaves hold and the scanners yield, every call returns, and so does the reading of
    all entries; that hands out at most as many entries as there are sets.  In a round of any
    composite an entry is consumed that one of its parts would have yielded, unless the round
    settles the head.  So the rounds of one call are at most as many as these entries, and one. -/
theorem pulls_return (s : Stream) :
    (∀ c result, Returns s c result ↔ result = s.call c) ∧
    (∀ result, Drains s result ↔ result = s.drain) ∧
    (∀ entries, s.drain.1 = .ok entries → entries.length ≤ s.stock) ∧
    (∀ calls, (entriesOf (nextAnswers calls (s.run calls).1)).length ≤ s.stock) ∧
    ∀ Fill : Stream → Stream → Prop, (∀ s s', Fill s s' → Fills s s') →
      ∀ (node : Option NodeId) (parts : List Stream),
        (∀ parts', Meets Fill node parts (.again parts') ∨ Joins Fill node parts (.again parts') →
          Consumes parts parts') ∧
        ∀ n result,
          Settles (Meets Fill node) n parts result ∨ Settles (Joins Fill node) n parts result →
            n ≤ Trace.total (parts.map trace) + 1 := by
  have hsize := size_trace_le s
  refine ⟨fun c result => returns_iff, fun result => drains_iff, ?_, ?_, ?_⟩
  · intro entries hdrain
    rwa [trace_of_drain hdrain] at hsize
  · intro calls
    rw [entriesOf_nextAnswers]
    exact Nat.le_trans (List.length_take_le' _ _) hsize
  · intro Fill hFill node parts
    refine ⟨?_, ?_⟩
    · rintro parts' (hmeets | hjoins)
      · exact hmeets.consumes hFill
      · exact hjoins.consumes hFill
    · rintro n result (hsettles | hsettles)
      · exact hsettles.rounds_le fun _ _ hmeets => hmeets.consumes hFill
      · exact hsettles.rounds_le fun _ _ hjoins => hjoins.consumes hFill

/-- Two parts that first come to lie at a shard where one of them holds nothing. -/
def sampleParts : List Stream :=
  [leaf (some ⟨2⟩) .present "data" <|
      [MatchSet.ofUids "20240102_0" (some ⟨2⟩) ["x"],
        MatchSet.ofUids "20240103_0" (some ⟨2⟩) ["y"]].map (·.entry),
    unruly]

theorem pulls_return_sample :
    (∃ parts' result,
      Meets Fills (some ⟨3⟩) sampleParts (.again parts') ∧ Consumes sampleParts parts' ∧
      Settles (Meets Fills (some ⟨3⟩)) 2 sampleParts result ∧
      2 ≤ Trace.total (sampleParts.map trace) + 1) ∧
    ∃ s entries, intersect (some ⟨3⟩) sampleParts = .ok s ∧ Drains s s.drain ∧
      s.drain.1 = .ok entries ∧ entries.length ≤ s.stock := by
  constructor
  · have hmeets : ∀ {parts round}, heightAll parts ≤ 1 →
        meetRound (fillAt 1) (some ⟨3⟩) parts = round → Meets Fills (some ⟨3⟩) parts round := by
      rintro parts _ hh rfl
      exact meets_meetRound (fillAt_readsBelow 1) (fills_fillAt 1) (some ⟨3⟩) hh
    obtain ⟨parts', hagain⟩ :
        ∃ parts', meetRound (fillAt 1) (some ⟨3⟩) sampleParts = .again parts' := ⟨_, rfl⟩
    have hfirst : Meets Fills (some ⟨3⟩) sampleParts (.again parts') := hmeets (by decide) hagain
    obtain ⟨head, parts'', hsettled⟩ :
        ∃ head parts'', meetRound (fillAt 1) (some ⟨3⟩) parts' = .settled head parts'' := by
      cases hagain
      exact ⟨_, _, rfl⟩
    have hheight : heightAll parts' ≤ 1 := by
      cases hagain
      decide
    have hrounds : Settles (Meets Fills (some ⟨3⟩)) 2 sampleParts (head, parts'') :=
      .again hfirst (.settled (hmeets hheight hsettled))
    obtain ⟨-, -, -, -, hcomposite⟩ := pulls_return unruly
    obtain ⟨hconsumes, hbound⟩ := hcomposite Fills (fun _ _ h => h) (some ⟨3⟩) sampleParts
    exact ⟨parts', _, hfirst, hconsumes parts' (.inl hfirst), hrounds, hbound 2 _ (.inl hrounds)⟩
  · obtain ⟨s, hs⟩ : ∃ s, intersect (some ⟨3⟩) sampleParts = .ok s := ⟨_, rfl⟩
    obtain ⟨entries, hentries⟩ : ∃ entries, s.drain.1 = .ok entries := by
      cases hs
      exact ⟨_, rfl⟩
    obtain ⟨-, hdrains, hlength, -⟩ := pulls_return s
    exact ⟨s, entries, hs, (hdrains _).2 rfl, hentries, hlength entries hentries⟩

end Stream

end ShardSearch
