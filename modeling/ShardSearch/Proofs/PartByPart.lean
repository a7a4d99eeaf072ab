import Mathlib.Data.List.Forall2
import ShardSearch.Proofs.Filling
import ShardSearch.Proofs.Reporting

/-!
# Reading, part by part

However deep a stream is, all that reading does to it is to pass entries of its leaves and of its
composites, to pull items out of its scanners and to settle heads.  A relation that is `Steady`
under these acts relates a stream to what is left of it after any calls (`Steady.run`), and the
parts of a composite, one by one, to what is left of them when its head is settled
(`Steady.settle`).
-/

namespace ShardSearch.Stream

/-- The relation holds between a stream and itself read further, whatever act of reading is made
    last. -/
structure Steady (R : Stream → Stream → Prop) : Prop where
  refl : ∀ s, R s s
  trans : ∀ {s t u}, R s t → R t u → R s u
  /-- An entry of a leaf is passed. -/
  passLeaf : ∀ node context label entries,
    R (leaf node context label entries) (leaf node context label entries.tail)
  /-- The entry that a scan has prepared is passed. -/
  passScan : ∀ node label scanner e,
    R (scan node label scanner (.ready e)) (scan node label scanner .unread)
  /-- A scan prepares its next entry. -/
  pullScan : ∀ node label scanner,
    R (scan node label scanner .unread) (scan node label scanner.pull.2 scanner.pull.1)
  /-- The filters of an intersection are read, or its head changes. -/
  readFilters : ∀ node context {filters filters'} deferred head head',
    List.Forall₂ R filters filters' →
      R (intersection node context filters deferred head)
        (intersection node context filters' deferred head')
  /-- The sources of a union are read, or its head changes. -/
  readSources : ∀ node context prunes {sources sources'} head head',
    List.Forall₂ R sources sources' →
      R (union node context prunes sources head) (union node context prunes sources' head')
  /-- The delegate of an ancestor stream is read. -/
  readDelegate : ∀ {delegate delegate'} parent, R delegate delegate' →
    R (ancestor delegate parent ()) (ancestor delegate' parent ())

namespace Steady

variable {R : Stream → Stream → Prop} (hR : Steady R)

include hR

theorem forall₂_refl (ss : List Stream) : List.Forall₂ R ss ss :=
  List.forall₂_same.2 fun s _ => hR.refl s

theorem forall₂_trans {ss ts us : List Stream} (h : List.Forall₂ R ss ts)
    (h' : List.Forall₂ R ts us) : List.Forall₂ R ss us := by
  induction h generalizing us with
  | nil =>
    cases h'
    exact .nil
  | cons hhead _ ih =>
    cases h' with
    | cons hhead' htail => exact .cons (hR.trans hhead hhead') (ih htail)

omit hR in
theorem forall₂_map {f : Stream → Stream} (hf : ∀ s, R s (f s)) (ss : List Stream) :
    List.Forall₂ R ss (ss.map f) :=
  List.forall₂_map_right_iff.2 (List.forall₂_same.2 fun s _ => hf s)

theorem of_pop : ∀ s : Stream, R s s.pop
  | .leaf node context label entries => hR.passLeaf node context label entries
  | .scan node label scanner head => by
    cases head with
    | ready e => exact hR.passScan node label scanner e
    | unread | ended | failed error => exact hR.refl _
  | .intersection node context filters deferred head => by
    cases head with
    | ready e => exact hR.readFilters node context deferred _ _ (hR.forall₂_refl filters)
    | unread | ended | failed error => exact hR.refl _
  | .union node context prunes sources head => by
    cases head with
    | ready e => exact hR.readSources node context prunes _ _ (hR.forall₂_refl sources)
    | unread | ended | failed error => exact hR.refl _
  | .ancestor delegate parent () => hR.readDelegate parent (of_pop delegate)

/-! ## Rounds -/

section Rounds

variable {fill : Stream → Stream} (hfill : ∀ s, R s (fill s))

theorem sweep {step : Stream → Stream} (hstep : ∀ s, R s (step s)) (stop : Head → Bool)
    (ss : List Stream) : List.Forall₂ R ss (sweep step stop ss).2 := by
  induction ss with
  | nil => exact .nil
  | cons s rest ih =>
    simp only [Stream.sweep]
    split
    · exact .cons (hstep s) (hR.forall₂_refl rest)
    · exact .cons (hstep s) ih

include hfill

theorem seekWithin (shard : String) (n : Nat) (s : Stream) : R s (seekWithin fill shard n s) := by
  induction n generalizing s with
  | zero => exact hfill s
  | succ n ih =>
    simp only [Stream.seekWithin]
    split
    · exact hR.trans (hfill s) (hR.trans (hR.of_pop _) (ih _))
    · exact hfill s

theorem seek (shard : String) (s : Stream) : R s (seek fill shard s) :=
  hR.seekWithin hfill shard s.held s

theorem meetRound (node : Option NodeId) (parts : List Stream) :
    List.Forall₂ R parts (meetRound fill node parts).parts := by
  have hfilled := hR.sweep hfill Head.isOver parts
  unfold Stream.meetRound
  generalize Stream.sweep fill Head.isOver parts = swept at hfilled ⊢
  obtain ⟨_ | head, filled⟩ := swept
  · simp only
    cases greatest (filled.filterMap headShard?) with
    | none => exact hfilled
    | some shard =>
      have hsought := hR.forall₂_trans hfilled
        (hR.sweep (hR.seek hfill shard) Head.isOver filled)
      simp only
      generalize Stream.sweep (Stream.seek fill shard) Head.isOver filled = swept at hsought ⊢
      obtain ⟨_ | head, sought⟩ := swept
      · simp only
        split
        · have hpopped := hR.forall₂_trans hsought (forall₂_map hR.of_pop sought)
          split <;> exact hpopped
        · exact hsought
      · exact hsought
  · exact hfilled

theorem joinRound (node : Option NodeId) (parts : List Stream) :
    List.Forall₂ R parts (joinRound fill node parts).parts := by
  have hfilled := hR.sweep hfill Head.isFailure parts
  unfold Stream.joinRound
  generalize Stream.sweep fill Head.isFailure parts = swept at hfilled ⊢
  obtain ⟨_ | head, filled⟩ := swept
  · simp only
    cases least (filled.filterMap headShard?) with
    | none => exact hfilled
    | some shard =>
      have hleft : ∀ s, R s (if (s.setAt? shard).isSome then s.pop else s) := by
        intro s
        split
        · exact hR.of_pop s
        · exact hR.refl s
      have hpassed := hR.forall₂_trans hfilled (forall₂_map hleft filled)
      simp only
      split <;> exact hpassed
  · exact hfilled

end Rounds

/-- If each round respects the relation part by part, so does the way to the next entry. -/
theorem settle {round : List Stream → Round}
    (hround : ∀ parts, List.Forall₂ R parts (round parts).parts) (parts : List Stream) :
    List.Forall₂ R parts (settle round parts).2 := by
  unfold Stream.settle
  generalize heldAll parts + 1 = n
  induction n generalizing parts with
  | zero => exact hR.forall₂_refl parts
  | succ n ih =>
    have hparts := hround parts
    simp only [settleWithin]
    generalize round parts = outcome at hparts ⊢
    cases outcome with
    | settled head parts' => exact hparts
    | again parts' => exact hR.forall₂_trans hparts (ih parts')

/-! ## Filling and calls -/

theorem fillAt (h : Nat) (s : Stream) : R s (fillAt h s) := by
  induction h generalizing s with
  | zero => exact hR.refl s
  | succ h ih =>
    cases s with
    | leaf node context label entries => exact hR.refl _
    | scan node label scanner head =>
      cases head with
      | unread => exact hR.pullScan node label scanner
      | ready e | ended | failed error => exact hR.refl _
    | intersection node context filters deferred head =>
      cases head with
      | unread =>
        rw [fillAt_intersection]
        exact hR.readFilters node context deferred _ _ (hR.settle (hR.meetRound ih node) filters)
      | ready e | ended | failed error => exact hR.refl _
    | union node context prunes sources head =>
      cases head with
      | unread =>
        rw [fillAt_union]
        exact hR.readSources node context prunes _ _ (hR.settle (hR.joinRound ih node) sources)
      | ready e | ended | failed error => exact hR.refl _
    | ancestor delegate parent slot => exact hR.readDelegate parent (ih delegate)

theorem call (s : Stream) (c : Call) : R s (s.call c).2 := by
  have hfill : R s s.fill := hR.fillAt s.height s
  rcases state_of_call s c with ⟨-, heq⟩ | heq | ⟨-, heq⟩ <;> rw [heq]
  · exact hR.refl s
  · exact hfill
  · exact hR.trans hfill (hR.of_pop _)

/-- A steady relation holds between a stream and what any calls leave of it. -/
theorem run (s : Stream) (calls : List Call) : R s (s.run calls).2 := by
  induction calls generalizing s with
  | nil => exact hR.refl s
  | cons c calls ih => exact hR.trans (hR.call s c) (ih _)

end Steady

end ShardSearch.Stream
