import ShardSearch.Proofs.Comparing

/-!
# Traces that go on where others fail

Where a trace fails, another one may go on.  That is all in which a composite of the ones differs
from a composite of the others: up to the failure it yields the same entries, since whatever it
yields has been found in all of its parts first (`respected_extends`).
-/

namespace ShardSearch.Trace

/-- `t'` is `t`, or begins with the entries of `t` and goes on where `t` fails. -/
def Extends (t t' : Trace) : Prop := t = t' ∨ t.fault.isSome ∧ t.entries <+: t'.entries

variable {t t' : Trace} {parts parts' : List Trace}

theorem Extends.refl (t : Trace) : t.Extends t := .inl rfl

/-- A trace that fails at once is extended by every other one. -/
theorem extends_stop (error : Error) (t : Trace) : (stop (some error)).Extends t :=
  .inr ⟨rfl, List.nil_prefix⟩

theorem Extends.eq_of_sound (h : t.Extends t') (hsound : t.fault = none) : t = t' := by
  rcases h with h | ⟨hfault, -⟩
  · exact h
  · rw [hsound] at hfault
    cases hfault

theorem Extends.after (h : t.Extends t') (entry : Option Entry) :
    (t.after entry).Extends (t'.after entry) := by
  rcases h with rfl | ⟨hfault, hentries⟩
  · exact .refl _
  · exact .inr ⟨hfault, (List.prefix_append_right_inj _).2 hentries⟩

theorem tail_prefix {α : Type} {xs ys : List α} (h : xs <+: ys) : xs.tail <+: ys.tail := by
  cases xs with
  | nil => exact List.nil_prefix
  | cons x xs =>
    obtain ⟨ys, rfl, hxs⟩ := List.cons_prefix_iff.1 h
    exact hxs

theorem Extends.tail (h : t.Extends t') : t.tail.Extends t'.tail := by
  rcases h with rfl | ⟨hfault, hentries⟩
  · exact .refl _
  · exact .inr ⟨hfault, tail_prefix hentries⟩

theorem Extends.mapSets (h : t.Extends t') (f : MatchSet → MatchSet) :
    (t.mapSets f).Extends (t'.mapSets f) := by
  rcases h with rfl | ⟨hfault, hentries⟩
  · exact .refl _
  · exact .inr ⟨hfault, hentries.map _⟩

theorem dropWhile_prefix {α : Type} {xs ys : List α} (h : xs <+: ys) (p : α → Bool) :
    xs.dropWhile p <+: ys.dropWhile p := by
  induction xs generalizing ys with
  | nil => exact List.nil_prefix
  | cons x xs ih =>
    obtain ⟨ys', rfl, hxs⟩ := List.cons_prefix_iff.1 h
    rw [List.dropWhile_cons, List.dropWhile_cons]
    split
    · exact ih hxs
    · exact h

theorem Extends.seek (h : t.Extends t') (shard : String) :
    (t.seek shard).Extends (t'.seek shard) := by
  rcases h with rfl | ⟨hfault, hentries⟩
  · exact .refl _
  · exact .inr ⟨hfault, dropWhile_prefix hentries _⟩

/-- As long as a trace does not fail at once, what goes on instead begins with the same entry, or
    has ended as well. -/
theorem Extends.head_eq (h : t.Extends t') (hhead : t.head.isFailure = false) :
    t.head = t'.head := by
  rcases h with rfl | ⟨hfault, hentries⟩
  · rfl
  · obtain ⟨_ | ⟨e, es⟩, fault⟩ := t
    · rw [Option.isSome_iff_exists] at hfault
      obtain ⟨error, rfl⟩ := hfault
      cases hhead
    · obtain ⟨es', hes', -⟩ := List.cons_prefix_iff.1 hentries
      obtain ⟨entries', fault'⟩ := t'
      cases hes'
      rfl

theorem setAt?_congr (h : t.head = t'.head) (shard : String) :
    t.setAt? shard = t'.setAt? shard := by
  rw [setAt?, setAt?, h]

theorem headShard?_congr (h : t.head = t'.head) : t.headShard? = t'.headShard? := by
  rw [headShard?, headShard?, h]

theorem Extends.leave (h : t.Extends t') (hhead : t.head = t'.head) (shard : String) :
    (t.leave shard).Extends (t'.leave shard) := by
  rw [Trace.leave, Trace.leave, ← setAt?_congr hhead]
  split
  · exact h.tail
  · exact h

/-! ## Rounds -/

/-- Traces that extend others, one by one, without any of these failing at once. -/
abbrev InStep (parts parts' : List Trace) : Prop :=
  List.Forall₂ (fun t t' => t.Extends t' ∧ t.head = t'.head) parts parts'

/-- The ways the search for a trace whose head satisfies `stop` goes, in some traces and in others
    that extend them. -/
inductive FindCase (parts parts' : List Trace) : Option Trace → Option Trace → Prop where
  /-- It is a failure that is found. -/
  | failed {t : Trace} {error : Error} (found' : Option Trace) (fault : t.fault = some error) :
      FindCase parts parts' (some t) found'
  /-- The same ended trace is found on both sides. -/
  | ended (t : Trace) (sound : t.fault = none) : FindCase parts parts' (some t) (some t)
  /-- None is found on either side. -/
  | unmet (inStep : InStep parts parts') : FindCase parts parts' none none

theorem find_cases {stop : Head → Bool}
    (hfailure : ∀ head, head.isFailure = true → stop head = true)
    (hover : ∀ head, stop head = true → head.isOver = true)
    (h : List.Forall₂ Extends parts parts') :
    FindCase parts parts' (parts.find? (stop ·.head)) (parts'.find? (stop ·.head)) := by
  induction h with
  | nil => exact .unmet .nil
  | @cons t t' rest rest' hhead hrest ih =>
    rw [List.find?_cons, List.find?_cons]
    cases hfail : t.head.isFailure with
    | true =>
      obtain ⟨error, herror⟩ := Option.isSome_iff_exists.1 (isFailure_head.1 hfail).2
      rw [hfailure _ hfail]
      exact .failed _ herror
    | false =>
      have heq := hhead.head_eq hfail
      rw [← heq]
      cases hstop : stop t.head with
      | true =>
        -- an ended trace does not fail, so only the trace itself extends it
        have hempty := isOver_head.1 (hover _ hstop)
        have hsound : t.fault = none := by
          rw [← Option.not_isSome_iff_eq_none]
          intro hfault
          rw [isFailure_head.2 ⟨hempty, hfault⟩] at hfail
          cases hfail
        obtain rfl := hhead.eq_of_sound hsound
        exact .ended t hsound
      | false =>
        generalize rest.find? (stop ·.head) = found at ih
        generalize rest'.find? (stop ·.head) = found' at ih
        cases ih with
        | failed found' fault => exact .failed found' fault
        | ended t sound => exact .ended t sound
        | unmet inStep => exact .unmet (.cons ⟨hhead, heq⟩ inStep)

/-- A round of traces fails, or comes to what a round of the traces that extend them comes to. -/
inductive MoveExtends : Move → Move → Prop where
  | failed (error : Error) (move : Move) : MoveExtends (.stop (some error)) move
  | ended : MoveExtends (.stop none) (.stop none)
  | pass (entry : Option Entry) {rest rest' : List Trace}
      (related : List.Forall₂ Extends rest rest') :
      MoveExtends (.pass entry rest) (.pass entry rest')

theorem moveExtends_find {found found' : Option Trace} {move move' : Move}
    (hunmet : InStep parts parts' → MoveExtends move move') :
    FindCase parts parts' found found' →
      MoveExtends
        (match found with
          | some t => .stop t.fault
          | none => move)
        (match found' with
          | some t => .stop t.fault
          | none => move') := by
  intro h
  cases h with
  | @failed t error found' fault =>
    simp only [fault]
    exact .failed error _
  | ended t sound =>
    simp only [sound]
    exact .ended
  | unmet hstep => exact hunmet hstep

theorem consume_extends (node : Option NodeId) (shard : String)
    (h : List.Forall₂ Extends parts parts') :
    MoveExtends (consume node shard parts) (consume node shard parts') := by
  refine moveExtends_find ?_ (find_cases (fun _ => Head.isOver_of_isFailure) (fun _ h => h) h)
  intro hstep
  have hall : parts.all (fun t => (t.setAt? shard).isSome) =
      parts'.all (fun t => (t.setAt? shard).isSome) :=
    hstep.all_congr fun _ _ ht => by rw [setAt?_congr ht.2]
  have hsets : parts.filterMap (setAt? shard) = parts'.filterMap (setAt? shard) :=
    hstep.filterMap_congr fun _ _ ht => setAt?_congr ht.2 shard
  rw [hall, hsets]
  split
  · exact .pass _ (List.rel_map (fun _ _ ht => ht.tail) h)
  · exact .pass _ h

/-- A round of an intersection whose parts are extended is extended. -/
theorem meetMove_extends (node : Option NodeId) (h : List.Forall₂ Extends parts parts') :
    MoveExtends (meetMove node parts) (meetMove node parts') := by
  refine moveExtends_find ?_ (find_cases (fun _ => Head.isOver_of_isFailure) (fun _ h => h) h)
  intro hstep
  have hshards : parts.filterMap headShard? = parts'.filterMap headShard? :=
    hstep.filterMap_congr fun _ _ ht => headShard?_congr ht.2
  rw [hshards]
  cases Stream.greatest (parts'.filterMap headShard?) with
  | none => exact .ended
  | some shard => exact consume_extends node shard (List.rel_map (fun _ _ ht => ht.seek shard) h)

/-- A round of a union whose parts are extended is extended. -/
theorem joinMove_extends (node : Option NodeId) (h : List.Forall₂ Extends parts parts') :
    MoveExtends (joinMove node parts) (joinMove node parts') := by
  refine moveExtends_find ?_ (find_cases (fun _ h => h) (fun _ => Head.isOver_of_isFailure) h)
  intro hstep
  have hshards : parts.filterMap headShard? = parts'.filterMap headShard? :=
    hstep.filterMap_congr fun _ _ ht => headShard?_congr ht.2
  rw [hshards]
  cases Stream.least (parts'.filterMap headShard?) with
  | none => exact .ended
  | some shard =>
    have hsets : parts.filterMap (setAt? shard) = parts'.filterMap (setAt? shard) :=
      hstep.filterMap_congr fun _ _ ht => setAt?_congr ht.2 shard
    simp only [hsets]
    exact .pass _ (List.rel_map (fun _ _ ht => ht.1.leave ht.2 shard) hstep)

/-! ## All rounds -/

/-- If each round is extended, so is the trace of all rounds. -/
theorem extends_unroll {move : List Trace → Move} (hmove : Shrinks move)
    (hround : ∀ parts parts', List.Forall₂ Extends parts parts' →
      MoveExtends (move parts) (move parts'))
    (h : List.Forall₂ Extends parts parts') : (unroll move parts).Extends (unroll move parts') := by
  induction parts using (measure total).wf.induction generalizing parts' with
  | _ parts ih =>
    -- the induction is on the entries left in `parts`, whatever is left in `parts'`
    have hlt := hmove parts
    have hext := hround parts parts' h
    rw [unroll_eq hmove, unroll_eq hmove]
    generalize move parts = outcome at hlt hext
    generalize move parts' = outcome' at hext
    cases hext with
    | failed error => exact extends_stop error _
    | ended => exact .refl _
    | pass entry related => exact (ih _ (hlt _ _ rfl) related).after entry

theorem respected_extends : Respected Extends :=
  ⟨fun node _ _ => extends_unroll (shrinks_meetMove node) fun _ _ => meetMove_extends node,
    fun node _ _ => extends_unroll (shrinks_joinMove node) fun _ _ => joinMove_extends node⟩

/-! ## Faults of a union -/

/-- A union ends without failure exactly if all of its parts do. -/
theorem fault_join (node : Option NodeId) (parts : List Trace) :
    (join node parts).fault = none ↔ ∀ t ∈ parts, t.fault = none := by
  induction parts using (measure total).wf.induction with
  | _ parts ih =>
    have hlt := shrinks_joinMove node parts
    have hcase := joinCase_joinMove node parts
    rw [join_eq]
    generalize joinMove node parts = outcome at hlt hcase
    cases hcase with
    | failed t mem error empty fault =>
      refine ⟨nofun, fun hsound => ?_⟩
      rw [hsound t mem] at fault
      cases fault
    | ended empty =>
      refine ⟨fun _ t ht => ?_, fun _ => rfl⟩
      rw [empty t ht]
      rfl
    | consumed shard held bound sound =>
      have hrest := ih _ (hlt _ _ rfl)
      simp only [List.forall_mem_map, fault_leave] at hrest
      exact hrest

end ShardSearch.Trace
