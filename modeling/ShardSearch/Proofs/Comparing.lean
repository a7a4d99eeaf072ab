import ShardSearch.Proofs.Composite

/-!
# Streams put together alike

Two streams that are put together in the same way out of leaves that only differ in what they yield
are `Compared`: they say the same of themselves, and their traces are related.  Whatever relation of
traces is respected by the traces of composites is passed up from the leaves (`intersect_alike`,
`unite_alike`).
-/

namespace ShardSearch

/-- Two results are the same error, or values that are related. -/
inductive Alike {α β : Type} (R : α → β → Prop) : Except Error α → Except Error β → Prop where
  | ok {a : α} {b : β} (related : R a b) : Alike R (.ok a) (.ok b)
  | error (e : Error) : Alike R (.error e) (.error e)

theorem Alike.bind {α β γ δ : Type} {R : α → β → Prop} {S : γ → δ → Prop}
    {result : Except Error α} {result' : Except Error β} (h : Alike R result result')
    {f : α → Except Error γ} {g : β → Except Error δ} (hfg : ∀ a b, R a b → Alike S (f a) (g b)) :
    Alike S (result.bind f) (result'.bind g) := by
  cases h with
  | ok related => exact hfg _ _ related
  | error e => exact .error e

theorem Alike.map {α β γ δ : Type} {R : α → β → Prop} {S : γ → δ → Prop}
    {result : Except Error α} {result' : Except Error β} (h : Alike R result result')
    {f : α → γ} {g : β → δ} (hfg : ∀ a b, R a b → S (f a) (g b)) :
    Alike S (result.map f) (result'.map g) := by
  cases h with
  | ok related => exact .ok (hfg _ _ related)
  | error e => exact .error e

/-- The relation passes from the traces of parts to those of composites. -/
structure Trace.Respected (Q : Trace → Trace → Prop) : Prop where
  meet : ∀ node parts parts', List.Forall₂ Q parts parts' →
    Q (Trace.meet node parts) (Trace.meet node parts')
  join : ∀ node parts parts', List.Forall₂ Q parts parts' →
    Q (Trace.join node parts) (Trace.join node parts')

theorem Trace.Respected.stop {Q : Trace → Trace → Prop} (hQ : Trace.Respected Q) :
    Q (.stop none) (.stop none) :=
  hQ.meet none [] [] .nil

namespace Stream

/-- Two streams that say the same of themselves, and whose traces are related. -/
structure Compared (Q : Trace → Trace → Prop) (s s' : Stream) : Prop where
  kindName : s.kindName = s'.kindName
  node : s.node = s'.node
  context : s.context = s'.context
  canPrune : s.canPrune = s'.canPrune
  deferredNodes : s.deferredNodes = s'.deferredNodes
  trace : Q s.trace s'.trace

theorem Compared.dropDescendants {Q : Trace → Trace → Prop} {s s' : Stream} (h : Compared Q s s')
    (hmap : ∀ t t', Q t t' → Q (t.mapSets .removeOverlapping) (t'.mapSets .removeOverlapping))
    (parent : Option NodeId) :
    Compared Q (s.dropDescendants parent) (s'.dropDescendants parent) := by
  refine ⟨h.kindName, h.node, h.context, h.canPrune, h.deferredNodes, ?_⟩
  rw [Stream.dropDescendants, Stream.dropDescendants, Stream.trace, Stream.trace]
  exact hmap _ _ h.trace

section Composites

variable {Q : Trace → Trace → Prop} {children children' : List Stream}
  (hQ : Trace.Respected Q) (h : List.Forall₂ (Compared Q) children children')

include h

theorem contextOf_congr : contextOf children = contextOf children' := by
  rw [contextOf, contextOf, h.map_congr fun _ _ hs => hs.context]

include hQ

/-- Intersections of compared children are compared. -/
theorem intersect_alike (node : Option NodeId) :
    Alike (Compared Q) (intersect node children) (intersect node children') := by
  have habsent : children.any (·.context = .absent) = children'.any (·.context = .absent) :=
    h.any_congr fun _ _ hs => by rw [hs.context]
  have hfilters : List.Forall₂ (Compared Q) (children.filter Stream.canPrune)
      (children'.filter Stream.canPrune) := h.filter_congr fun _ _ hs => hs.canPrune
  have hdeferred : List.Forall₂ (Compared Q) (children.filter (!·.canPrune))
      (children'.filter (!·.canPrune)) := h.filter_congr fun _ _ hs => by rw [hs.canPrune]
  have hcontext := contextOf_congr (List.rel_append hfilters hdeferred)
  unfold intersect
  rw [← h.length_eq, ← habsent]
  split
  · exact .error _
  · split
    · refine .ok ⟨rfl, rfl, rfl, rfl, ?_, hQ.stop⟩
      simp only [deferredNodes, if_true]
    · refine .ok ⟨rfl, rfl, hcontext, ?_, ?_, ?_⟩
      · rw [canPrune, canPrune, hfilters.isEmpty_congr]
      · simp only [deferredNodes, deferredNodesAll_eq_flatMap, ← hcontext,
          hdeferred.filterMap_congr fun _ _ hs => hs.node,
          hfilters.flatMap_congr fun _ _ hs => hs.deferredNodes]
      · rw [trace_intersection_firstHead, trace_intersection_firstHead]
        exact hQ.meet node _ _ (List.rel_map (fun _ _ hs => hs.trace) hfilters)

/-- Unions of compared children are compared. -/
theorem unite_alike (node : Option NodeId) :
    Alike (Compared Q) (unite node children) (unite node children') := by
  have hsources : List.Forall₂ (Compared Q) (children.filter (·.context ≠ .absent))
      (children'.filter (·.context ≠ .absent)) := h.filter_congr fun _ _ hs => by rw [hs.context]
  unfold unite
  rw [← h.length_eq]
  split
  · exact .error _
  · refine .ok ⟨rfl, rfl, contextOf_congr hsources, ?_, ?_, ?_⟩
    · rw [canPrune, canPrune, hsources.isEmpty_congr,
        hsources.all_congr fun _ _ hs => hs.canPrune]
    · rw [deferredNodes, deferredNodes, deferredNodesAll_eq_flatMap, deferredNodesAll_eq_flatMap,
        hsources.flatMap_congr fun _ _ hs => hs.deferredNodes]
    · rw [trace_union_firstHead, trace_union_firstHead]
      exact hQ.join node _ _ (List.rel_map (fun _ _ hs => hs.trace) hsources)

end Composites

end Stream

end ShardSearch
