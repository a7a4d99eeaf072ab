import ShardSearch.Proofs.ErrorFree

/-!
# Children reordered and regrouped

Neither the order of the children of a composite that has a node, nor whether some of them are
grouped in a composite of the same kind first, makes a difference to what it answers, but for one
thing: a union credits a uid that several children list as the first of them does
(`rearranged`).  Intersections are compared by what they let through, for that settles their sets;
unions by the sets of their children at a shard.
-/

namespace ShardSearch

/-- The first value found is the same in any order, if there is one place at most to find it. -/
theorem findSome?_perm {α β : Type} {f : α → Option β} {xs ys : List α} (h : xs.Perm ys)
    (hone : xs.Pairwise fun a b => f a = none ∨ f b = none) : xs.findSome? f = ys.findSome? f := by
  induction h with
  | nil => rfl
  | cons a _ ih =>
    rw [List.findSome?_cons, List.findSome?_cons, ih (List.pairwise_cons.1 hone).2]
  | swap a b xs =>
    obtain ⟨hfirst, -⟩ := List.pairwise_cons.1 hone
    rcases hfirst a List.mem_cons_self with hb | ha
    · simp [List.findSome?_cons, hb]
    · simp [List.findSome?_cons, ha]
  | trans hxs _ ihxs ihys =>
    have hmiddle := (hxs.pairwise_iff (fun hab => hab.symm)).1 hone
    rw [ihxs hone, ihys hmiddle]

namespace MatchSet

variable {shard uid : String} {node : Option NodeId} {id : NodeId} {sets sets' : List MatchSet}

/-- Intersections that have the same node are equal if they have the same findings. -/
theorem SameFindings.eq_of_intersect
    (h : SameFindings (intersect shard (some id) sets) (intersect shard (some id) sets')) :
    intersect shard (some id) sets = intersect shard (some id) sets' := by
  have hcontains : ∀ uid, (intersect shard (some id) sets).contains uid =
      (intersect shard (some id) sets').contains uid := by
    intro uid
    cases hinfinite : (intersect shard (some id) sets).infinite with
    | true =>
      rw [contains_intersect_of_infinite hinfinite,
        contains_intersect_of_infinite (h.infinite ▸ hinfinite)]
    | false => exact contains_congr (h.uids hinfinite) uid
  apply ext_credits
  · simp
  · simp
  · exact h.infinite
  · intro uid
    rw [get?_intersect_some, get?_intersect_some, hcontains]

/-- A union may be given the sets of another one instead of that one, whether it is kept or
    not. -/
theorem unite_kept_unite {before after : List MatchSet} :
    unite shard (some id) (before ++ ((unite shard node sets).kept.toList ++ after)) =
      unite shard (some id) (before ++ (sets ++ after)) := by
  apply ext_credits
  · simp
  · simp
  · simp only [infinite_unite, List.any_append, any_infinite_kept]
  · intro uid
    simp only [get?_unite, List.findSome?_append, findSome?_kept]

/-- Two sets that differ in the records of some uids at most. -/
structure SameUpTo (shared : String → Prop) (set set' : MatchSet) : Prop where
  shard : set.shard = set'.shard
  node : set.node = set'.node
  infinite : set.infinite = set'.infinite
  uids : set.uids = set'.uids
  record : ∀ uid, ¬ shared uid → set.get? uid = set'.get? uid

/-- More uids may be left out of account. -/
theorem SameUpTo.mono {shared shared' : String → Prop} {set set' : MatchSet}
    (h : SameUpTo shared set set') (hshared : ∀ uid, shared uid → shared' uid) :
    SameUpTo shared' set set' :=
  { h with record := fun uid hnot => h.record uid fun hs => hnot (hshared uid hs) }

theorem SameUpTo.rel_kept {shared : String → Prop} {set set' : MatchSet}
    (h : SameUpTo shared set set') : Option.Rel (SameUpTo shared) set.kept set'.kept := by
  have hnothing : set.matchesNothing = set'.matchesNothing := by
    rw [matchesNothing, matchesNothing, ← isEmpty_uids, ← isEmpty_uids, h.infinite, h.uids]
  rw [kept, kept, hnothing]
  split
  · exact .none
  · exact .some h

/-- A union of the same sets in another order differs in the records of uids that several of them
    list. -/
theorem sameUpTo_unite (h : sets.Perm sets') :
    SameUpTo (fun uid => ¬ sets.Pairwise fun s t => ¬ (s.contains uid ∧ t.contains uid))
      (unite shard (some id) sets) (unite shard (some id) sets') := by
  refine ⟨by simp, by simp, ?_, SortedMap.keys_ext fun uid => ?_, fun uid hone => ?_⟩
  · rw [Bool.eq_iff_iff, infinite_unite, infinite_unite, List.any_eq_true, List.any_eq_true]
    simp only [h.mem_iff]
  · show (unite shard (some id) sets).contains uid = (unite shard (some id) sets').contains uid
    rw [Bool.eq_iff_iff, contains_unite, contains_unite]
    simp only [h.mem_iff]
  · have hcredit : (unite shard (some id) sets).credits.get? uid =
        (unite shard (some id) sets').credits.get? uid := by
      rw [get?_unite, get?_unite]
      refine findSome?_perm h ((Classical.not_not.1 hone).imp ?_)
      intro s t hnot
      simp only [contains_eq, Option.isSome_iff_ne_none] at hnot
      grind
    rw [get?, get?, hcredit]

end MatchSet

namespace Stream

variable {node : Option NodeId} {n : NodeId} {children children' xs ys zs : List Stream}
  {s s' group : Stream} {x uid : String}

/-- The streams say the same of themselves, where nodes may be put off in another order. -/
structure Reordered (s s' : Stream) : Prop where
  context : s.context = s'.context
  canPrune : s.canPrune = s'.canPrune
  deferredNodes : s.deferredNodes.Perm s'.deferredNodes

/-- Both streams are read to their end without failure, and yield the same entries. -/
def SameEntries (s s' : Stream) : Prop :=
  ∃ entries, s.drain.1 = .ok entries ∧ s'.drain.1 = .ok entries

theorem sameEntries_of_trace (hclean : s'.trace.Clean) (h : s.trace = s'.trace) :
    s.SameEntries s' := by
  refine ⟨_, ?_, drain_of_clean hclean⟩
  rw [← h]
  exact drain_of_clean (h ▸ hclean)

theorem clean_group (hclean : ∀ child ∈ xs ++ ys ++ zs, child.trace.Clean) :
    ∀ child ∈ ys, child.trace.Clean :=
  fun child hchild => hclean child (by simp [hchild])

theorem clean_nested (hclean : ∀ child ∈ xs ++ ys ++ zs, child.trace.Clean)
    (hgroup : group.trace.Clean) : ∀ child ∈ xs ++ group :: zs, child.trace.Clean := by
  simp only [List.mem_append, List.mem_cons] at hclean ⊢
  rintro child (hchild | rfl | hchild)
  · exact hclean child (.inl (.inl hchild))
  · exact hgroup
  · exact hclean child (.inr hchild)

/-! ## Intersections -/

/-- Intersections that have the same node yield the same if they let the same through. -/
theorem LetThroughAlike.trace_eq (h : LetThroughAlike s s')
    (made : intersect (some n) children = .ok s) (made' : intersect (some n) children' = .ok s')
    (hclean : ∀ child ∈ children, child.trace.Clean)
    (hclean' : ∀ child ∈ children', child.trace.Clean) : s.trace = s'.trace := by
  have htidy := tidy_intersect made hclean
  have htidy' := tidy_intersect made' hclean'
  refine htidy.clean.ext htidy'.clean fun x => ?_
  have hrel := h.rel_at? htidy htidy' x
  generalize hset : s.trace.at? x = set, hset' : s'.trace.at? x = set' at hrel ⊢
  cases hrel with
  | none => rfl
  | some hsame =>
    obtain ⟨-, -, rfl⟩ := of_at?_intersect made hclean hset
    obtain ⟨-, -, rfl⟩ := of_at?_intersect made' hclean' hset'
    rw [hsame.eq_of_intersect]

section Permuted

variable (h : children.Perm children')

include h

theorem any_absent_perm :
    children.any (·.context = .absent) = children'.any (·.context = .absent) := by
  rw [Bool.eq_iff_iff, List.any_eq_true, List.any_eq_true]
  simp only [h.mem_iff]

theorem reordered_intersect (made : intersect node children = .ok s)
    (made' : intersect node children' = .ok s') : s.Reordered s' := by
  have hcontext : s.context = s'.context := by
    rw [context_intersect_eq made, context_intersect_eq made', any_absent_perm h, contextOf_perm h]
  refine ⟨hcontext, ?_, ?_⟩
  · rw [Bool.eq_iff_iff, canPrune_intersect_iff made, canPrune_intersect_iff made']
    simp only [h.mem_iff]
  · by_cases habsent : s.context = .absent
    · rw [deferredNodes_of_absent made habsent, deferredNodes_of_absent made' (hcontext ▸ habsent)]
    · have hpresent : ∀ child ∈ children, child.context ≠ .absent := by
        simpa [context_intersect made] using habsent
      rw [deferredNodes_intersect made hpresent,
        deferredNodes_intersect made' fun child hchild => hpresent child (h.mem_iff.2 hchild)]
      exact ((h.filter _).filterMap _).append ((h.filter _).flatMap_right _)

theorem letThroughAlike_perm (hclean : ∀ child ∈ children, child.trace.Clean)
    (made : intersect node children = .ok s) (made' : intersect node children' = .ok s') :
    LetThroughAlike s s' := by
  intro Q hQ x
  have hclean' : ∀ child ∈ children', child.trace.Clean := by simpa only [h.mem_iff] using hclean
  rw [holdsAt_intersect hQ made hclean, holdsAt_intersect hQ made' hclean',
    (reordered_intersect h made made').canPrune]
  simp only [h.mem_iff]

end Permuted

section Nested

variable (grouped : intersect node ys = .ok group)
  (nested : intersect (some n) (xs ++ group :: zs) = .ok s)
  (flat : intersect (some n) (xs ++ ys ++ zs) = .ok s')

include grouped nested flat

theorem context_intersect_nested : s.context = s'.context := by
  have hgroup : decide (group.context = .absent) = ys.any (·.context = .absent) := by
    rw [Bool.eq_iff_iff, decide_eq_true_iff, context_intersect grouped]
    simp
  have hany : (xs ++ group :: zs).any (·.context = .absent) =
      (xs ++ ys ++ zs).any (·.context = .absent) := by
    simp [hgroup]
  rw [context_intersect_eq nested, context_intersect_eq flat, hany]
  split
  · rfl
  · next hpresent =>
    have hys : ¬ ys.any (·.context = .absent) = true := by
      intro hys
      simp [hys] at hpresent
    rw [List.append_assoc, contextOf_append, contextOf_cons, contextOf_append, contextOf_append,
      context_intersect_eq grouped, if_neg hys]

theorem canPrune_intersect_nested : s.canPrune = s'.canPrune := by
  have hgroup := canPrune_intersect_iff grouped
  have habsent := context_intersect grouped
  rw [Bool.eq_iff_iff, canPrune_intersect_iff nested, canPrune_intersect_iff flat]
  simp only [List.mem_append, List.mem_cons]
  grind

theorem letThroughAlike_nested (hclean : ∀ child ∈ xs ++ ys ++ zs, child.trace.Clean) :
    LetThroughAlike s s' := by
  intro Q hQ x
  have hys := clean_group hclean
  have hclean' := clean_nested hclean (clean_intersect grouped hys)
  rw [holdsAt_intersect hQ nested hclean', holdsAt_intersect hQ flat hclean,
    canPrune_intersect_nested grouped nested flat]
  refine and_congr_right fun hprunes => ?_
  -- None of the children is absent, so the group prunes as soon as one of its children does.
  have hpresent := ((canPrune_intersect_iff flat).1 hprunes).1
  have hread : (group.canPrune = true → group.HoldsAt Q x) ↔
      ∀ child ∈ ys, child.canPrune = true → child.HoldsAt Q x := by
    rw [holdsAt_intersect hQ grouped hys]
    refine ⟨fun hgroup child hchild hchildPrunes => ?_, fun hall hgroup => ⟨hgroup, hall⟩⟩
    have hgroupPrunes : group.canPrune = true := by
      refine (canPrune_intersect_iff grouped).2 ⟨fun y hy => ?_, child, hchild, hchildPrunes⟩
      exact hpresent y (by simp [hy])
    exact (hgroup hgroupPrunes).2 child hchild hchildPrunes
  simp only [List.forall_mem_append, List.forall_mem_cons, hread, and_assoc]

theorem trace_intersect_nested (hclean : ∀ child ∈ xs ++ ys ++ zs, child.trace.Clean) :
    s.trace = s'.trace := by
  have hclean' := clean_nested hclean (clean_intersect grouped (clean_group hclean))
  exact (letThroughAlike_nested grouped nested flat hclean).trace_eq nested flat hclean' hclean

end Nested

/-! ## Unions -/

/-- The sets that a union of some children is made of at a shard. -/
def sources (x : String) (children : List Stream) : List MatchSet :=
  (children.filter (·.context ≠ .absent)).filterMap (·.trace.at? x)

theorem at?_unite_eq (made : unite node children = .ok s)
    (hclean : ∀ child ∈ children, child.trace.Clean) :
    s.trace.at? x = (MatchSet.unite x node (sources x children)).kept := by
  rw [at?_unite made hclean, Trace.pooled, List.filterMap_map]
  rfl

theorem sources_append : sources x (xs ++ ys) = sources x xs ++ sources x ys := by
  simp [sources]

/-- The stream lists the uid at the shard. -/
def Lists (s : Stream) (shard uid : String) : Prop :=
  ∃ entries, s.drain.1 = .ok entries ∧ ∃ e ∈ entries, e.shard = shard ∧ e.set.contains uid = true

/-- Several of the streams list the uid at the shard. -/
def SharedAt (children : List Stream) (shard uid : String) : Prop :=
  ∃ child child', [child, child'].Sublist children ∧ child.Lists shard uid ∧
    child'.Lists shard uid

theorem lists_of_at? {set : MatchSet} (hclean : s.trace.Clean) (hset : s.trace.at? x = some set)
    (huid : set.contains uid = true) : s.Lists x uid :=
  ⟨_, drain_of_clean hclean, _, (Trace.at?_eq_some_iff hclean.ascending).1 hset, rfl, huid⟩

theorem pairwise_sources (hclean : ∀ child ∈ children, child.trace.Clean)
    (hone : ¬ SharedAt children x uid) :
    (sources x children).Pairwise fun s t => ¬ (s.contains uid ∧ t.contains uid) := by
  have hchildren : children.Pairwise fun s t => ¬ (s.Lists x uid ∧ t.Lists x uid) :=
    List.pairwise_iff_forall_sublist.2 fun hsub hlists => hone ⟨_, _, hsub, hlists⟩
  refine List.pairwise_filterMap.2 (List.Pairwise.imp_of_mem ?_ (hchildren.filter _))
  intro child child' hchild hchild' hnot set hset set' hset' hcontains
  have hmem := List.mem_of_mem_filter hchild
  have hmem' := List.mem_of_mem_filter hchild'
  exact hnot ⟨lists_of_at? (hclean child hmem) hset hcontains.1,
    lists_of_at? (hclean child' hmem') hset' hcontains.2⟩

theorem reordered_unite (h : children.Perm children') (made : unite node children = .ok s)
    (made' : unite node children' = .ok s') : s.Reordered s' := by
  refine ⟨?_, ?_, ?_⟩
  · rw [context_unite_eq made, context_unite_eq made', contextOf_perm h]
  · rw [Bool.eq_iff_iff, canPrune_unite_iff made, canPrune_unite_iff made']
    simp only [h.mem_iff]
  · rw [deferredNodes_unite made, deferredNodes_unite made']
    exact (h.filter _).flatMap_right _

theorem rel_at?_unite_perm (h : children.Perm children')
    (hclean : ∀ child ∈ children, child.trace.Clean) (made : unite (some n) children = .ok s)
    (made' : unite (some n) children' = .ok s') (x : String) :
    Option.Rel (MatchSet.SameUpTo (SharedAt children x)) (s.trace.at? x) (s'.trace.at? x) := by
  have hclean' : ∀ child ∈ children', child.trace.Clean := by simpa only [h.mem_iff] using hclean
  have hsources : (sources x children).Perm (sources x children') := (h.filter _).filterMap _
  rw [at?_unite_eq made hclean, at?_unite_eq made' hclean']
  refine ((MatchSet.sameUpTo_unite hsources).mono fun uid hshared => ?_).rel_kept
  exact Classical.not_not.1 fun hone => hshared (pairwise_sources hclean hone)

section Nested

variable (grouped : unite node ys = .ok group)

include grouped

theorem filter_present_eq_nil_iff :
    ys.filter (·.context ≠ .absent) = [] ↔ group.context = .absent := by
  rw [context_unite grouped, List.filter_eq_nil_iff]
  simp

/-- A group of children brings in the set of its union at a shard, if that is kept. -/
theorem sources_group (hclean : ∀ child ∈ ys, child.trace.Clean) :
    sources x [group] = (MatchSet.unite x node (sources x ys)).kept.toList := by
  by_cases habsent : group.context = .absent
  · have hnil : sources x ys = [] := by
      rw [sources, (filter_present_eq_nil_iff grouped).2 habsent, List.filterMap_nil]
    rw [hnil, sources, List.filter_cons_of_neg (by simp [habsent])]
    rfl
  · rw [← at?_unite_eq grouped hclean, sources, List.filter_cons_of_pos (by simp [habsent])]
    cases hset : group.trace.at? x <;> simp [hset]

variable (nested : unite (some n) (xs ++ group :: zs) = .ok s)
  (flat : unite (some n) (xs ++ ys ++ zs) = .ok s')

include nested flat

theorem context_unite_nested : s.context = s'.context := by
  rw [context_unite_eq nested, context_unite_eq flat, List.append_assoc, contextOf_append,
    contextOf_cons, contextOf_append, contextOf_append, context_unite_eq grouped]

theorem canPrune_unite_nested : s.canPrune = s'.canPrune := by
  have hgroup := canPrune_unite_iff grouped
  have habsent := context_unite grouped
  rw [Bool.eq_iff_iff, canPrune_unite_iff nested, canPrune_unite_iff flat]
  simp only [List.mem_append, List.mem_cons]
  grind

theorem deferredNodes_unite_nested : s.deferredNodes = s'.deferredNodes := by
  have hgroup : ([group].filter (·.context ≠ .absent)).flatMap deferredNodes =
      (ys.filter (·.context ≠ .absent)).flatMap deferredNodes := by
    by_cases habsent : group.context = .absent
    · rw [(filter_present_eq_nil_iff grouped).2 habsent]
      simp [habsent]
    · rw [← deferredNodes_unite grouped]
      simp [habsent]
  rw [deferredNodes_unite nested, deferredNodes_unite flat, ← List.singleton_append]
  simp only [List.filter_append, List.flatMap_append, hgroup, List.append_assoc]

theorem trace_unite_nested (hclean : ∀ child ∈ xs ++ ys ++ zs, child.trace.Clean) :
    s.trace = s'.trace := by
  have hys := clean_group hclean
  have hclean' := clean_nested hclean (clean_unite grouped hys)
  refine (clean_unite nested hclean').ext (clean_unite flat hclean) fun x => ?_
  rw [at?_unite_eq nested hclean', at?_unite_eq flat hclean, ← List.singleton_append,
    sources_append, sources_append, sources_group grouped hys, List.append_assoc, sources_append,
    sources_append, MatchSet.unite_kept_unite]

end Nested

/-- Composites that have a node, over children that are read to their end without failure.

    The children may come in any order: the composites say the same of themselves, except that
    nodes may be put off in another order.  The intersection yields the same entries, the union the
    same but for the records of uids that several children list.

    Two or more neighbours that are not all children may be grouped in a composite of the same kind,
    whatever its node: the intersection and the union have the same context and the same pruning and
    yield the same entries, and the union puts off the same nodes. -/
theorem rearranged {n : NodeId} {children : List Stream} {both all : Stream}
    (herrorFree : ∀ child ∈ children, child.ErrorFree)
    (hboth : intersect (some n) children = .ok both) (hall : unite (some n) children = .ok all) :
    (∀ children', children.Perm children' →
      (∃ s, intersect (some n) children' = .ok s ∧ both.Reordered s ∧ both.SameEntries s) ∧
      ∃ s, unite (some n) children' = .ok s ∧ all.Reordered s ∧
        ∃ entries entries', all.drain.1 = .ok entries ∧ s.drain.1 = .ok entries' ∧
          List.Forall₂ (Entry.Related fun shard => MatchSet.SameUpTo (SharedAt children shard))
            entries entries') ∧
    ∀ xs ys zs, children = xs ++ ys ++ zs → 2 ≤ ys.length → xs ++ zs ≠ [] → ∀ m : Option NodeId,
      (∃ group s, intersect m ys = .ok group ∧ intersect (some n) (xs ++ group :: zs) = .ok s ∧
        s.context = both.context ∧ s.canPrune = both.canPrune ∧ s.SameEntries both) ∧
      ∃ group s, unite m ys = .ok group ∧ unite (some n) (xs ++ group :: zs) = .ok s ∧
        s.context = all.context ∧ s.canPrune = all.canPrune ∧
        s.deferredNodes = all.deferredNodes ∧ s.SameEntries all := by
  have hclean : ∀ child ∈ children, child.trace.Clean := fun child hchild =>
    (herrorFree child hchild).clean
  have hbothClean := clean_intersect hboth hclean
  have hallClean := clean_unite hall hclean
  constructor
  · intro children' hperm
    have hlen : 2 ≤ children'.length := hperm.length_eq ▸ (intersect_cases hboth).1
    have hclean' : ∀ child ∈ children', child.trace.Clean := by
      simpa only [hperm.mem_iff] using hclean
    obtain ⟨both', hboth'⟩ := intersect_isOk (some n) hlen
    obtain ⟨all', hall'⟩ := unite_isOk (some n) hlen
    have hallClean' := clean_unite hall' hclean'
    have htrace := (letThroughAlike_perm hperm hclean hboth hboth').trace_eq hboth hboth' hclean
      hclean'
    have hentries := Trace.forall₂_entries hallClean.ascending hallClean'.ascending
      (rel_at?_unite_perm hperm hclean hall hall')
    exact ⟨⟨both', hboth', reordered_intersect hperm hboth hboth',
        sameEntries_of_trace (clean_intersect hboth' hclean') htrace⟩,
      all', hall', reordered_unite hperm hall hall', _, _, drain_of_clean hallClean,
      drain_of_clean hallClean', hentries⟩
  · rintro xs ys zs rfl hys hrest m
    have hlen : ∀ group, 2 ≤ (xs ++ group :: zs).length := by
      intro group
      have hpos := List.length_pos_iff.2 hrest
      simp only [List.length_append, List.length_cons] at hpos ⊢
      omega
    constructor
    · obtain ⟨group, hgroup⟩ := intersect_isOk m hys
      obtain ⟨s, hs⟩ := intersect_isOk (some n) (hlen group)
      exact ⟨group, s, hgroup, hs, context_intersect_nested hgroup hs hboth,
        canPrune_intersect_nested hgroup hs hboth,
        sameEntries_of_trace hbothClean (trace_intersect_nested hgroup hs hboth hclean)⟩
    · obtain ⟨group, hgroup⟩ := unite_isOk m hys
      obtain ⟨s, hs⟩ := unite_isOk (some n) (hlen group)
      exact ⟨group, s, hgroup, hs, context_unite_nested hgroup hs hall,
        canPrune_unite_nested hgroup hs hall, deferredNodes_unite_nested hgroup hs hall,
        sameEntries_of_trace hallClean (trace_unite_nested hgroup hs hall hclean)⟩

theorem rearranged_sample :
    ∃ both all entries, intersect (some ⟨4⟩)
        [sampleBroad, sampleNarrow, delayed (some ⟨3⟩)] = .ok both ∧
      unite (some ⟨4⟩) [sampleBroad, sampleNarrow, delayed (some ⟨3⟩)] = .ok all ∧
      all.drain.1 = .ok entries ∧ entries.map (·.shard) = ["20240101_0", "20240102_0"] ∧
      (∃ s, intersect (some ⟨4⟩) [sampleNarrow, sampleBroad, delayed (some ⟨3⟩)] = .ok s ∧
        both.Reordered s ∧ both.SameEntries s) ∧
      ∃ group s, unite none [sampleNarrow, delayed (some ⟨3⟩)] = .ok group ∧
        unite (some ⟨4⟩) [sampleBroad, group] = .ok s ∧ s.SameEntries all := by
  have herrorFree : ∀ child ∈ [sampleBroad, sampleNarrow, delayed (some ⟨3⟩)],
      child.ErrorFree := by
    simp [errorFree_sampleBroad, errorFree_sampleNarrow, errorFree_delayed]
  obtain ⟨both, hboth⟩ : ∃ s, intersect (some ⟨4⟩)
      [sampleBroad, sampleNarrow, delayed (some ⟨3⟩)] = .ok s := intersect_isOk _ (by decide)
  obtain ⟨all, hall⟩ : ∃ s, unite (some ⟨4⟩)
      [sampleBroad, sampleNarrow, delayed (some ⟨3⟩)] = .ok s := unite_isOk _ (by decide)
  obtain ⟨hreordered, hgrouped⟩ := rearranged herrorFree hboth hall
  obtain ⟨hswapped, -⟩ := hreordered [sampleNarrow, sampleBroad, delayed (some ⟨3⟩)]
    (List.Perm.swap sampleNarrow sampleBroad _)
  obtain ⟨-, group, s, hgroup, hs, -, -, -, hsame⟩ := hgrouped [sampleBroad]
    [sampleNarrow, delayed (some ⟨3⟩)] [] rfl (Nat.le_refl 2) (List.cons_ne_nil _ _) none
  obtain ⟨entries, hentries⟩ : ∃ entries, all.drain.1 = .ok entries := by
    obtain ⟨entries, -, hentries⟩ := hsame
    exact ⟨entries, hentries⟩
  have hshards : entries.map (·.shard) = ["20240101_0", "20240102_0"] := by
    cases hall
    cases hentries
    rfl
  exact ⟨both, all, entries, hboth, hall, hentries, hshards, hswapped, group, s, hgroup, hs, hsame⟩

end Stream

end ShardSearch
