import ShardSearch.Proofs.ErrorFree

/-!
# Intersections of unions

Intersecting a stream with a union of two others, and uniting its intersections with each of them,
come to the same (`intersect_unite_distrib`).  The two are read in different orders, and make
different sets on the way that may be skipped or may carry a sample; but shard by shard and uid by
uid the same is let through.
-/

namespace ShardSearch.Stream

/-! ## Composites of two -/

section Two

variable {node : Option NodeId} {a b s : Stream} {Q : MatchSet → Prop} {x : String}

theorem present_intersect_two (h : intersect node [a, b] = .ok s) :
    s.context ≠ .absent ↔ a.context ≠ .absent ∧ b.context ≠ .absent := by
  simp [context_intersect h]

theorem present_unite_two (h : unite node [a, b] = .ok s) :
    s.context ≠ .absent ↔ a.context ≠ .absent ∨ b.context ≠ .absent := by
  simp [context_unite h, imp_iff_not_or]

theorem canPrune_intersect_two (h : intersect node [a, b] = .ok s) :
    s.canPrune = true ↔
      (a.context ≠ .absent ∧ b.context ≠ .absent) ∧ (a.canPrune = true ∨ b.canPrune = true) := by
  simp [canPrune_intersect_iff h]

theorem canPrune_unite_two (h : unite node [a, b] = .ok s) :
    s.canPrune = true ↔
      (a.context ≠ .absent ∨ b.context ≠ .absent) ∧
        (a.context ≠ .absent → a.canPrune = true) ∧ (b.context ≠ .absent → b.canPrune = true) := by
  simp [canPrune_unite_iff h]

theorem holdsAt_intersect_two (hQ : MatchSet.Setwise Q) (h : intersect node [a, b] = .ok s)
    (ha : a.trace.Clean) (hb : b.trace.Clean) :
    s.HoldsAt Q x ↔
      s.canPrune = true ∧
        (a.canPrune = true → a.HoldsAt Q x) ∧ (b.canPrune = true → b.HoldsAt Q x) := by
  simp [holdsAt_intersect hQ h, ha, hb]

theorem holdsAt_unite_two (hQ : MatchSet.Setwise Q) (h : unite node [a, b] = .ok s)
    (ha : a.trace.Clean) (hb : b.trace.Clean) :
    s.HoldsAt Q x ↔
      (a.context ≠ .absent ∧ a.HoldsAt Q x) ∨ (b.context ≠ .absent ∧ b.HoldsAt Q x) := by
  simp [holdsAt_unite hQ h, ha, hb]

end Two

/-! ## Both sides of the law -/

section Distribution

variable {outer inner whole left right : Option NodeId} {a b c u s l r t : Stream}

theorem clean_distrib (hu : unite inner [b, c] = .ok u) (hl : intersect left [a, b] = .ok l)
    (hr : intersect right [a, c] = .ok r) (ha : a.trace.Clean) (hb : b.trace.Clean)
    (hc : c.trace.Clean) : u.trace.Clean ∧ l.trace.Clean ∧ r.trace.Clean :=
  ⟨clean_unite hu (by simp [hb, hc]), clean_intersect hl (by simp [ha, hb]),
    clean_intersect hr (by simp [ha, hc])⟩

variable (hu : unite inner [b, c] = .ok u) (hs : intersect outer [a, u] = .ok s)
  (hl : intersect left [a, b] = .ok l) (hr : intersect right [a, c] = .ok r)
  (ht : unite whole [l, r] = .ok t)

include hu hs hl hr ht

theorem context_distrib : s.context = t.context := by
  rw [context_intersect_eq hs, context_unite_eq ht]
  simp only [contextOf_cons, contextOf_nil, List.any_cons, List.any_nil, Bool.or_false,
    context_unite_eq hu, context_intersect_eq hl, context_intersect_eq hr]
  cases a.context <;> cases b.context <;> cases c.context <;> rfl

theorem canPrune_distrib : s.canPrune = t.canPrune := by
  rw [Bool.eq_iff_iff, canPrune_intersect_two hs, canPrune_unite_two hu, present_unite_two hu,
    canPrune_unite_two ht, canPrune_intersect_two hl, canPrune_intersect_two hr,
    present_intersect_two hl, present_intersect_two hr]
  grind

theorem letThroughAlike_distrib (ha : a.trace.Clean) (hb : b.trace.Clean) (hc : c.trace.Clean)
    (hprunes : s.canPrune = true) : LetThroughAlike s t := by
  intro Q hQ x
  obtain ⟨huclean, hlclean, hrclean⟩ := clean_distrib hu hl hr ha hb hc
  have hpresent := (canPrune_intersect_two hs).1 hprunes
  rw [present_unite_two hu, canPrune_unite_two hu] at hpresent
  rw [holdsAt_intersect_two hQ hs ha huclean, holdsAt_unite_two hQ hu hb hc,
    canPrune_unite_two hu, holdsAt_unite_two hQ ht hlclean hrclean,
    holdsAt_intersect_two hQ hl ha hb, holdsAt_intersect_two hQ hr ha hc,
    present_intersect_two hl, present_intersect_two hr, canPrune_intersect_two hl,
    canPrune_intersect_two hr]
  -- A union that cannot prune has a part that cannot, and `a` meets that part in `a` alone.
  grind

end Distribution

/-- Intersecting a stream with a union of two, or uniting its intersections with both: all of
    these can be made, for whatever nodes, and the two streams have the same context and the same
    pruning.  If they prune, they are read to their end without failure and yield the same shards,
    each of them infinite in both or in neither, and with the same uids where it is not. -/
theorem intersect_unite_distrib {a b c : Stream} (ha : a.ErrorFree) (hb : b.ErrorFree)
    (hc : c.ErrorFree) (outer inner whole left right : Option NodeId) :
    ∃ u s l r t,
      unite inner [b, c] = .ok u ∧ intersect outer [a, u] = .ok s ∧
      intersect left [a, b] = .ok l ∧ intersect right [a, c] = .ok r ∧
      unite whole [l, r] = .ok t ∧
      s.context = t.context ∧ s.canPrune = t.canPrune ∧
      (s.canPrune = true → ∃ entries entries', s.drain.1 = .ok entries ∧ t.drain.1 = .ok entries' ∧
        List.Forall₂ (Entry.Related fun _ => MatchSet.SameFindings) entries entries') := by
  have htwo : ∀ first second : Stream, 2 ≤ [first, second].length := fun _ _ => Nat.le_refl 2
  obtain ⟨u, hu⟩ := unite_isOk inner (htwo b c)
  obtain ⟨s, hs⟩ := intersect_isOk outer (htwo a u)
  obtain ⟨l, hl⟩ := intersect_isOk left (htwo a b)
  obtain ⟨r, hr⟩ := intersect_isOk right (htwo a c)
  obtain ⟨t, ht⟩ := unite_isOk whole (htwo l r)
  refine ⟨u, s, l, r, t, hu, hs, hl, hr, ht, context_distrib hu hs hl hr ht,
    canPrune_distrib hu hs hl hr ht, fun hprunes => ?_⟩
  obtain ⟨huclean, hlclean, hrclean⟩ := clean_distrib hu hl hr ha.clean hb.clean hc.clean
  have hstidy : s.Tidy := tidy_intersect hs (by simp [ha.clean, huclean])
  have httidy : t.Tidy := tidy_unite ht (by simp [hlclean, hrclean])
  have halike := letThroughAlike_distrib hu hs hl hr ht ha.clean hb.clean hc.clean hprunes
  exact ⟨_, _, drain_of_clean hstidy.clean, drain_of_clean httidy.clean,
    halike.forall₂_entries hstidy httidy⟩

theorem intersect_unite_distrib_sample :
    ∃ u s l r t entries entries',
      unite (some ⟨4⟩) [sampleNarrow, delayed (some ⟨3⟩)] = .ok u ∧
      intersect none [sampleBroad, u] = .ok s ∧
      intersect (some ⟨5⟩) [sampleBroad, sampleNarrow] = .ok l ∧
      intersect (some ⟨6⟩) [sampleBroad, delayed (some ⟨3⟩)] = .ok r ∧
      unite none [l, r] = .ok t ∧ s.canPrune = true ∧ s.drain.1 = .ok entries ∧
      t.drain.1 = .ok entries' ∧ entries.map (·.shard) = ["20240101_0", "20240102_0"] ∧
      List.Forall₂ (Entry.Related fun _ => MatchSet.SameFindings) entries entries' := by
  obtain ⟨u, s, l, r, t, hu, hs, hl, hr, ht, -, -, hdrain⟩ :=
    intersect_unite_distrib errorFree_sampleBroad errorFree_sampleNarrow
      (errorFree_delayed (some ⟨3⟩)) none (some ⟨4⟩) none (some ⟨5⟩) (some ⟨6⟩)
  have hprunes : s.canPrune = true := by
    rw [canPrune_intersect_two hs, present_unite_two hu]
    exact ⟨⟨by decide, .inl (by decide)⟩, .inl rfl⟩
  obtain ⟨entries, entries', hentries, hentries', hsame⟩ := hdrain hprunes
  have hshards : entries.map (·.shard) = ["20240101_0", "20240102_0"] := by
    cases hu
    cases hs
    cases hentries
    rfl
  exact ⟨u, s, l, r, t, entries, entries', hu, hs, hl, hr, ht, hprunes, hentries, hentries',
    hshards, hsame⟩

end ShardSearch.Stream
