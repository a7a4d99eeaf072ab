import ShardSearch.Proofs.Building
import ShardSearch.Proofs.Comparing

/-!
# One query made twice

Two streams made for one tree and one index, but by scans that are asked for different things, are
compared as soon as the traces of the scans are related term by term (`stream_alike`).
-/

namespace ShardSearch

variable {Q : Trace → Trace → Prop} {ix : ShardIndex} {o o' : ScanOptions}

/-- What a scan of a term yields. -/
def ShardIndex.termTrace (ix : ShardIndex) (o : ScanOptions) (id : NodeId) (field value : String) :
    Trace :=
  ⟨(ix.termSets o id field value).map (·.entry), none⟩

/-- The leaves of one term are compared, whatever the scans made before have counted. -/
theorem ShardIndex.leafOf_alike (hstop : Q (.stop none) (.stop none)) (id : NodeId)
    (field value : String)
    (hterm : Q (ix.termTrace o id field value) (ix.termTrace o' id field value))
    {st st' : ShardIndex} (hst : st.uncounted = ix.uncounted)
    (hst' : st'.uncounted = ix.uncounted) :
    Alike (Stream.Compared Q) (leafOf o id field value st).1 (leafOf o' id field value st').1 := by
  obtain ⟨indexed, terms, stats⟩ := ix
  obtain ⟨_, _, counts⟩ := st
  obtain ⟨_, _, counts'⟩ := st'
  cases hst
  cases hst'
  have hsets : (openScan ⟨indexed, terms, counts⟩ field value (some id) o).1.sets =
      termSets ⟨indexed, terms, stats⟩ o id field value := sets_openScan
  have hsets' : (openScan ⟨indexed, terms, counts'⟩ field value (some id) o').1.sets =
      termSets ⟨indexed, terms, stats⟩ o' id field value := sets_openScan
  have hstatus : status ⟨indexed, terms, counts⟩ field value =
      status ⟨indexed, terms, stats⟩ field value := rfl
  have hstatus' : status ⟨indexed, terms, counts'⟩ field value =
      status ⟨indexed, terms, stats⟩ field value := rfl
  simp only [leafOf, hstatus, hstatus', hsets, hsets']
  cases status ⟨indexed, terms, stats⟩ field value with
  | unindexed | missing => exact .ok ⟨rfl, rfl, rfl, rfl, rfl, hstop⟩
  | found =>
    refine .ok ⟨rfl, rfl, rfl, rfl, rfl, ?_⟩
    rw [trace_scanned, trace_scanned]
    exact hterm

namespace Query

variable {t : PredicateTree} {R : Stream → Stream → Prop}

section Lists

variable {make make' : NodeId → ShardIndex → Except Error Stream × ShardIndex}

/-- Streams that are made one by one alike are made alike all together. -/
theorem streamsOf_alike
    (hmake : ∀ id st st', st.uncounted = ix.uncounted → st'.uncounted = ix.uncounted →
      Alike R (make id st).1 (make' id st').1)
    (hkept : ∀ id st, (make id st).2.uncounted = st.uncounted)
    (hkept' : ∀ id st, (make' id st).2.uncounted = st.uncounted) (ids : List NodeId)
    {st st' : ShardIndex} (hst : st.uncounted = ix.uncounted)
    (hst' : st'.uncounted = ix.uncounted) :
    Alike (List.Forall₂ R) (streamsOf make ids st).1 (streamsOf make' ids st').1 := by
  induction ids generalizing st st' with
  | nil => exact .ok .nil
  | cons id ids ih =>
    -- each run counts its own scans, so of its states only what they hold is known
    have hid := hmake id st st' hst hst'
    have hnext := (hkept id st).trans hst
    have hnext' := (hkept' id st').trans hst'
    rw [streamsOf, streamsOf]
    generalize make id st = made at hid hnext
    generalize make' id st' = made' at hid hnext'
    obtain ⟨result, next⟩ := made
    obtain ⟨result', next'⟩ := made'
    cases hid with
    | error e => exact .error e
    | ok hs =>
      have hrest := ih hnext hnext'
      simp only
      generalize (streamsOf make ids next).1 = rest at hrest
      generalize (streamsOf make' ids next').1 = rest' at hrest
      cases hrest with
      | error e => exact .error e
      | ok hss => exact .ok (.cons hs hss)

theorem combine_alike {id : NodeId} {join : List Stream → Except Error Stream}
    (hjoin : ∀ ss ss', List.Forall₂ R ss ss' → Alike R (join ss) (join ss')) {ss ss' : List Stream}
    (h : List.Forall₂ R ss ss') : Alike R (combine id join ss) (combine id join ss') := by
  cases h with
  | nil => exact .error _
  | cons hs hrest =>
    cases hrest with
    | nil => exact .ok hs
    | cons hs' hrest => exact hjoin _ _ (.cons hs (.cons hs' hrest))

end Lists

section Streams

variable (hQ : Trace.Respected Q)
  (hterm : ∀ id field value,
    Q (ix.termTrace o id field value) (ix.termTrace o' id field value))

include hQ hterm

theorem streamWithin_alike (n : Nat) (id : NodeId) {st st' : ShardIndex}
    (hst : st.uncounted = ix.uncounted) (hst' : st'.uncounted = ix.uncounted) :
    Alike (Stream.Compared Q) (streamWithin t (ShardIndex.leafOf o) n id st).1
      (streamWithin t (ShardIndex.leafOf o') n id st').1 := by
  induction n generalizing id st st' with
  | zero => exact .error _
  | succ n ih =>
    have hchildren := fun children => streamsOf_alike (fun id _ _ => ih id)
      (uncounted_streamWithin (t := t) n) (uncounted_streamWithin n) children hst hst'
    rw [streamWithin, streamWithin]
    cases t.node? id with
    | none => exact .error _
    | some node =>
      simp only
      cases node.predicate with
      | term field value =>
        exact ShardIndex.leafOf_alike hQ.stop id field value (hterm id field value) hst hst'
      | and children =>
        exact (hchildren children).bind fun _ _ =>
          combine_alike fun _ _ hss => Stream.intersect_alike hQ hss _
      | or children =>
        exact (hchildren children).bind fun _ _ =>
          combine_alike fun _ _ hss => Stream.unite_alike hQ hss _
      | not child | delayed child => exact .ok ⟨rfl, rfl, rfl, rfl, rfl, hQ.stop⟩

/-- Under settings that are valid and drop no descendants, the streams of one tree are compared,
    whatever each of the scans is asked for. -/
theorem stream_alike {q q' : Query} (htree : q.tree = q'.tree)
    (hvalid : q.config.validate = .ok ()) (hvalid' : q'.config.validate = .ok ())
    (hplain : q.config.ancestorDedup = false) (hplain' : q'.config.ancestorDedup = false) :
    Alike (Stream.Compared Q) (q.stream (ShardIndex.leafOf o) ix).1
      (q'.stream (ShardIndex.leafOf o') ix).1 := by
  obtain ⟨t, c⟩ := q
  obtain ⟨_, c'⟩ := q'
  cases htree
  simp only [stream, streamAt, hvalid, hvalid']
  cases t.root with
  | none => exact .error _
  | some root =>
    have hroot : Alike (Stream.Compared Q) (streamWithin t (ShardIndex.leafOf o) t.size root ix).1
        (streamWithin t (ShardIndex.leafOf o') t.size root ix).1 :=
      streamWithin_alike hQ hterm t.size root rfl rfl
    simp only at hplain hplain' ⊢
    simp only [hplain, hplain', Bool.false_eq_true, if_false]
    generalize (streamWithin t (ShardIndex.leafOf o) t.size root ix).1 = result at hroot ⊢
    generalize (streamWithin t (ShardIndex.leafOf o') t.size root ix).1 = result' at hroot ⊢
    cases hroot with
    | error e => exact .error e
    | ok hs => exact .ok hs

/-- Whatever the settings are, two streams of one query are compared, if the relation of traces is
    kept when descendants are dropped. -/
theorem stream_alike_of_dropped
    (hdropped : ∀ t t', Q t t' → Q (t.mapSets .removeOverlapping) (t'.mapSets .removeOverlapping))
    (q : Query) :
    Alike (Stream.Compared Q) (q.stream (ShardIndex.leafOf o) ix).1
      (q.stream (ShardIndex.leafOf o') ix).1 := by
  obtain ⟨t, c⟩ := q
  simp only [stream, streamAt]
  cases c.validate with
  | error e => exact .error e
  | ok _ =>
    cases t.root with
    | none => exact .error _
    | some root =>
      apply (streamWithin_alike hQ hterm t.size root rfl rfl).map
      intro s s' hs
      cases c.ancestorDedup with
      | false => exact hs
      | true => exact hs.dropDescendants hdropped none

end Streams

end Query

end ShardSearch
