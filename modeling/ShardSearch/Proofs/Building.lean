import Mathlib.Data.List.Forall2
import ShardSearch.Proofs.Leaves
import ShardSearch.Proofs.Meaning
import ShardSearch.Proofs.TermScan
import ShardSearch.Query.IndexSource

/-!
# How the stream of a query comes about

`LeafCase` and `NodeCase` list the ways the stream of a term and the stream of a node are made.
What holds of every stream that is made for a node follows by `Query.Made.induct` from these cases
alone.
-/

namespace ShardSearch

namespace Stream

variable {s : Stream} {label : String}

@[simp] theorem trace_withLabel : (s.withLabel label).trace = s.trace := by
  cases s <;> simp [withLabel, trace]

@[simp] theorem context_withLabel : (s.withLabel label).context = s.context := by
  cases s <;> rfl

@[simp] theorem canPrune_withLabel : (s.withLabel label).canPrune = s.canPrune := by
  cases s <;> rfl

@[simp] theorem node_withLabel : (s.withLabel label).node = s.node := by
  cases s <;> rfl

end Stream

/-! ## Terms -/

namespace ShardIndex

variable {ix : ShardIndex} {o : ScanOptions} {id : NodeId} {field value shard : String}

/-- The sets a scan of a term hands out. -/
def termSets (ix : ShardIndex) (o : ScanOptions) (id : NodeId) (field value : String) :
    List MatchSet :=
  ((ix.shardsOf field value).entries.filter (o.admits ·.1)).map fun e =>
    TermScan.setOf (some id) o e.1 e.2

theorem ascending_termSets : AscendingSets (ix.termSets o id field value) := by
  refine List.pairwise_map.2 ?_
  simp only [TermScan.shard_setOf]
  exact (ix.shardsOf field value).ascending.sublist List.filter_sublist

/-- At a shard that is asked for and holds the term the scan has the set of its uids. -/
theorem at?_termSets :
    Trace.at? shard ⟨(ix.termSets o id field value).map (·.entry), none⟩ =
      if o.admits shard then
        ((ix.shardsOf field value).get? shard).map (TermScan.setOf (some id) o shard)
      else none := by
  apply Option.ext
  intro set
  rw [Trace.at?_eq_some_iff (clean_map_entry ascending_termSets).ascending]
  simp only [termSets, List.map_map, List.mem_map, List.mem_filter, Function.comp, MatchSet.entry,
    TermScan.shard_setOf]
  constructor
  · rintro ⟨⟨key, posting⟩, ⟨hmem, hadmits⟩, heq⟩
    cases heq
    rw [if_pos hadmits, SortedMap.get?_eq_some_iff.2 hmem]
    rfl
  · intro h
    split at h
    · next hadmits =>
      obtain ⟨posting, hget, rfl⟩ := Option.map_eq_some_iff.1 h
      exact ⟨(shard, posting), ⟨SortedMap.get?_eq_some_iff.1 hget, hadmits⟩, rfl⟩
    · cases h

/-- What the index knows of a term, with the trace of its leaf. -/
inductive LeafCase (ix : ShardIndex) (o : ScanOptions) (id : NodeId) (field value : String) :
    Stream → Prop where
  /-- The field has no index, and the term is put off. -/
  | unindexed (label : String) (indexed : ix.isIndexed field = false) :
      LeafCase ix o id field value ((Stream.unindexed (some id)).withLabel label)
  /-- No shard holds the term. -/
  | missing (label : String) (indexed : ix.isIndexed field = true)
      (unheld : ix.lookup? field value = none) :
      LeafCase ix o id field value ((Stream.absent (some id)).withLabel label)
  /-- The term is scanned. -/
  | scanned (label : String) (indexed : ix.isIndexed field = true) :
      LeafCase ix o id field value
        ((Stream.ofScanner (some id)
          (.ofItems ((ix.termSets o id field value).map .found))).withLabel label)

/-- The index with nothing counted. -/
def uncounted (ix : ShardIndex) : ShardIndex := { ix with stats := .zero }

theorem leafOf_cases (o : ScanOptions) (id : NodeId) (field value : String) {ix' : ShardIndex}
    (h : ix'.uncounted = ix.uncounted) :
    ∃ s, (leafOf o id field value ix').1 = .ok s ∧ LeafCase ix o id field value s ∧
      (leafOf o id field value ix').2.uncounted = ix.uncounted := by
  obtain ⟨indexed, terms, stats⟩ := ix
  obtain ⟨_, _, stats'⟩ := ix'
  cases h
  have hindexed' : isIndexed ⟨indexed, terms, stats'⟩ field =
      isIndexed ⟨indexed, terms, stats⟩ field := rfl
  simp only [leafOf, status, hindexed']
  cases hindexed : isIndexed ⟨indexed, terms, stats⟩ field with
  | false => exact ⟨_, rfl, .unindexed _ hindexed, rfl⟩
  | true =>
    have hlookup' : lookup? ⟨indexed, terms, stats'⟩ field value =
        lookup? ⟨indexed, terms, stats⟩ field value := rfl
    rw [hlookup']
    cases hlookup : lookup? ⟨indexed, terms, stats⟩ field value with
    | none => exact ⟨_, rfl, .missing _ hindexed hlookup, rfl⟩
    | some shards =>
      have hsets : (openScan ⟨indexed, terms, stats'⟩ field value (some id) o).1.sets =
          termSets ⟨indexed, terms, stats⟩ o id field value := sets_openScan
      refine ⟨_, rfl, ?_, rfl⟩
      simp only [hsets]
      exact .scanned _ hindexed

theorem leading_map_found (sets : List MatchSet) : ScanItem.leading (sets.map .found) = sets := by
  induction sets with
  | nil => rfl
  | cons set sets ih => rw [List.map_cons, ScanItem.leading, ih]

theorem trace_scanned {label : String} :
    ((Stream.ofScanner (some id)
      (.ofItems ((ix.termSets o id field value).map .found))).withLabel label).trace =
        ⟨(ix.termSets o id field value).map (·.entry), none⟩ := by
  have hsound : ((ix.termSets o id field value).map ScanItem.found).all (·.isSound) := by
    simp [ScanItem.isSound]
  have hasc : AscendingSets (ScanItem.leading ((ix.termSets o id field value).map .found)) := by
    rw [leading_map_found]
    exact ascending_termSets
  have htrace := Scanner.traceFrom_eq hsound hasc fun shard (h : shard ∈ none) =>
    absurd h (Option.not_mem_none shard)
  rw [leading_map_found] at htrace
  rw [Stream.trace_withLabel]
  exact htrace

section LeafCase

variable {s : Stream} (h : LeafCase ix o id field value s)

include h

theorem LeafCase.clean : s.trace.Clean := by
  cases h with
  | unindexed label | missing label =>
    rw [Stream.trace_withLabel]
    exact Trace.clean_stop
  | scanned label =>
    rw [trace_scanned]
    exact clean_map_entry ascending_termSets

theorem LeafCase.node_eq : s.node = some id := by
  cases h <;> rw [Stream.node_withLabel] <;> rfl

/-- The leaf of a term is absent only if no shard holds the term. -/
theorem LeafCase.of_absent (habsent : s.context = .absent) :
    ix.isIndexed field = true ∧ ix.lookup? field value = none := by
  cases h with
  | unindexed => rw [Stream.context_withLabel] at habsent; cases habsent
  | missing label hindexed hunheld => exact ⟨hindexed, hunheld⟩
  | scanned => rw [Stream.context_withLabel] at habsent; cases habsent

/-- The leaf of a term prunes only if the term is scanned. -/
theorem LeafCase.indexed (hprunes : s.canPrune = true) : ix.isIndexed field = true := by
  cases h with
  | unindexed => rw [Stream.canPrune_withLabel] at hprunes; cases hprunes
  | missing label hindexed => exact hindexed
  | scanned label hindexed => exact hindexed

/-- The leaf of a term holds the sets of the term if it prunes, and nothing otherwise. -/
theorem LeafCase.at?_eq :
    s.trace.at? shard =
      if s.canPrune = true ∧ o.admits shard = true then
        ((ix.shardsOf field value).get? shard).map (TermScan.setOf (some id) o shard)
      else none := by
  cases h with
  | unindexed | missing =>
    rw [Stream.trace_withLabel, Stream.canPrune_withLabel, if_neg fun hprunes => nomatch hprunes.1]
    rfl
  | scanned =>
    have hprunes : (Stream.ofScanner (some id)
        (.ofItems ((ix.termSets o id field value).map .found))).canPrune = true := rfl
    rw [trace_scanned, at?_termSets, Stream.canPrune_withLabel]
    simp [hprunes]

end LeafCase

end ShardIndex

/-! ## Nodes -/

/-- How the stream of a node is made, out of streams `below` for its children. -/
inductive NodeCase (t : PredicateTree) (ix : ShardIndex) (o : ScanOptions)
    (below : NodeId → Stream → Prop) (id : NodeId) : Stream → Prop where
  | term {s : Stream} (field value : String)
      (shape : t.predicate? id = some (.term field value)) (leaf : ix.LeafCase o id field value s) :
      NodeCase t ix o below id s
  /-- A single child stands for itself. -/
  | single {s : Stream} (child : NodeId)
      (shape : t.predicate? id = some (.and [child]) ∨ t.predicate? id = some (.or [child]))
      (made : below child s) : NodeCase t ix o below id s
  | intersection {s : Stream} (children : List NodeId) (streams : List Stream)
      (shape : t.predicate? id = some (.and children)) (made : List.Forall₂ below children streams)
      (joined : Stream.intersect (some id) streams = .ok s) : NodeCase t ix o below id s
  | union {s : Stream} (children : List NodeId) (streams : List Stream)
      (shape : t.predicate? id = some (.or children)) (made : List.Forall₂ below children streams)
      (joined : Stream.unite (some id) streams = .ok s) : NodeCase t ix o below id s
  /-- A negation or a delayed part is not entered. -/
  | putOff (child : NodeId) (label : String)
      (shape : t.predicate? id = some (.not child) ∨ t.predicate? id = some (.delayed child)) :
      NodeCase t ix o below id ((Stream.delayed (some id)).withLabel label)

theorem NodeCase.mono {t : PredicateTree} {ix : ShardIndex} {o : ScanOptions} {id : NodeId}
    {s : Stream} {below below' : NodeId → Stream → Prop} (h : NodeCase t ix o below id s)
    (hbelow : ∀ child s, below child s → below' child s) : NodeCase t ix o below' id s := by
  cases h with
  | term field value shape leaf => exact .term field value shape leaf
  | single child shape made => exact .single child shape (hbelow child s made)
  | intersection children streams shape made joined =>
    exact .intersection children streams shape (made.imp hbelow) joined
  | union children streams shape made joined =>
    exact .union children streams shape (made.imp hbelow) joined
  | putOff child label shape => exact .putOff child label shape

namespace Query

variable {t : PredicateTree} {ix : ShardIndex} {o : ScanOptions} {id : NodeId} {s : Stream}

/-- The stream is made for the part of a tree below a node, from an index that holds what `ix`
    holds, at most `levels` levels deep. -/
def MadeWithin (t : PredicateTree) (ix : ShardIndex) (o : ScanOptions) (levels : Nat)
    (id : NodeId) (s : Stream) : Prop :=
  ∃ st : ShardIndex, st.uncounted = ix.uncounted ∧
    (streamWithin t (ShardIndex.leafOf o) levels id st).1 = .ok s

section Make

variable {σ α : Type} {make : NodeId → σ → Except Error Stream × σ} {kept : σ → α}
  (hkept : ∀ id st, kept (make id st).2 = kept st)

include hkept

/-- What the making of each stream keeps of the state of a source, the making of all does. -/
theorem streamsOf_keeps (ids : List NodeId) (st : σ) :
    kept (streamsOf make ids st).2 = kept st := by
  induction ids generalizing st with
  | nil => rfl
  | cons id ids ih =>
    have hid := hkept id st
    rw [streamsOf]
    generalize make id st = made at hid
    obtain ⟨_ | s, st'⟩ := made
    · exact hid
    · exact (ih st').trans hid

theorem streamsOf_ok {ids : List NodeId} {st : σ} {streams : List Stream}
    (h : (streamsOf make ids st).1 = .ok streams) :
    List.Forall₂ (fun id s => ∃ st', kept st' = kept st ∧ (make id st').1 = .ok s)
      ids streams := by
  induction ids generalizing st streams with
  | nil =>
    cases h
    exact .nil
  | cons id ids ih =>
    have hid := hkept id st
    rw [streamsOf] at h
    cases hmake : make id st with
    | mk result st' =>
      rw [hmake] at h hid
      cases result with
      | error e => cases h
      | ok s =>
        cases hrest : (streamsOf make ids st').1 with
        | error e =>
          simp only [hrest] at h
          cases h
        | ok rest =>
          simp only [hrest] at h
          cases h
          refine .cons ⟨st, rfl, by rw [hmake]⟩ ((ih hrest).imp ?_)
          intro id s hs
          obtain ⟨st'', hst'', hmade⟩ := hs
          exact ⟨st'', hst''.trans hid, hmade⟩

end Make

/-- What the supply of each leaf keeps of the state of a source, the making of a stream does. -/
theorem streamWithin_keeps {σ α : Type} {source : LeafSource σ} {kept : σ → α}
    (hkept : ∀ id field value st, kept (source id field value st).2 = kept st) (n : Nat)
    (id : NodeId) (st : σ) : kept (streamWithin t source n id st).2 = kept st := by
  induction n generalizing id st with
  | zero => rfl
  | succ n ih =>
    rw [streamWithin]
    split
    · rfl
    · split
      · exact hkept id _ _ st
      · exact streamsOf_keeps ih _ st
      · exact streamsOf_keeps ih _ st
      · rfl
      · rfl

theorem stream_keeps {σ α : Type} {source : LeafSource σ} {kept : σ → α}
    (hkept : ∀ id field value st, kept (source id field value st).2 = kept st) (q : Query)
    (st : σ) : kept (q.stream source st).2 = kept st := by
  rw [stream]
  split
  · rfl
  · rfl
  · exact streamWithin_keeps hkept q.tree.size _ st

/-- Making streams over an index changes nothing but its counts. -/
theorem uncounted_streamWithin (n : Nat) (id : NodeId) (st : ShardIndex) :
    (streamWithin t (ShardIndex.leafOf o) n id st).2.uncounted = st.uncounted := by
  refine streamWithin_keeps (fun id field value st => ?_) n id st
  obtain ⟨s, -, -, hkept⟩ :=
    ShardIndex.leafOf_cases o id field value (Eq.refl st.uncounted)
  exact hkept

/-- A composite is its only child, or joins the streams of its children. -/
theorem combine_cases {join : List Stream → Except Error Stream}
    {result : Except Error (List Stream)} {below : NodeId → Stream → Prop}
    {children : List NodeId} (hbelow : ∀ ss, result = .ok ss → List.Forall₂ below children ss)
    (h : result.bind (combine id join) = .ok s) :
    (∃ child, children = [child] ∧ below child s) ∨
      ∃ ss, List.Forall₂ below children ss ∧ join ss = .ok s := by
  obtain _ | ss := result
  · cases h
  · have hall := hbelow ss rfl
    match ss, h, hall with
    | [], h, _ => cases h
    | [_], h, .cons hchild .nil =>
      cases h
      exact .inl ⟨_, rfl, hchild⟩
    | _ :: _ :: _, h, hall => exact .inr ⟨_, hall, h⟩

/-- The stream of a node is made in one of the ways of `NodeCase`. -/
theorem MadeWithin.nodeCase {n : Nat} (h : MadeWithin t ix o (n + 1) id s) :
    NodeCase t ix o (MadeWithin t ix o n) id s := by
  obtain ⟨st, hst, hmade⟩ := h
  have hchildren : ∀ children streams,
      (streamsOf (streamWithin t (ShardIndex.leafOf o) n) children st).1 = .ok streams →
        List.Forall₂ (MadeWithin t ix o n) children streams := by
    intro children streams hstreams
    apply (streamsOf_ok (uncounted_streamWithin n) hstreams).imp
    rintro id s ⟨st', hst', hs⟩
    exact ⟨st', hst'.trans hst, hs⟩
  rw [streamWithin] at hmade
  split at hmade
  · cases hmade
  · next node hnode =>
    have hshape : t.predicate? id = some node.predicate := by
      rw [PredicateTree.predicate?, hnode]
      rfl
    split at hmade
    · next field value hp =>
      obtain ⟨leaf, hleaf, hcase, -⟩ := ShardIndex.leafOf_cases o id field value hst
      cases hleaf.symm.trans hmade
      exact .term field value (hp ▸ hshape) hcase
    · next children hp =>
      rw [hp] at hshape
      rcases combine_cases (hchildren children) hmade with
        ⟨child, rfl, hchild⟩ | ⟨streams, hstreams, hjoined⟩
      · exact .single child (.inl hshape) hchild
      · exact .intersection children streams hshape hstreams hjoined
    · next children hp =>
      rw [hp] at hshape
      rcases combine_cases (hchildren children) hmade with
        ⟨child, rfl, hchild⟩ | ⟨streams, hstreams, hjoined⟩
      · exact .single child (.inr hshape) hchild
      · exact .union children streams hshape hstreams hjoined
    · next child hp =>
      cases hmade
      exact .putOff child _ (.inl (hp ▸ hshape))
    · next child hp =>
      cases hmade
      exact .putOff child _ (.inr (hp ▸ hshape))

/-- What each way of making a stream preserves holds of all streams made for nodes. -/
theorem MadeWithin.induct {P : NodeId → Stream → Prop}
    (hstep : ∀ id s, NodeCase t ix o P id s → P id s) {n : Nat} (h : MadeWithin t ix o n id s) :
    P id s := by
  induction n generalizing id s with
  | zero =>
    obtain ⟨st, -, hmade⟩ := h
    cases hmade
  | succ n ih => exact hstep id s (h.nodeCase.mono fun _ _ => ih)

/-- What is asked of scans: the threshold of the settings and, if there is one, a range. -/
def scanOptions (q : Query) (range : Option ShardRange) : ScanOptions :=
  range.elim (.ofConfig q.config) (ScanOptions.ofConfig q.config).withRange

/-- The stream of a query is that of the root, wrapped if the settings say so. -/
theorem stream_ok {q : Query} (h : (q.stream (ShardIndex.leafOf o) ix).1 = .ok s) :
    ∃ root s', q.tree.root = some root ∧ MadeWithin q.tree ix o q.tree.size root s' ∧
      s = if q.config.ancestorDedup then s'.dropDescendants none else s' := by
  unfold stream at h
  split at h
  · cases h
  · cases h
  · next root _ hroot =>
    cases hmade : q.streamAt (ShardIndex.leafOf o) root ix with
    | mk result ix' =>
      rw [hmade] at h
      cases result with
      | error e => cases h
      | ok s' =>
        cases h
        exact ⟨root, s', hroot, ⟨ix, rfl, congrArg Prod.fst hmade⟩, rfl⟩

end Query

end ShardSearch
