import ShardSearch.Proofs.Assembly
import ShardSearch.Proofs.Extending
import ShardSearch.Proofs.Reporting
import ShardSearch.Proofs.StreamPlan

/-!
# What comes before a failure

Two plans that differ only in what their scans yield from the first failing item on are
`Rescripted`.  What is made by them answers alike until a scan fails (`run_rescripted`): nothing
that was answered before depends on the failing item or on what comes after it.
-/

namespace ShardSearch

/-- `items'` is `items`, or anything else in place of the first item at which a scan fails and of
    all items after it.  The last shard let through is `last`. -/
inductive ScanItem.Rescripted : Option String → List ScanItem → List ScanItem → Prop where
  | same (last : Option String) (items : List ScanItem) : Rescripted last items items
  | failure (last : Option String) (error : Error) (items items' : List ScanItem) :
      Rescripted last (.failure error :: items) items'
  | descending {shard : String} {set : MatchSet} (descends : ¬ shard < set.shard)
      (items items' : List ScanItem) : Rescripted (some shard) (.found set :: items) items'
  | pause {last : Option String} {items items' : List ScanItem}
      (later : Rescripted last items items') :
      Rescripted last (.pause :: items) (.pause :: items')
  | found {last : Option String} {set : MatchSet} {items items' : List ScanItem}
      (ascends : ∀ shard ∈ last, shard < set.shard)
      (later : Rescripted (some set.shard) items items') :
      Rescripted last (.found set :: items) (.found set :: items')

/-- The plans of leaves are the same, or both are scans and one is a rescript of the other. -/
inductive LeafPlan.Rescripted : LeafPlan → LeafPlan → Prop where
  | same (plan : LeafPlan) : Rescripted plan plan
  | scan {items items' : List ScanItem} (rescripted : ScanItem.Rescripted none items items') :
      Rescripted (.scan items) (.scan items')

/-- The plans agree but for the scripts of their scans. -/
inductive StreamPlan.Rescripted : StreamPlan → StreamPlan → Prop where
  | leaf (node : Option NodeId) {plan plan' : LeafPlan} (rescripted : plan.Rescripted plan') :
      Rescripted (leaf node plan) (leaf node plan')
  | intersection (node : Option NodeId) {parts parts' : List StreamPlan}
      (rescripted : List.Forall₂ Rescripted parts parts') :
      Rescripted (intersection node parts) (intersection node parts')
  | union (node : Option NodeId) {parts parts' : List StreamPlan}
      (rescripted : List.Forall₂ Rescripted parts parts') :
      Rescripted (union node parts) (union node parts')
  | ancestor (parent : Option NodeId) {part part' : StreamPlan}
      (rescripted : Rescripted part part') :
      Rescripted (ancestor parent part) (ancestor parent part')

/-! ## What is made by plans -/

/-- A script goes on where the other one fails. -/
theorem Scanner.extends_traceFrom {last : Option String} {items items' : List ScanItem}
    (h : ScanItem.Rescripted last items items') :
    (traceFrom last items).Extends (traceFrom last items') := by
  induction h with
  | same last items => exact .refl _
  | failure last error items items' => exact Trace.extends_stop error _
  | descending descends items items' =>
    rw [Stream.traceFrom_descending descends]
    exact Trace.extends_stop _ _
  | pause later => exact .refl _
  | found ascends later ih =>
    rw [Stream.traceFrom_found ascends, Stream.traceFrom_found ascends]
    exact ih.after _

theorem Stream.Compared.refl (s : Stream) : s.Compared Trace.Extends s :=
  ⟨rfl, rfl, rfl, rfl, rfl, .refl _⟩

theorem LeafPlan.stream_alike {plan plan' : LeafPlan} (h : plan.Rescripted plan')
    (node : Option NodeId) :
    Alike (Stream.Compared Trace.Extends) (plan.stream node) (plan'.stream node) := by
  cases h with
  | same =>
    cases plan.stream node with
    | error e => exact .error e
    | ok s => exact .ok (.refl s)
  | scan h => exact .ok ⟨rfl, rfl, rfl, rfl, rfl, Scanner.extends_traceFrom h⟩

namespace StreamPlan

mutual

theorem make_alike : ∀ {p p' : StreamPlan}, p.Rescripted p' →
    Alike (Stream.Compared Trace.Extends) p.make p'.make
  | leaf node _, _, .leaf _ h => by
    rw [make, make]
    exact LeafPlan.stream_alike h node
  | intersection node parts, _, .intersection _ h => by
    rw [make, make]
    exact (makeAll_alike h).bind fun _ _ hss =>
      Stream.intersect_alike Trace.respected_extends hss node
  | union node parts, _, .union _ h => by
    rw [make, make]
    exact (makeAll_alike h).bind fun _ _ hss => Stream.unite_alike Trace.respected_extends hss node
  | ancestor parent part, _, .ancestor _ h => by
    rw [make, make]
    exact (make_alike h).map fun _ _ hs => hs.dropDescendants (fun _ _ ht => ht.mapSets _) parent

theorem makeAll_alike : ∀ {ps ps' : List StreamPlan}, List.Forall₂ Rescripted ps ps' →
    Alike (List.Forall₂ (Stream.Compared Trace.Extends)) (makeAll ps) (makeAll ps')
  | [], _, .nil => by
    rw [makeAll]
    exact .ok .nil
  | p :: rest, _, .cons h hrest => by
    rw [makeAll, makeAll]
    exact (make_alike h).bind fun _ _ hs => (makeAll_alike hrest).map fun _ _ hss => .cons hs hss

end

end StreamPlan

/-! ## Reading both -/

namespace Trace

/-- Where a trace has not come to its failure, one that extends it answers as it does. -/
theorem Extends.answer_eq {t t' : Trace} (h : t.Extends t') {i : Nat}
    (hhead : (t.drop i).head.isFailure = false) (kind : String) (c : Call) :
    t.answer kind i c = t'.answer kind i c ∧ t.position i c = t'.position i c := by
  rcases h with rfl | ⟨hfault, hentries⟩
  · exact ⟨rfl, rfl⟩
  · obtain ⟨error, herror⟩ := Option.isSome_iff_exists.1 hfault
    rw [head_drop] at hhead
    cases hi : t.entries[i]? with
    | none =>
      rw [hi, herror] at hhead
      cases hhead
    | some e =>
      have hlt := (List.getElem?_eq_some_iff.1 hi).1
      have hi' : t'.entries[i]? = some e := by
        obtain ⟨rest, hrest⟩ := hentries
        rw [← hrest, List.getElem?_append_left hlt, hi]
      have hlt' := (List.getElem?_eq_some_iff.1 hi').1
      constructor
      · cases c <;> simp only [answer, hi, hi']
      · cases c <;> simp only [position, if_pos hlt, if_pos hlt']

end Trace

namespace Stream

theorem run_take (s : Stream) (calls : List Call) (n : Nat) :
    (s.run (calls.take n)).1 = (s.run calls).1.take n := by
  induction calls generalizing s n with
  | nil => simp [run, Calls.run]
  | cons c calls ih =>
    cases n with
    | zero => rfl
    | succ n => rw [List.take_succ_cons, run_cons, run_cons, List.take_succ_cons, ih]

/-- As long as no scan has failed, a stream answers as the cursor does over any trace that extends
    its own. -/
theorem answers_eq {t t' : Trace} (hext : t.Extends t') {s : Stream} {i : Nat}
    (ht : s.trace = t.drop i) (hs : s.Sound) (kind : String) (calls : List Call)
    (hsound : (s.run calls).2.hasFailed = false) :
    t.answers kind i calls = t'.answers kind i calls := by
  induction calls generalizing s i with
  | nil => rfl
  | cons c calls ih =>
    obtain ⟨-, htrace, -⟩ := call_spec ht c
    rw [run_cons] at hsound
    have hnext : (s.call c).2.Sound := by
      -- had a scan failed during this call, the stream would have failed for good
      refine (call_reports hs c).resolve_right ?_
      rintro ⟨hhead, hfailed⟩
      rw [run_of_isFailure hhead, hfailed] at hsound
      cases hsound
    have hanswer : t.answer kind i c = t'.answer kind i c ∧ t.position i c = t'.position i c := by
      have hhead : s.fill.head = (t.drop i).head := by rw [(fill_readsTo s).head, ht]
      rcases state_of_call s c with ⟨rfl, -⟩ | heq | ⟨⟨e, hready⟩, -⟩
      · exact ⟨rfl, rfl⟩
      · rw [heq] at hnext
        exact hext.answer_eq (hhead ▸ hnext.head_isFailure) kind c
      · rw [hready] at hhead
        exact hext.answer_eq (hhead ▸ rfl) kind c
    rw [Trace.answers, Trace.answers, hanswer.1, ← hanswer.2, ih htrace hnext hsound]

/-- A stream is read to its end without failure if its trace ends without one. -/
theorem drain_isOk (s : Stream) :
    (∃ entries, s.drain.1 = .ok entries) ↔ s.trace.fault = none := by
  rw [drain_eq]
  cases s.trace.fault with
  | none => exact ⟨fun _ => rfl, fun _ => ⟨_, rfl⟩⟩
  | some error => exact ⟨nofun, nofun⟩

end Stream

/-- If the scripts of scans are replaced from their first failing items on, a stream can still be
    made, and until a scan fails it is answered what was answered before.  Nor does a union hide the
    failure of a child: it is read to its end without failure if and only if all of its children
    are that are not absent. -/
theorem StreamPlan.run_rescripted :
    (∀ (p p' : StreamPlan) (s : Stream), p.Rescripted p' → p.make = .ok s →
      ∃ s', p'.make = .ok s' ∧ ∀ (calls : List Call) (n : Nat),
        (s.run (calls.take n)).2.hasFailed = false →
          (s'.run calls).1.take n = (s.run calls).1.take n) ∧
    ∀ (node : Option NodeId) (children : List Stream) (s : Stream),
      Stream.unite node children = .ok s →
        ((∃ entries, s.drain.1 = .ok entries) ↔
          ∀ child ∈ children, child.context ≠ .absent →
            ∃ entries, child.drain.1 = .ok entries) := by
  constructor
  · intro p p' s h hmake
    have halike := make_alike h
    rw [hmake] at halike
    generalize p'.make = result at halike ⊢
    cases halike with
    | @ok _ s' hs =>
      refine ⟨s', rfl, ?_⟩
      intro calls n hsound
      rw [← Stream.run_take, ← Stream.run_take, Stream.run_answers (i := 0) rfl,
        Stream.run_answers (i := 0) rfl, ← hs.kindName]
      exact (Stream.answers_eq hs.trace rfl (builtFrom_make hmake).sound _ _ hsound).symm
  · intro node children s hs
    simp only [Stream.drain_isOk]
    rw [Stream.trace_unite hs, Trace.fault_join, List.forall_mem_map]
    constructor
    · intro hall child hchild hpresent
      exact hall child (List.mem_filter.2 ⟨hchild, decide_eq_true hpresent⟩)
    · intro hall child hchild
      obtain ⟨hmem, hpresent⟩ := List.mem_filter.1 hchild
      exact hall child hmem (of_decide_eq_true hpresent)

/-- The union of a scan of the given items with a leaf in memory. -/
def StreamPlan.beside (items : List ScanItem) : StreamPlan :=
  union none
    [leaf (some ⟨1⟩) (.scan items),
      leaf (some ⟨2⟩) (.complete
        [.ofUids "20240101_0" (some ⟨2⟩) ["y"], .ofUids "20240103_0" (some ⟨2⟩) ["z"]])]

/-- A source that breaks in its second item. -/
def StreamPlan.breaking : List ScanItem :=
  [.found (.ofUids "20240101_0" (some ⟨1⟩) ["x"]), .failure (.noSuchLeaf "A:1")]

/-- A source that goes on where the other one breaks. -/
def StreamPlan.steady : List ScanItem :=
  [.found (.ofUids "20240101_0" (some ⟨1⟩) ["x"]), .found (.ofUids "20240102_0" (some ⟨1⟩) ["w"])]

theorem StreamPlan.run_rescripted_sample :
    (beside breaking).Rescripted (beside steady) ∧
    ∃ s s', (beside breaking).make = .ok s ∧ (beside steady).make = .ok s' ∧
      (s.run [.next]).2.hasFailed = false ∧ (s.run [.next, .next]).2.hasFailed = true ∧
      (s'.run [.next, .next]).1.take 1 = (s.run [.next, .next]).1.take 1 ∧
      ¬ ∃ entries, s.drain.1 = .ok entries := by
  have hrescripted : (beside breaking).Rescripted (beside steady) := by
    have hscript : ScanItem.Rescripted none breaking steady := .found nofun (.failure ..)
    exact .union none (.cons (.leaf _ (.scan hscript)) (.cons (.leaf _ (.same _)) .nil))
  obtain ⟨s, hmake⟩ : ∃ s, (beside breaking).make = .ok s := ⟨_, rfl⟩
  obtain ⟨s', hmake', hrun⟩ := run_rescripted.1 _ _ s hrescripted hmake
  have hsound : (s.run [.next]).2.hasFailed = false := by
    cases hmake
    rfl
  have hfailed : (s.run [.next, .next]).2.hasFailed = true := by
    cases hmake
    rfl
  have hunite : ∃ other, Stream.unite none
      [Stream.ofScanner (some ⟨1⟩) (.ofItems breaking), other] = .ok s := ⟨_, hmake⟩
  refine ⟨hrescripted, s, s', hmake, hmake', hsound, hfailed, hrun [.next, .next] 1 hsound, ?_⟩
  intro hdrain
  obtain ⟨other, hunite⟩ := hunite
  have hscan := (run_rescripted.2 none _ s hunite).1 hdrain _ List.mem_cons_self nofun
  obtain ⟨entries, hentries⟩ := hscan
  cases hentries

end ShardSearch
