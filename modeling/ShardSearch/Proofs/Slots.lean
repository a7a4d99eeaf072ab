import ShardSearch.Proofs.CallRounds

/-!
# Slots at every depth

A stream whose ancestor streams keep what they have shown answers all calls as it does without these
slots (`calls_simulates`): no slot ever gets out of step with the delegate below it.  So what is
known of streams without slots goes for all that can be put together and read, and
`Reachable.traced` says it of the cursor.
-/

namespace ShardSearch

namespace SlottedStream

/-! ## Filling by calls -/

theorem settleWithin_mirrors {h : Nat}
    {round : List SlottedStream → Stream.Round SlottedStream}
    {round' : List Stream → Stream.Round}
    (hround : ∀ {ss ts}, List.Forall₂ (Mirrors h) ss ts → RoundMirrors h (round ss) (round' ts))
    (n : Nat) {ss : List SlottedStream} {ts : List Stream}
    (hparts : List.Forall₂ (Mirrors h) ss ts) :
    (Stream.settleWithin round n ss).1 = (Stream.settleWithin round' n ts).1 ∧
      List.Forall₂ (Mirrors h) (Stream.settleWithin round n ss).2
        (Stream.settleWithin round' n ts).2 := by
  induction n generalizing ss ts with
  | zero => exact ⟨rfl, hparts⟩
  | succ n ih =>
    have hfirst := hround hparts
    unfold Stream.settleWithin
    generalize round ss = first, round' ts = first' at hfirst
    cases hfirst with
    | settled head parts => exact ⟨rfl, parts⟩
    | again parts => exact ih parts

theorem settle_mirrors {h : Nat} {round : List SlottedStream → Stream.Round SlottedStream}
    {round' : List Stream → Stream.Round}
    (hround : ∀ {ss ts}, List.Forall₂ (Mirrors h) ss ts → RoundMirrors h (round ss) (round' ts))
    {ss : List SlottedStream} (hs : ∀ s ∈ ss, s.InStep) (hh : Stream.heightAll ss ≤ h) :
    (Stream.settle round ss).1 = (Stream.settle round' (ss.map Stream.unslotted)).1 ∧
      (Stream.settle round ss).2.map Stream.unslotted =
        (Stream.settle round' (ss.map Stream.unslotted)).2 ∧
      ∀ s ∈ (Stream.settle round ss).2, InStep s := by
  have hparts := mirrors_parts hs hh
  obtain ⟨hhead, hleft⟩ := settleWithin_mirrors hround (Stream.heldAll ss + 1) hparts
  obtain ⟨hplain, hstep, -⟩ := parts_of_mirrors hleft
  rw [Stream.settle, Stream.settle, ← heldAll_of_mirrors hparts]
  exact ⟨hhead, hplain, hstep⟩

/-- An ancestor stream. -/
def IsAncestor : SlottedStream → Prop
  | .ancestor .. => True
  | .leaf .. | .scan .. | .intersection .. | .union .. => False

section Fill

variable {calls : Calls SlottedStream} {h : Nat}
  (hcalls : calls.Simulates (Stream.callsBy (Stream.fillAt h)) (Mirrors h))

include hcalls

/-- The head of a scan or a composite is made known by calls as it is without slots. -/
theorem fillWith_spec {s : SlottedStream} (hs : s.InStep) (hh : s.height ≤ h + 1)
    (hkind : ¬ s.IsAncestor) :
    (fillWith calls s).unslotted = Stream.fillAt (h + 1) s.unslotted ∧
      (fillWith calls s).InStep ∧ ¬ (fillWith calls s).IsAncestor := by
  cases hs with
  | leaf node context label entries => exact ⟨rfl, .leaf node context label entries, hkind⟩
  | scan node label scanner head =>
    cases head with
    | unread => exact ⟨rfl, .scan node label _ _, hkind⟩
    | ready e | ended | failed error => exact ⟨rfl, .scan node label scanner _, hkind⟩
  | @intersection filters deferred node context head filtered put =>
    cases head with
    | unread =>
      rw [Stream.height] at hh
      obtain ⟨hhead, hplain, hstep⟩ := settle_mirrors (meetRound_mirrors hcalls node) filtered
        (by omega)
      refine ⟨?_, .intersection node context _ hstep put, hkind⟩
      rw [Stream.unslotted_intersection, Stream.fillAt_intersection, ← hhead, ← hplain]
      exact Stream.unslotted_intersection node context _ deferred _
    | ready e | ended | failed error =>
      exact ⟨rfl, .intersection node context _ filtered put, hkind⟩
  | @union sources node context prunes head read =>
    cases head with
    | unread =>
      rw [Stream.height] at hh
      obtain ⟨hhead, hplain, hstep⟩ := settle_mirrors (joinRound_mirrors hcalls node) read
        (by omega)
      refine ⟨?_, .union node context prunes _ hstep, hkind⟩
      rw [Stream.unslotted_union, Stream.fillAt_union, ← hhead, ← hplain]
      exact Stream.unslotted_union node context prunes _ _
    | ready e | ended | failed error =>
      exact ⟨rfl, .union node context prunes _ read, hkind⟩
  | ancestor parent below shown => exact absurd trivial hkind

end Fill

/-! ## Calls -/

/-- Where two streams have the same head whenever they are filled, calls on them are answered
    alike. -/
theorem callsBy_simulates {fill : SlottedStream → SlottedStream} {fill' : Stream → Stream}
    {R : SlottedStream → Stream → Prop} (hfill : ∀ {s t}, R s t → R (fill s) (fill' t))
    (hhead : ∀ {s t}, R s t → s.head = t.head) (hkind : ∀ {s t}, R s t → s.kindName = t.kindName)
    (hpop : ∀ {s t}, R s t → R s.pop t.pop) :
    (Stream.callsBy fill).Simulates (Stream.callsBy fill') R := by
  constructor
  case remove => exact fun hst => ⟨rfl, hst⟩
  all_goals
    intro s t hst
    have hfilled := hfill hst
    simp only [Stream.callsBy, hhead hfilled, hkind hfilled]
    cases (fill' t).head
  case next.ready => exact ⟨rfl, hpop hfilled⟩
  all_goals exact ⟨rfl, hfilled⟩

theorem Mirrors.kindName_eq {h : Nat} {s : SlottedStream} {t : Stream} (hst : Mirrors h s t) :
    s.kindName = t.kindName := by
  rw [← hst.unslotted, Stream.unslotted, Stream.kindName_mapSlots]

/-- Passing the next entry of a stream other than an ancestor stream touches no slot. -/
theorem Mirrors.pop {h : Nat} {s : SlottedStream} {t : Stream} (hst : Mirrors h s t)
    (hkind : ¬ s.IsAncestor) : Mirrors h s.pop t.pop ∧ ¬ IsAncestor s.pop := by
  obtain ⟨rfl, hstep, hheight⟩ := hst
  cases hstep with
  | leaf node context label entries => exact ⟨⟨rfl, .leaf .., hheight⟩, hkind⟩
  | scan node label scanner head => cases head <;> exact ⟨⟨rfl, .scan .., hheight⟩, hkind⟩
  | intersection node context head filtered put =>
    rw [Stream.unslotted_intersection] at hheight ⊢
    cases head <;>
      exact ⟨⟨Stream.unslotted_intersection .., .intersection _ _ _ filtered put, hheight⟩, hkind⟩
  | union node context prunes head read =>
    rw [Stream.unslotted_union] at hheight ⊢
    cases head <;> exact ⟨⟨Stream.unslotted_union .., .union _ _ _ _ read, hheight⟩, hkind⟩
  | ancestor parent below shown => exact absurd trivial hkind

/-- The delegate below a slot in step is tracked. -/
theorem tracks_of_mirrors {h : Nat} {delegate : SlottedStream} {parent : Option NodeId}
    {pending : Option Entry} {t : Stream}
    (hst : Mirrors (h + 1) (.ancestor delegate parent pending) t) :
    ∃ t', Decorator.Tracks (Mirrors h) parent ⟨delegate, parent, pending⟩ t' ∧
      t = .ancestor t' parent () := by
  obtain ⟨rfl, hstep, hheight⟩ := hst
  rw [Stream.unslotted_ancestor] at hheight ⊢
  rw [Stream.height] at hheight
  cases hstep with
  | ancestor parent below shown =>
    have hdelegate : Mirrors h delegate delegate.unslotted := ⟨rfl, below, by omega⟩
    exact ⟨delegate.unslotted, ⟨hdelegate, rfl, hdelegate.head_eq ▸ shown⟩, rfl⟩

theorem mirrors_of_tracks {h : Nat} {d : Decorator SlottedStream} {parent : Option NodeId}
    {t : Stream} (hd : d.Tracks (Mirrors h) parent t) :
    Mirrors (h + 1) (ofDecorator d) (.ancestor t parent ()) := by
  obtain ⟨hdelegate, rfl, hpending⟩ := hd
  rw [← hdelegate.head_eq] at hpending
  obtain ⟨rfl, hstep, hheight⟩ := hdelegate
  refine ⟨Stream.unslotted_ancestor .., .ancestor d.parent hstep hpending, ?_⟩
  rw [Stream.height]
  omega

section Below

variable {calls : Calls SlottedStream} {h : Nat}
  (hcalls : calls.Simulates (Stream.callsBy (Stream.fillAt h)) (Mirrors h))

include hcalls

theorem fillWith_mirrors {s : SlottedStream} {t : Stream} (hst : Mirrors (h + 1) s t)
    (hkind : ¬ s.IsAncestor) :
    Mirrors (h + 1) (fillWith calls s) (Stream.fillAt (h + 1) t) ∧
      ¬ (fillWith calls s).IsAncestor := by
  have hheight := (Stream.fillAt_readsBelow (h + 1) t hst.height).later.height
  obtain ⟨rfl, hstep, hh⟩ := hst
  obtain ⟨hplain, hstep', hkind'⟩ :=
    fillWith_spec hcalls hstep (by simpa [Stream.unslotted] using hh) hkind
  exact ⟨⟨hplain, hstep', by omega⟩, hkind'⟩

theorem callsWith_simulates :
    (callsWith calls).Simulates (Stream.callsBy (Stream.fillAt (h + 1))) (Mirrors (h + 1)) := by
  have hlookahead : (Stream.callsBy (fillWith calls)).Simulates
      (Stream.callsBy (Stream.fillAt (h + 1)))
      fun s t => Mirrors (h + 1) s t ∧ ¬ IsAncestor s :=
    callsBy_simulates (fun hst => fillWith_mirrors hcalls hst.1 hst.2) (fun hst => hst.1.head_eq)
      (fun hst => hst.1.kindName_eq) fun hst => hst.1.pop hst.2
  have hdecorated (parent : Option NodeId) :
      (Decorator.calls calls).Simulates (Stream.callsBy (Stream.fillAt (h + 1)))
        fun d t => ∃ t', d.Tracks (Mirrors h) parent t' ∧ t = .ancestor t' parent () :=
    (Decorator.simulates hcalls fun hready =>
      Stream.fillAt_of_known h (by simp [hready])).trans (Stream.simulates_ancestor fun _ => rfl)
  constructor
  case hasNext =>
    intro s t hst
    cases s with
    | ancestor delegate parent pending =>
      obtain ⟨hanswer, _, htracks, hleft⟩ := (hdecorated parent).hasNext (tracks_of_mirrors hst)
      exact ⟨hanswer, hleft ▸ mirrors_of_tracks htracks⟩
    | leaf | scan | intersection | union =>
      obtain ⟨hanswer, hleft, -⟩ := hlookahead.hasNext ⟨hst, id⟩
      exact ⟨hanswer, hleft⟩
  case peek =>
    intro s t hst
    cases s with
    | ancestor delegate parent pending =>
      obtain ⟨hanswer, _, htracks, hleft⟩ := (hdecorated parent).peek (tracks_of_mirrors hst)
      exact ⟨hanswer, hleft ▸ mirrors_of_tracks htracks⟩
    | leaf | scan | intersection | union =>
      obtain ⟨hanswer, hleft, -⟩ := hlookahead.peek ⟨hst, id⟩
      exact ⟨hanswer, hleft⟩
  case next =>
    intro s t hst
    cases s with
    | ancestor delegate parent pending =>
      obtain ⟨hanswer, _, htracks, hleft⟩ := (hdecorated parent).next (tracks_of_mirrors hst)
      exact ⟨hanswer, hleft ▸ mirrors_of_tracks htracks⟩
    | leaf | scan | intersection | union =>
      obtain ⟨hanswer, hleft, -⟩ := hlookahead.next ⟨hst, id⟩
      exact ⟨hanswer, hleft⟩
  case remove =>
    intro s t hst
    cases s with
    | ancestor delegate parent pending =>
      obtain ⟨hanswer, _, htracks, hleft⟩ := (hdecorated parent).remove (tracks_of_mirrors hst)
      exact ⟨hanswer, hleft ▸ mirrors_of_tracks htracks⟩
    | leaf | scan | intersection | union =>
      obtain ⟨hanswer, hleft, -⟩ := hlookahead.remove ⟨hst, id⟩
      exact ⟨hanswer, hleft⟩

end Below

/-- At every height the calls on a stream with slots in step are answered as those on the stream
    without them, and leave the slots in step. -/
theorem callsAt_simulates (h : Nat) :
    (callsAt h).Simulates (Stream.callsBy (Stream.fillAt h)) (Mirrors h) := by
  induction h with
  | zero =>
    have hnone {s : SlottedStream} {t : Stream} (hst : Mirrors 0 s t) : False := by
      have := Stream.height_pos t
      have := hst.height
      omega
    constructor <;> intro s t hst <;> exact (hnone hst).elim
  | succ h ih => exact callsWith_simulates ih

/-- The calls on a stream with slots in step are answered as those on the stream without them. -/
theorem calls_simulates :
    calls.Simulates Stream.calls fun s t => s.unslotted = t ∧ s.InStep := by
  have hmirrors {s : SlottedStream} (hs : s.InStep) : Mirrors s.height s s.unslotted :=
    ⟨rfl, hs, Nat.le_of_eq (Stream.height_mapSlots _ s)⟩
  -- a stream without slots is filled by its own height, which is that of the stream with them
  have hfill (s : SlottedStream) : Stream.fillAt s.height s.unslotted = s.unslotted.fill := by
    rw [Stream.fill, Stream.unslotted, Stream.height_mapSlots]
  constructor <;> rintro s _ ⟨rfl, hs⟩
  case hasNext =>
    obtain ⟨hanswer, hleft⟩ := (callsAt_simulates s.height).hasNext (hmirrors hs)
    simp only [Stream.callsBy, hfill] at hanswer hleft
    exact ⟨hanswer, hleft.unslotted, hleft.inStep⟩
  case peek =>
    obtain ⟨hanswer, hleft⟩ := (callsAt_simulates s.height).peek (hmirrors hs)
    simp only [Stream.callsBy, hfill] at hanswer hleft
    exact ⟨hanswer, hleft.unslotted, hleft.inStep⟩
  case next =>
    obtain ⟨hanswer, hleft⟩ := (callsAt_simulates s.height).next (hmirrors hs)
    simp only [Stream.callsBy, hfill] at hanswer hleft
    exact ⟨hanswer, hleft.unslotted, hleft.inStep⟩
  case remove =>
    obtain ⟨hanswer, hleft⟩ := (callsAt_simulates s.height).remove (hmirrors hs)
    exact ⟨hanswer, hleft.unslotted, hleft.inStep⟩

/-! ## Any calls -/

/-- Makes one call on a stream. -/
def call (s : SlottedStream) (c : Call) : Except Error Answer × SlottedStream := calls.call s c

/-- Makes calls on a stream one after the other, and collects the answers. -/
def run (s : SlottedStream) (cs : List Call) : List (Except Error Answer) × SlottedStream :=
  calls.run s cs

theorem InStep.call {s : SlottedStream} (hs : s.InStep) (c : Call) : (s.call c).2.InStep :=
  (calls_simulates.call ⟨rfl, hs⟩ c).2.2

/-- A run is that of the stream without slots. -/
theorem InStep.run_eq {s : SlottedStream} (hs : s.InStep) (cs : List Call) :
    (s.run cs).1 = (s.unslotted.run cs).1 :=
  (calls_simulates.run ⟨rfl, hs⟩ cs).1

/-- What can be put together and read: leaves and scans, composites and ancestor streams of what can
    be, at any depth, each part read on as far as it may be before, and the delegates that are taken
    back. -/
inductive Reachable : SlottedStream → Prop where
  | leaf (node : Option NodeId) (context : Context) (label : String) (entries : List Entry) :
      Reachable (.leaf node context label entries)
  | scan (node : Option NodeId) (label : String) (scanner : Scanner) :
      Reachable (.scan node label scanner .unread)
  | intersection {node : Option NodeId} {children : List SlottedStream} {s : SlottedStream}
      (parts : ∀ child ∈ children, Reachable child)
      (made : Stream.intersect node children = .ok s) : Reachable s
  | union {node : Option NodeId} {children : List SlottedStream} {s : SlottedStream}
      (parts : ∀ child ∈ children, Reachable child) (made : Stream.unite node children = .ok s) :
      Reachable s
  | ancestor {delegate : SlottedStream} (parent : Option NodeId) (part : Reachable delegate) :
      Reachable (delegate.dropDescendants parent)
  | undecorated {s : SlottedStream} (made : Reachable s) : Reachable s.undecorated
  | call {s : SlottedStream} (c : Call) (made : Reachable s) : Reachable (call s c).2

theorem Reachable.inStep {s : SlottedStream} (h : s.Reachable) : s.InStep := by
  induction h with
  | leaf node context label entries => exact .leaf node context label entries
  | scan node label scanner => exact .scan node label scanner .unread
  | @intersection node children s parts made ih =>
    unfold Stream.intersect at made
    split at made
    · cases made
    · split at made <;> cases made
      · exact .intersection node _ _ nofun ih
      · exact .intersection node _ _ (fun s hs => ih s (List.mem_filter.1 hs).1)
          fun s hs => ih s (List.mem_filter.1 hs).1
  | @union node children s parts made ih =>
    unfold Stream.unite at made
    split at made <;> cases made
    exact .union node _ _ _ fun s hs => ih s (List.mem_filter.1 hs).1
  | ancestor parent part ih => exact .ancestor parent ih nofun
  | @undecorated s made ih =>
    cases ih with
    | ancestor parent below shown => exact below
    | leaf | scan => constructor
    | intersection node context head filtered put =>
      exact .intersection node context head filtered put
    | union node context prunes head read => exact .union node context prunes head read
  | call c made ih => exact ih.call c

/-- Every stream, however it was put together and read, is a cursor over one trace, its entries and
    then its end or an error, whatever calls are made.  In particular what `next` answers does not
    depend on the other calls. -/
theorem Reachable.traced {s : SlottedStream} (h : s.Reachable) :
    ∃ t : Trace,
      (∀ calls, (s.run calls).1 = t.answers s.kindName 0 calls) ∧
      ∀ calls calls', calls.count .next = calls'.count .next →
        nextAnswers calls (s.run calls).1 = nextAnswers calls' (s.run calls').1 := by
  obtain ⟨t, hanswers, hnext⟩ := s.unslotted.run_eq_cursor
  rw [Stream.unslotted, Stream.kindName_mapSlots] at hanswers
  refine ⟨t, ?_, ?_⟩
  · intro calls
    rw [h.inStep.run_eq]
    exact hanswers calls
  · intro calls calls' hcount
    rw [h.inStep.run_eq, h.inStep.run_eq]
    exact hnext calls calls' hcount

/-- An ancestor stream over a source that pauses, after its first entry has been shown. -/
def sampleShown : SlottedStream :=
  let source : Scanner := .ofItems [.found (.ofUids "20240101_0" none ["a", "a.b"]), .pause,
    .found (.ofUids "20240102_0" none ["c"])]
  (call (Stream.dropDescendants (.scan none "source" source .unread) none) .peek).2

/-- That stream and a leaf. -/
def sampleParts : List SlottedStream :=
  [sampleShown, .leaf none .present "other" [⟨"20240103_0", .ofUids "20240103_0" none ["d"]⟩]]

/-- Their union, below an ancestor stream again. -/
def sampleNested : SlottedStream :=
  .ancestor (.union none .initialized true sampleParts .unread) none none

theorem reachable_sample : sampleNested.Reachable := by
  have hshown : sampleShown.Reachable := .call .peek (.ancestor none (.scan none "source" _))
  have hunion : Stream.unite none sampleParts =
      .ok (.union none .initialized true sampleParts .unread) := rfl
  have hparts : ∀ part ∈ sampleParts, Reachable part :=
    List.forall_mem_cons.2 ⟨hshown, List.forall_mem_singleton.2 (.leaf none .present "other" _)⟩
  exact .ancestor none (.union hparts hunion)

/-- In the sample the slot that is below the union is in use. -/
theorem traced_sample :
    (∃ delegate e, sampleShown = .ancestor delegate none (some e)) ∧ sampleNested.Reachable ∧
      ∃ t : Trace,
        (∀ calls, (sampleNested.run calls).1 = t.answers sampleNested.kindName 0 calls) ∧
        ∀ calls calls', calls.count .next = calls'.count .next →
          nextAnswers calls (sampleNested.run calls).1 =
            nextAnswers calls' (sampleNested.run calls').1 :=
  ⟨⟨_, _, rfl⟩, reachable_sample, reachable_sample.traced⟩

/-! ## Reading all entries -/

theorem drainWithin_simulates {calls : Calls SlottedStream} {calls' : Calls Stream}
    {R : SlottedStream → Stream → Prop} (h : calls.Simulates calls' R) (n : Nat)
    {s : SlottedStream} {t : Stream} (hst : R s t) :
    (calls.drainWithin n s).1 = (calls'.drainWithin n t).1 ∧
      R (calls.drainWithin n s).2 (calls'.drainWithin n t).2 := by
  induction n generalizing s t with
  | zero => exact ⟨rfl, hst⟩
  | succ n ih =>
    obtain ⟨hasNext, hasked⟩ := h.hasNext hst
    unfold Calls.drainWithin
    generalize calls.hasNext s = asked, calls'.hasNext t = asked' at hasNext hasked ⊢
    obtain ⟨answer, s'⟩ := asked
    obtain ⟨_, t'⟩ := asked'
    cases hasNext
    cases answer with
    | error error => exact ⟨rfl, hasked⟩
    | ok more =>
      cases more with
      | false => exact ⟨rfl, hasked⟩
      | true =>
        obtain ⟨hnext, hpassed⟩ := h.next hasked
        simp only
        generalize calls.next s' = passed, calls'.next t' = passed' at hnext hpassed ⊢
        obtain ⟨answer, s''⟩ := passed
        obtain ⟨_, t''⟩ := passed'
        cases hnext
        cases answer with
        | error error => exact ⟨rfl, hpassed⟩
        | ok e =>
          obtain ⟨hrest, hlast⟩ := ih hpassed
          exact ⟨congrArg (Except.map (e :: ·)) hrest, hlast⟩

theorem drainWithin_calls (n : Nat) (s : Stream) :
    Stream.calls.drainWithin n s = Stream.drainWithin n s := by
  induction n generalizing s with
  | zero => rfl
  | succ n ih =>
    rw [Calls.drainWithin, Stream.drainWithin]
    simp only [Stream.calls, Stream.callsBy]
    cases hhead : s.fill.head with
    | ready e =>
      simp only [hhead, Stream.fill_of_ready hhead]
      exact congrArg (fun r : Except Error (List Entry) × Stream => (r.1.map (e :: ·), r.2))
        (ih s.fill.pop)
    | unread | ended | failed error => rfl

/-- Reading all entries gives those of the stream without slots. -/
theorem InStep.drain_eq {s : SlottedStream} (hs : s.InStep) :
    s.drain.1 = s.unslotted.drain.1 := by
  rw [drain, Stream.drain, ← drainWithin_calls, Stream.unslotted, Stream.held_mapSlots]
  exact (drainWithin_simulates calls_simulates (Stream.held s + 1) ⟨rfl, hs⟩).1

/-- A stream that is given slots to be read with goes on as without them: it answers alike, whatever
    calls are made, takes the same sets out of its scanners, and yields the same entries. -/
theorem reads_alike (s : Stream) (cs : List Call) :
    (s.slotted.run cs).1 = (s.run cs).1 ∧ (s.slotted.run cs).2.tally = (s.run cs).2.tally ∧
      s.slotted.drain.1 = s.drain.1 := by
  have hs := inStep_slotted s
  obtain ⟨hanswers, hleft, -⟩ := calls_simulates.run ⟨s.unslotted_slotted, hs⟩ cs
  refine ⟨hanswers, ?_, ?_⟩
  · rw [show (s.run cs).2 = _ from hleft.symm, Stream.unslotted, Stream.tally_mapSlots]
    rfl
  · rw [hs.drain_eq, s.unslotted_slotted]

end SlottedStream

end ShardSearch
