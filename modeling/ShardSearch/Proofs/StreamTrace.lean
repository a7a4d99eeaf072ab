import ShardSearch.Proofs.Rounds
import ShardSearch.Stream.Make

/-!
# The trace of a stream

`Stream.trace` gives each stream its trace, in whatever state of reading it is.  Passing an entry
takes it off the trace (`pop_spec`).
-/

namespace ShardSearch

/-- The trace that begins with a head and goes on as given. -/
def Head.before : Head → Trace → Trace
  | unread, t => t
  | ready e, t => t.after (some e)
  | ended, _ => .stop none
  | failed error, _ => .stop (some error)

/-- The trace of the items a source will yield, when `last` is the last shard let through. -/
def Scanner.traceFrom (last : Option String) : List ScanItem → Trace
  | [] => .stop none
  | .pause :: _ => .stop none
  | .failure error :: _ => .stop (some error)
  | .found set :: rest =>
    match last with
    | none => (traceFrom (some set.shard) rest).after (some set.entry)
    | some shard =>
      if shard < set.shard then (traceFrom (some set.shard) rest).after (some set.entry)
      else .stop (some (.scannerNotAscending shard set.shard))

namespace Stream

mutual

/-- What a stream will yield from now on. -/
def trace : Stream → Trace
  | leaf _ _ _ entries => ⟨entries, none⟩
  | scan _ _ scanner head => head.before (Scanner.traceFrom scanner.last scanner.coming)
  | intersection node _ filters _ head => head.before (Trace.meet node (traceAll filters))
  | union node _ _ sources head => head.before (Trace.join node (traceAll sources))
  | ancestor delegate _ _ => (trace delegate).mapSets .removeOverlapping

/-- What each of some streams will yield. -/
def traceAll : List Stream → List Trace
  | [] => []
  | s :: rest => trace s :: traceAll rest

end

theorem traceAll_eq_map (ss : List Stream) : traceAll ss = ss.map trace := by
  induction ss with
  | nil => rfl
  | cons s rest ih => rw [traceAll, ih, List.map_cons]

theorem heldAll_cons (s : Stream) (ss : List Stream) : heldAll (s :: ss) = held s + heldAll ss := by
  rw [heldAll]

theorem heightAll_cons (s : Stream) (ss : List Stream) :
    heightAll (s :: ss) = max (height s) (heightAll ss) := by
  rw [heightAll]

theorem height_pos (s : Stream) : 0 < s.height := by
  cases s <;> rw [height] <;> omega

/-! ## Reading on -/

/-- `s'` is `s` read further: of the same height, and with no fewer entries held to spare. -/
structure Later (s s' : Stream) : Prop where
  height : s'.height = s.height
  size : s'.trace.size ≤ s.trace.size
  held : s'.held + s.trace.size ≤ s.held + s'.trace.size

/-- The streams of one list read further to those of another, as a whole. -/
structure AllLater (ss ss' : List Stream) : Prop where
  height : heightAll ss' = heightAll ss
  size : Trace.total (ss'.map trace) ≤ Trace.total (ss.map trace)
  held : heldAll ss' + Trace.total (ss.map trace) ≤ heldAll ss + Trace.total (ss'.map trace)

theorem Later.refl (s : Stream) : Later s s := ⟨rfl, Nat.le_refl _, Nat.le_refl _⟩

theorem Later.trans {s t u : Stream} (h : Later s t) (h' : Later t u) : Later s u := by
  refine ⟨h'.height.trans h.height, Nat.le_trans h'.size h.size, ?_⟩
  have := h.held
  have := h'.held
  omega

theorem AllLater.refl (ss : List Stream) : AllLater ss ss := ⟨rfl, Nat.le_refl _, Nat.le_refl _⟩

theorem AllLater.trans {ss ts us : List Stream} (h : AllLater ss ts) (h' : AllLater ts us) :
    AllLater ss us := by
  refine ⟨h'.height.trans h.height, Nat.le_trans h'.size h.size, ?_⟩
  have := h.held
  have := h'.held
  omega

theorem AllLater.cons {s s' : Stream} {ss ss' : List Stream} (h : Later s s')
    (hs : AllLater ss ss') : AllLater (s :: ss) (s' :: ss') := by
  obtain ⟨hheight, hsize, hheld⟩ := h
  obtain ⟨hheights, hsizes, hhelds⟩ := hs
  refine ⟨?_, ?_, ?_⟩
  · rw [heightAll_cons, heightAll_cons, hheight, hheights]
  · simp only [List.map_cons, Trace.total_cons]
    omega
  · simp only [List.map_cons, Trace.total_cons, heldAll_cons]
    omega

theorem AllLater.map {f : Stream → Stream} {ss : List Stream} (h : ∀ s ∈ ss, Later s (f s)) :
    AllLater ss (ss.map f) := by
  induction ss with
  | nil => exact AllLater.refl []
  | cons s ss ih =>
    exact .cons (h s List.mem_cons_self) (ih fun s hs => h s (List.mem_cons_of_mem _ hs))

/-- `s'` is `s` read up to the trace `t`, whose head it shows. -/
structure ReadsTo (s : Stream) (t : Trace) (s' : Stream) : Prop where
  trace : s'.trace = t
  head : s'.head = t.head
  later : Later s s'

/-- `fill` makes known the head of every stream of the given height at most, and leaves its trace
    as it is. -/
def ReadsBelow (fill : Stream → Stream) (height : Nat) : Prop :=
  ∀ s : Stream, s.height ≤ height → ReadsTo s s.trace (fill s)

/-! ## Passing an entry -/

theorem mapSet_eq_ready {f : MatchSet → MatchSet} {head : Head} {e : Entry}
    (h : head.mapSet f = .ready e) : ∃ e', head = .ready e' ∧ e = { e' with set := f e'.set } := by
  cases head with
  | ready e' => exact ⟨e', rfl, (Head.ready.inj h).symm⟩
  | unread | ended | failed error => cases h

/-- Passing a known head takes the first entry off the trace, and the stream holds one entry
    less. -/
theorem pop_spec : ∀ {s : Stream} {e : Entry}, s.head = .ready e →
    s.trace = s.pop.trace.after (some e) ∧ s.pop.held + 1 ≤ s.held ∧ s.pop.height = s.height
  | leaf _ _ _ (_ :: es), _, rfl => ⟨rfl, by simp [pop, held], rfl⟩
  | scan _ _ _ (.ready _), _, rfl => ⟨rfl, by simp [pop, held, Head.entry?], rfl⟩
  | intersection _ _ _ _ (.ready _), _, rfl =>
    ⟨by simp [pop, trace, Head.before], by simp [pop, held, Head.entry?], by simp [pop, height]⟩
  | union _ _ _ _ (.ready _), _, rfl =>
    ⟨by simp [pop, trace, Head.before], by simp [pop, held, Head.entry?], by simp [pop, height]⟩
  | ancestor delegate parent _, e, h => by
    obtain ⟨e', he', rfl⟩ := mapSet_eq_ready h
    obtain ⟨htrace, hheld, hheight⟩ := pop_spec he'
    refine ⟨?_, by simpa [pop, held] using hheld, by simpa [pop, height] using hheight⟩
    rw [trace, htrace]
    rfl

theorem trace_pop {s : Stream} {e : Entry} (h : s.head = .ready e) :
    s.pop.trace = s.trace.tail := by
  rw [(pop_spec h).1]
  rfl

theorem size_pop {s : Stream} {e : Entry} (h : s.head = .ready e) :
    s.pop.trace.size + 1 = s.trace.size := by
  rw [(pop_spec h).1]
  simp [Trace.size, Trace.after]

theorem later_pop {s : Stream} {e : Entry} (h : s.head = .ready e) : Later s s.pop := by
  obtain ⟨-, hheld, hheight⟩ := pop_spec h
  have hsize := size_pop h
  exact ⟨hheight, by omega, by omega⟩

end Stream

end ShardSearch
