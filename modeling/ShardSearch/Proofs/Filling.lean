import ShardSearch.Proofs.StreamTrace

/-!
# Filling a stream

The main result is `fill_readsTo`: filling a stream makes known the head of its trace and changes
nothing about the trace.  So every stream can be taken for a cursor over its trace.  A round of a
composite is matched by a round over the traces of its parts.
-/

namespace ShardSearch.Stream

variable {fill : Stream → Stream} {h : Nat}

/-- The stream shows the head of its trace. -/
def Shown (s : Stream) : Prop := s.head = s.trace.head

theorem ReadsTo.shown {s s' : Stream} {t : Trace} (hs : ReadsTo s t s') : Shown s' := by
  rw [Shown, hs.head, hs.trace]

theorem Shown.headShard? {s : Stream} (hs : Shown s) : s.headShard? = s.trace.headShard? := by
  rw [Stream.headShard?, Trace.headShard?, hs]

theorem Shown.setAt? {s : Stream} (hs : Shown s) (shard : String) :
    s.setAt? shard = s.trace.setAt? shard := by
  rw [Stream.setAt?, Trace.setAt?, hs]

/-- What is read off the heads of streams can be read off their traces. -/
theorem filterMap_trace {α : Type} {g : Stream → Option α} {g' : Trace → Option α}
    {ss : List Stream} (hg : ∀ s ∈ ss, g s = g' s.trace) :
    ss.filterMap g = (ss.map trace).filterMap g' := by
  induction ss with
  | nil => rfl
  | cons s ss ih =>
    rw [List.map_cons, List.filterMap_cons, List.filterMap_cons, hg s List.mem_cons_self,
      ih fun s hs => hg s (List.mem_cons_of_mem _ hs)]

theorem all_trace {p : Stream → Bool} {q : Trace → Bool} {ss : List Stream}
    (hp : ∀ s ∈ ss, p s = q s.trace) : ss.all p = (ss.map trace).all q := by
  induction ss with
  | nil => rfl
  | cons s ss ih =>
    rw [List.map_cons, List.all_cons, List.all_cons, hp s List.mem_cons_self,
      ih fun s hs => hp s (List.mem_cons_of_mem _ hs)]

/-- The head of a stream that holds a set at some shard. -/
theorem head_of_setAt? {s : Stream} {shard : String} (hset : (s.setAt? shard).isSome) :
    ∃ e, s.head = .ready e := by
  cases hhead : s.head with
  | ready e => exact ⟨e, rfl⟩
  | unread | ended | failed error => simp [Stream.setAt?, hhead, Head.entry?] at hset

theorem height_le_of_mem {s : Stream} {ss : List Stream} (hs : s ∈ ss) (hh : heightAll ss ≤ h) :
    s.height ≤ h :=
  Nat.le_trans (height_le_heightAll hs) hh

/-! ## Seeking -/

theorem seek_trace_of_lt {t : Trace} {e : Entry} {shard : String} (hhead : t.head = .ready e)
    (hlt : e.shard < shard) : t.seek shard = t.tail.seek shard := by
  obtain ⟨_ | ⟨e', es⟩, fault⟩ := t
  · cases fault <;> cases hhead
  · cases hhead
    exact Trace.seek_cons_of_lt hlt

theorem seek_trace_of_not_lt {t : Trace} {shard : String}
    (hhead : t.headShard?.any (· < shard) = false) : t.seek shard = t := by
  obtain ⟨_ | ⟨e, es⟩, fault⟩ := t
  · rfl
  · exact Trace.seek_cons_of_not_lt (of_decide_eq_false hhead)

theorem seekWithin_readsTo (hfill : ReadsBelow fill h) (shard : String) (n : Nat) (s : Stream)
    (hh : s.height ≤ h) (hn : s.held ≤ n) :
    ReadsTo s (s.trace.seek shard) (seekWithin fill shard n s) := by
  induction n generalizing s with
  | zero =>
    obtain ⟨htrace, hhead, hlater⟩ := hfill s hh
    have hstop : s.trace.headShard?.any (· < shard) = false := by
      cases hready : s.trace.head with
      | unread | ended | failed error => simp [Trace.headShard?, hready, Head.entry?]
      | ready e =>
        have hheld := (pop_spec (hhead.trans hready)).2.1
        have hmore := hlater.held
        rw [htrace] at hmore
        omega
    rw [seek_trace_of_not_lt hstop]
    exact ⟨htrace, hhead, hlater⟩
  | succ n ih =>
    obtain ⟨htrace, hhead, hlater⟩ := hfill s hh
    have hshown : Shown (fill s) := (hfill s hh).shown
    have hshard : (fill s).headShard? = s.trace.headShard? := by rw [hshown.headShard?, htrace]
    simp only [seekWithin]
    split
    · next hlt =>
      obtain ⟨e, hready, hes⟩ : ∃ e, (fill s).head = .ready e ∧ e.shard < shard := by
        cases hready : (fill s).head with
        | ready e =>
          refine ⟨e, rfl, ?_⟩
          simpa [Stream.headShard?, hready, Head.entry?] using hlt
        | unread | ended | failed error =>
          simp [Stream.headShard?, hready, Head.entry?] at hlt
      have hpop := later_pop hready
      have hheld := (pop_spec hready).2.1
      have hmore := hlater.held
      rw [htrace] at hmore
      have hrec := ih (fill s).pop (by rw [hpop.height, hlater.height]; exact hh) (by omega)
      rw [trace_pop hready, htrace, ← seek_trace_of_lt (hhead ▸ hready) hes] at hrec
      exact ⟨hrec.trace, hrec.head, hlater.trans (hpop.trans hrec.later)⟩
    · next hstop =>
      rw [seek_trace_of_not_lt (by rw [← hshard]; simpa using hstop)]
      exact ⟨htrace, hhead, hlater⟩

theorem seek_readsTo (hfill : ReadsBelow fill h) (shard : String) (s : Stream) (hh : s.height ≤ h) :
    ReadsTo s (s.trace.seek shard) (seek fill shard s) :=
  seekWithin_readsTo hfill shard s.held s hh (Nat.le_refl _)

/-! ## Sweeping -/

/-- The ways a sweep ends, if each step reads its stream to the trace that `f` makes of its own. -/
inductive SweepCase (step : Stream → Stream) (f : Trace → Trace) (stop : Head → Bool)
    (ss : List Stream) : Option Head × List Stream → Prop where
  /-- The first trace whose head satisfies `stop` stops the sweep. -/
  | stopped (t : Trace) (ss' : List Stream)
      (first : ((ss.map trace).map f).find? (fun t => stop t.head) = some t)
      (met : stop t.head = true) (later : AllLater ss ss') :
      SweepCase step f stop ss (some t.head, ss')
  /-- Every stream is stepped. -/
  | through (unmet : ((ss.map trace).map f).find? (fun t => stop t.head) = none)
      (later : AllLater ss (ss.map step))
      (traces : (ss.map step).map trace = (ss.map trace).map f)
      (shown : ∀ s ∈ ss.map step, Shown s) : SweepCase step f stop ss (none, ss.map step)

theorem sweep_cases {step : Stream → Stream} {f : Trace → Trace} (stop : Head → Bool)
    {ss : List Stream} (hstep : ∀ s ∈ ss, ReadsTo s (f s.trace) (step s)) :
    SweepCase step f stop ss (sweep step stop ss) := by
  induction ss with
  | nil => exact .through rfl (AllLater.refl []) rfl fun s hs => nomatch hs
  | cons s ss ih =>
    obtain ⟨htrace, hhead, hlater⟩ := hstep s List.mem_cons_self
    have hrest := ih fun s hs => hstep s (List.mem_cons_of_mem _ hs)
    simp only [sweep, hhead]
    cases hstop : stop (f s.trace).head with
    | true =>
      exact .stopped (f s.trace) (step s :: ss) (by simp [hstop]) hstop
        (.cons hlater (AllLater.refl ss))
    | false =>
      generalize sweep step stop ss = swept at hrest
      cases hrest with
      | stopped t ss' first met later =>
        exact .stopped t (step s :: ss') (by simpa [hstop] using first) met (.cons hlater later)
      | through unmet later traces shown =>
        refine .through (by simpa [hstop] using unmet) (.cons hlater later) ?_ ?_
        · rw [List.map_cons, List.map_cons, List.map_cons, List.map_cons, htrace, traces]
        · intro s' hs'
          rcases List.mem_cons.1 hs' with rfl | hs'
          · exact (hstep s List.mem_cons_self).shown
          · exact shown s' hs'

/-! ## Rounds -/

/-- A round of a composite comes to what a round over the traces of its parts comes to. -/
inductive RoundMakes : Round → Trace.Move → Prop where
  | ended (parts : List Stream) : RoundMakes (.settled .ended parts) (.stop none)
  | failed (error : Error) (parts : List Stream) :
      RoundMakes (.settled (.failed error) parts) (.stop (some error))
  | ready (e : Entry) (parts : List Stream) :
      RoundMakes (.settled (.ready e) parts) (.pass (some e) (parts.map trace))
  | again (parts : List Stream) : RoundMakes (.again parts) (.pass none (parts.map trace))

/-- The parts after a round. -/
def Round.parts : Round → List Stream
  | .settled _ parts => parts
  | .again parts => parts

theorem makes_of_over {t : Trace} (hover : t.head.isOver = true) (parts : List Stream) :
    RoundMakes (.settled t.head parts) (.stop t.fault) := by
  obtain ⟨_ | ⟨e, es⟩, _ | error⟩ := t
  · exact .ended parts
  · exact .failed error parts
  · cases hover
  · cases hover

theorem makes_of_entryOf (shard : String) (set : MatchSet) (parts : List Stream) :
    RoundMakes
      (if set.matchesNothing then .again parts else .settled (.ready ⟨shard, set⟩) parts)
      (.pass (Trace.entryOf shard set) (parts.map trace)) := by
  unfold Trace.entryOf
  split
  · exact .again parts
  · exact .ready ⟨shard, set⟩ parts

/-- Popping parts that all show an entry. -/
theorem pop_parts {ss : List Stream} (hready : ∀ s ∈ ss, ∃ e, s.head = .ready e) :
    AllLater ss (ss.map pop) ∧ (ss.map pop).map trace = (ss.map trace).map Trace.tail := by
  refine ⟨AllLater.map ?_, ?_⟩
  · intro s hs
    obtain ⟨e, he⟩ := hready s hs
    exact later_pop he
  · rw [List.map_map, List.map_map]
    apply List.map_congr_left
    intro s hs
    obtain ⟨e, he⟩ := hready s hs
    exact trace_pop he

/-- The second half of a round of an intersection: lining the parts up at `shard`. -/
theorem align_spec (hfill : ReadsBelow fill h) (node : Option NodeId) (shard : String)
    {parts : List Stream} (hh : heightAll parts ≤ h) {round : Round}
    (hround : round = match sweep (seek fill shard) Head.isOver parts with
      | (some head, parts) => .settled head parts
      | (none, parts) =>
        if parts.all (fun s => (s.setAt? shard).isSome) then
          let set := MatchSet.intersect shard node (parts.filterMap (setAt? shard))
          if set.matchesNothing then .again (parts.map pop)
          else .settled (.ready ⟨shard, set⟩) (parts.map pop)
        else .again parts) :
    RoundMakes round (Trace.consume node shard ((parts.map trace).map (Trace.seek shard))) ∧
      AllLater parts round.parts := by
  have hread : ∀ s ∈ parts, ReadsTo s (s.trace.seek shard) (seek fill shard s) := by
    intro s hs
    exact seek_readsTo hfill shard s (height_le_of_mem hs hh)
  have hcase := sweep_cases Head.isOver hread
  subst hround
  unfold Trace.consume
  generalize sweep (seek fill shard) Head.isOver parts = swept at hcase ⊢
  cases hcase with
  | stopped t parts' first met hlater =>
    rw [first]
    exact ⟨makes_of_over met parts', hlater⟩
  | through unmet hlater htraces hshown =>
    rw [unmet]
    have hset : ∀ s ∈ parts.map (seek fill shard), s.setAt? shard = s.trace.setAt? shard := by
      intro s hs
      exact (hshown s hs).setAt? shard
    have hall := all_trace (q := fun t => (t.setAt? shard).isSome)
      fun s hs => congrArg Option.isSome (hset s hs)
    simp only [hall, filterMap_trace hset, ← htraces]
    split
    · next haligned =>
      have hready : ∀ s ∈ parts.map (seek fill shard), ∃ e, s.head = .ready e := by
        intro s hs
        apply head_of_setAt?
        rw [hset s hs]
        exact List.all_eq_true.1 haligned _ (List.mem_map_of_mem hs)
      obtain ⟨hpop, htail⟩ := pop_parts hready
      rw [← htail]
      refine ⟨makes_of_entryOf shard _ _, ?_⟩
      split <;> exact hlater.trans hpop
    · exact ⟨.again _, hlater⟩

theorem meetRound_spec (hfill : ReadsBelow fill h) (node : Option NodeId) {parts : List Stream}
    (hh : heightAll parts ≤ h) :
    RoundMakes (meetRound fill node parts) (Trace.meetMove node (parts.map trace)) ∧
      AllLater parts (meetRound fill node parts).parts := by
  have hread : ∀ s ∈ parts, ReadsTo s (id s.trace) (fill s) := by
    intro s hs
    exact hfill s (height_le_of_mem hs hh)
  have hcase := sweep_cases Head.isOver hread
  unfold meetRound Trace.meetMove
  generalize sweep fill Head.isOver parts = swept at hcase ⊢
  cases hcase with
  | stopped t parts' first met hlater =>
    rw [List.map_id] at first
    rw [first]
    exact ⟨makes_of_over met parts', hlater⟩
  | through unmet hlater htraces hshown =>
    rw [List.map_id] at unmet htraces
    rw [unmet]
    simp only [filterMap_trace fun s hs => (hshown s hs).headShard?, htraces]
    cases greatest ((parts.map trace).filterMap Trace.headShard?) with
    | none => exact ⟨.ended _, hlater⟩
    | some shard =>
      have hh' : heightAll (parts.map fill) ≤ h := by rw [hlater.height]; exact hh
      obtain ⟨hmakes, halign⟩ := align_spec hfill node shard hh' rfl
      rw [htraces] at hmakes
      exact ⟨hmakes, hlater.trans halign⟩

/-- Popping those of some parts that show an entry at `shard`. -/
theorem leave_parts (shard : String) {ss : List Stream} (hs : ∀ s ∈ ss, Shown s) :
    AllLater ss (ss.map fun s => if (s.setAt? shard).isSome then s.pop else s) ∧
      (ss.map fun s => if (s.setAt? shard).isSome then s.pop else s).map trace =
        (ss.map trace).map (Trace.leave shard) := by
  have hleave : ∀ s ∈ ss, Later s (if (s.setAt? shard).isSome then s.pop else s) ∧
      (if (s.setAt? shard).isSome then s.pop else s).trace = s.trace.leave shard := by
    intro s hmem
    rw [Trace.leave, ← (hs s hmem).setAt? shard]
    split
    · next hset =>
      obtain ⟨e, he⟩ := head_of_setAt? hset
      exact ⟨later_pop he, trace_pop he⟩
    · exact ⟨Later.refl s, rfl⟩
  refine ⟨AllLater.map fun s hmem => (hleave s hmem).1, ?_⟩
  rw [List.map_map, List.map_map]
  exact List.map_congr_left fun s hmem => (hleave s hmem).2

theorem joinRound_spec (hfill : ReadsBelow fill h) (node : Option NodeId) {parts : List Stream}
    (hh : heightAll parts ≤ h) :
    RoundMakes (joinRound fill node parts) (Trace.joinMove node (parts.map trace)) ∧
      AllLater parts (joinRound fill node parts).parts := by
  have hread : ∀ s ∈ parts, ReadsTo s (id s.trace) (fill s) := by
    intro s hs
    exact hfill s (height_le_of_mem hs hh)
  have hcase := sweep_cases Head.isFailure hread
  unfold joinRound Trace.joinMove
  generalize sweep fill Head.isFailure parts = swept at hcase ⊢
  cases hcase with
  | stopped t parts' first met hlater =>
    rw [List.map_id] at first
    rw [first]
    exact ⟨makes_of_over (Head.isOver_of_isFailure met) parts', hlater⟩
  | through unmet hlater htraces hshown =>
    rw [List.map_id] at unmet htraces
    rw [unmet]
    simp only [filterMap_trace fun s hs => (hshown s hs).headShard?, htraces]
    cases least ((parts.map trace).filterMap Trace.headShard?) with
    | none => exact ⟨.ended _, hlater⟩
    | some shard =>
      obtain ⟨hleave, hleft⟩ := leave_parts shard hshown
      rw [htraces] at hleft
      simp only [filterMap_trace fun s hs => (hshown s hs).setAt? shard, htraces, ← hleft]
      refine ⟨makes_of_entryOf shard _ _, ?_⟩
      split <;> exact hlater.trans hleave

/-! ## Going through rounds -/

/-- `head` and `parts'` are what is found by settling `parts`, a composite of the given trace. -/
structure SettlesTo (move : List Trace → Trace.Move) (parts : List Stream) (head : Head)
    (parts' : List Stream) : Prop where
  head_eq : head = (Trace.unroll move (parts.map trace)).head
  trace_eq :
    head.before (Trace.unroll move (parts'.map trace)) = Trace.unroll move (parts.map trace)
  height_eq : heightAll parts' = heightAll parts
  held_le : heldAll parts' + head.entry?.toList.length ≤ heldAll parts

variable {round : List Stream → Round} {move : List Trace → Trace.Move}

theorem settleWithin_spec
    (hround : ∀ parts, heightAll parts ≤ h →
      RoundMakes (round parts) (move (parts.map trace)) ∧ AllLater parts (round parts).parts)
    (hmove : Trace.Shrinks move) (n : Nat) (parts : List Stream) (hh : heightAll parts ≤ h)
    (hn : heldAll parts < n) :
    SettlesTo move parts (settleWithin round n parts).1 (settleWithin round n parts).2 := by
  induction n generalizing parts with
  | zero => omega
  | succ n ih =>
    obtain ⟨hmakes, hlater⟩ := hround parts hh
    have hunroll := Trace.unroll_eq hmove (parts.map trace)
    obtain ⟨hheight, hsize, hheld⟩ := hlater
    unfold settleWithin
    cases hr : round parts with
    | settled head parts' =>
      rw [hr] at hmakes hheight hsize hheld
      simp only [Round.parts] at hheight hsize hheld
      generalize hm : move (parts.map trace) = m at hmakes hunroll
      cases hmakes with
      | ended | failed error =>
        refine ⟨by rw [hunroll]; rfl, by rw [hunroll]; rfl, hheight, ?_⟩
        show heldAll parts' + 0 ≤ heldAll parts
        omega
      | ready e =>
        have hlt := hmove _ _ _ hm
        refine ⟨by rw [hunroll]; rfl, by rw [hunroll]; rfl, hheight, ?_⟩
        show heldAll parts' + 1 ≤ heldAll parts
        omega
    | again parts' =>
      rw [hr] at hmakes hheight hsize hheld
      simp only [Round.parts] at hheight hsize hheld
      generalize hm : move (parts.map trace) = m at hmakes hunroll
      cases hmakes with
      | again =>
        have hlt := hmove _ _ _ hm
        obtain ⟨hhead, htrace, hheight', hheld'⟩ := ih parts' (by omega) (by omega)
        simp only [Trace.after_none] at hunroll
        rw [← hunroll] at hhead htrace
        exact ⟨hhead, htrace, hheight'.trans hheight, Nat.le_trans hheld' (by omega)⟩

theorem settle_spec
    (hround : ∀ parts, heightAll parts ≤ h →
      RoundMakes (round parts) (move (parts.map trace)) ∧ AllLater parts (round parts).parts)
    (hmove : Trace.Shrinks move) {parts : List Stream} (hh : heightAll parts ≤ h) :
    SettlesTo move parts (settle round parts).1 (settle round parts).2 :=
  settleWithin_spec hround hmove (heldAll parts + 1) parts hh (Nat.lt_succ_self _)

/-! ## Filling -/

theorem readsTo_self {s : Stream} (hs : Shown s) : ReadsTo s s.trace s := ⟨rfl, hs, Later.refl s⟩

theorem readsTo_of_trace {s s' : Stream} (htrace : s'.trace = s.trace) (hshown : Shown s')
    (hheight : s'.height = s.height) (hheld : s'.held ≤ s.held) : ReadsTo s s.trace s' :=
  ⟨htrace, by rw [hshown, htrace], hheight, Nat.le_of_eq (by rw [htrace]), by rw [htrace]; omega⟩

theorem head_before {head : Head} (hknown : head ≠ .unread) (t : Trace) :
    (head.before t).head = head := by
  cases head with
  | unread => exact absurd rfl hknown
  | ready e | ended | failed error => rfl

/-- Taking one item out of a source makes known the head of what it will yield. -/
theorem pull_spec {scanner scanner' : Scanner} {head : Head} (h : scanner.pull = (head, scanner')) :
    head = (Scanner.traceFrom scanner.last scanner.coming).head ∧
      head.before (Scanner.traceFrom scanner'.last scanner'.coming) =
        Scanner.traceFrom scanner.last scanner.coming ∧
      scanner'.coming.length + head.entry?.toList.length ≤ scanner.coming.length := by
  obtain ⟨coming, last, tally⟩ := scanner
  cases coming with
  | nil =>
    cases h
    exact ⟨rfl, rfl, Nat.le_refl _⟩
  | cons item rest =>
    cases item with
    | pause | failure error =>
      cases h
      exact ⟨rfl, rfl, by simp [Head.entry?]⟩
    | found set =>
      cases last with
      | none =>
        cases h
        exact ⟨rfl, rfl, Nat.le_refl _⟩
      | some shard =>
        simp only [Scanner.pull] at h
        simp only [Scanner.traceFrom]
        split at h
        · next hlt =>
          cases h
          rw [if_pos hlt]
          exact ⟨rfl, rfl, Nat.le_refl _⟩
        · next hlt =>
          cases h
          rw [if_neg hlt]
          exact ⟨rfl, rfl, by simp [Head.entry?]⟩

theorem shown_scan {node : Option NodeId} {label : String} {scanner : Scanner} {head : Head}
    (hknown : head ≠ .unread) : Shown (scan node label scanner head) := by
  simp [Shown, trace, Stream.head, head_before hknown]

theorem shown_intersection {node : Option NodeId} {context : Context}
    {filters deferred : List Stream} {head : Head} (hknown : head ≠ .unread) :
    Shown (intersection node context filters deferred head) := by
  simp [Shown, trace, Stream.head, head_before hknown]

theorem shown_union {node : Option NodeId} {context : Context} {prunes : Bool}
    {sources : List Stream} {head : Head} (hknown : head ≠ .unread) :
    Shown (union node context prunes sources head) := by
  simp [Shown, trace, Stream.head, head_before hknown]

theorem SettlesTo.known {parts parts' : List Stream} {head : Head}
    (hs : SettlesTo move parts head parts') : head ≠ .unread := by
  rw [hs.head_eq]
  exact Trace.head_ne_unread _

theorem fillAt_scan (node : Option NodeId) (label : String) (scanner : Scanner) :
    fillAt (h + 1) (scan node label scanner .unread) =
      scan node label scanner.pull.2 scanner.pull.1 := rfl

theorem fillAt_intersection (node : Option NodeId) (context : Context)
    (filters deferred : List Stream) :
    fillAt (h + 1) (intersection node context filters deferred .unread) =
      intersection node context (settle (meetRound (fillAt h) node) filters).2 deferred
        (settle (meetRound (fillAt h) node) filters).1 := rfl

theorem fillAt_union (node : Option NodeId) (context : Context) (prunes : Bool)
    (sources : List Stream) :
    fillAt (h + 1) (union node context prunes sources .unread) =
      union node context prunes (settle (joinRound (fillAt h) node) sources).2
        (settle (joinRound (fillAt h) node) sources).1 := rfl

theorem fillAt_readsTo_scan (node : Option NodeId) (label : String) (scanner : Scanner) :
    ReadsTo (scan node label scanner .unread) (scan node label scanner .unread).trace
      (fillAt (h + 1) (scan node label scanner .unread)) := by
  obtain ⟨hhead, htrace, hheld⟩ := pull_spec (Prod.eta scanner.pull).symm
  have hknown : scanner.pull.1 ≠ .unread := by
    rw [hhead]
    exact Trace.head_ne_unread _
  rw [fillAt_scan]
  exact readsTo_of_trace htrace (shown_scan hknown) rfl (by simpa [held, Head.entry?] using hheld)

section Composites

variable (hfill : ReadsBelow (fillAt h) h)

include hfill

theorem fillAt_readsTo_intersection (node : Option NodeId) (context : Context)
    {filters : List Stream} (deferred : List Stream) (hfilters : heightAll filters ≤ h) :
    ReadsTo (intersection node context filters deferred .unread)
      (intersection node context filters deferred .unread).trace
      (fillAt (h + 1) (intersection node context filters deferred .unread)) := by
  have hsettle := settle_spec (fun _ hh => meetRound_spec hfill node hh)
    (Trace.shrinks_meetMove node) hfilters
  rw [fillAt_intersection]
  refine readsTo_of_trace ?_ (shown_intersection hsettle.known) ?_ ?_
  · rw [trace, trace, traceAll_eq_map, traceAll_eq_map]
    exact hsettle.trace_eq
  · rw [height, height, hsettle.height_eq]
  · simpa [held, Head.entry?] using hsettle.held_le

theorem fillAt_readsTo_union (node : Option NodeId) (context : Context) (prunes : Bool)
    {sources : List Stream} (hsources : heightAll sources ≤ h) :
    ReadsTo (union node context prunes sources .unread)
      (union node context prunes sources .unread).trace
      (fillAt (h + 1) (union node context prunes sources .unread)) := by
  have hsettle := settle_spec (fun _ hh => joinRound_spec hfill node hh)
    (Trace.shrinks_joinMove node) hsources
  rw [fillAt_union]
  refine readsTo_of_trace ?_ (shown_union hsettle.known) ?_ ?_
  · rw [trace, trace, traceAll_eq_map, traceAll_eq_map]
    exact hsettle.trace_eq
  · rw [height, height, hsettle.height_eq]
  · simpa [held, Head.entry?] using hsettle.held_le

theorem fillAt_readsTo_ancestor {delegate : Stream} (parent : Option NodeId)
    (hdelegate : delegate.height ≤ h) :
    ReadsTo (ancestor delegate parent ()) (ancestor delegate parent ()).trace
      (fillAt (h + 1) (ancestor delegate parent ())) := by
  obtain ⟨htrace, hhead, hheight, hsize, hheld⟩ := hfill delegate hdelegate
  rw [htrace] at hheld
  refine readsTo_of_trace ?_ ?_ ?_ ?_
  · rw [fillAt, trace, trace, htrace]
  · rw [fillAt, Shown, trace, Stream.head, htrace, hhead, Trace.head_mapSets]
  · rw [fillAt, height, height, hheight]
  · rw [fillAt, held, held]
    omega

end Composites

/-- Filling reads every stream that is not too high. -/
theorem fillAt_readsBelow (h : Nat) : ReadsBelow (fillAt h) h := by
  induction h with
  | zero =>
    intro s hs
    have := height_pos s
    omega
  | succ h ih =>
    intro s hs
    cases s with
    | leaf node context label entries => exact readsTo_self (by cases entries <;> rfl)
    | scan node label scanner head =>
      cases head with
      | unread => exact fillAt_readsTo_scan node label scanner
      | ready e | ended | failed error => exact readsTo_self rfl
    | intersection node context filters deferred head =>
      cases head with
      | unread =>
        rw [height] at hs
        exact fillAt_readsTo_intersection ih node context deferred (by omega)
      | ready e | ended | failed error => exact readsTo_self rfl
    | union node context prunes sources head =>
      cases head with
      | unread =>
        rw [height] at hs
        exact fillAt_readsTo_union ih node context prunes (by omega)
      | ready e | ended | failed error => exact readsTo_self rfl
    | ancestor delegate parent slot =>
      rw [height] at hs
      exact fillAt_readsTo_ancestor ih parent (by omega)

/-- Filling a stream makes known the head of its trace, and leaves the trace as it is. -/
theorem fill_readsTo (s : Stream) : ReadsTo s s.trace s.fill :=
  fillAt_readsBelow s.height s (Nat.le_refl _)

end ShardSearch.Stream
