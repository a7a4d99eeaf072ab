import ShardSearch.Proofs.Answers
import ShardSearch.Proofs.Loops

/-!
# Streams without descendants

An ancestor stream answers as its delegate does, but for the sets of the entries it hands out.  A
`Decorator` reads a stream to the same effect in another way: it keeps the entry it has shown until
that entry is passed, while the delegate, which has an entry of its own prepared, goes on to hold
it.  `dropDescendants_simulates` says that the two slots stay in step whatever is asked, and that
the delegate can be taken back at any time without an entry being lost or repeated.
-/

namespace ShardSearch

/-- What can be asked of a stream: what it says of its predicate, or a call of its reader. -/
inductive Question where
  | context
  | node
  | canPrune
  | deferredNodes
  | read (c : Call)
  deriving DecidableEq

/-- What is replied to a question. -/
inductive Reply where
  | context (context : Context)
  | node (node : Option NodeId)
  | canPrune (prunes : Bool)
  | deferredNodes (nodes : List NodeId)
  | read (answer : Except Error Answer)

/-- Applies `f` to the set of the entry that an answer hands out. -/
def Answer.mapSet (f : MatchSet → MatchSet) : Answer → Answer
  | entry e => entry { e with set := f e.set }
  | answer => answer

/-- Applies `f` to the set of the entry that a reply hands out. -/
def Reply.mapSet (f : MatchSet → MatchSet) : Reply → Reply
  | read answer => read (answer.map (Answer.mapSet f))
  | reply => reply

/-- Asks one question after the other, and collects the replies. -/
def converse {α : Type} (ask : α → Question → Reply × α) (a : α) : List Question → List Reply × α
  | [] => ([], a)
  | q :: qs => ((ask a q).1 :: (converse ask (ask a q).2 qs).1, (converse ask (ask a q).2 qs).2)

/-- If each reply of one party is that of the other with `f` applied to its set, and the relation
    between the two is kept, then this goes for all replies. -/
theorem converse_simulates {α β : Type} (ask : α → Question → Reply × α)
    (ask' : β → Question → Reply × β) (R : α → β → Prop) (f : MatchSet → MatchSet)
    (hstep : ∀ a b q, R a b → (ask' b q).1 = (ask a q).1.mapSet f ∧ R (ask a q).2 (ask' b q).2)
    {a : α} {b : β} (h : R a b) (qs : List Question) :
    (converse ask' b qs).1 = (converse ask a qs).1.map (Reply.mapSet f) ∧
      R (converse ask a qs).2 (converse ask' b qs).2 := by
  induction qs generalizing a b with
  | nil => exact ⟨rfl, h⟩
  | cons q qs ih =>
    obtain ⟨hreply, hnext⟩ := hstep a b q h
    obtain ⟨hreplies, hlast⟩ := ih hnext
    refine ⟨?_, hlast⟩
    simp only [converse, List.map_cons, hreply, hreplies]

/-- The call that a question is, if it is one. -/
def Question.call? : Question → Option Call
  | read c => some c
  | context | node | canPrune | deferredNodes => none

/-- The entry that a reply to a call of `next` hands out, if it does. -/
def Reply.passed? : Question → Reply → Option Entry
  | .read c, read answer => Stream.handedOut c answer
  | _, _ => none

/-- The entries that replies to calls of `next` hand out. -/
def passed (qs : List Question) (replies : List Reply) : List Entry :=
  (qs.zip replies).filterMap fun (q, reply) => reply.passed? q

namespace Stream

/-- Asks a question. -/
def ask (s : Stream) : Question → Reply × Stream
  | .context => (.context s.context, s)
  | .node => (.node s.node, s)
  | .canPrune => (.canPrune s.canPrune, s)
  | .deferredNodes => (.deferredNodes s.deferredNodes, s)
  | .read c => (.read (s.call c).1, (s.call c).2)

/-- A stream that has an entry prepared has nothing to look for. -/
theorem fill_of_ready {s : Stream} {e : Entry} (h : s.head = .ready e) : s.fill = s := by
  have hknown : s.head ≠ .unread := by
    simp [h]
  exact fillAt_of_known s.height hknown

end Stream

/-! ## Calls that are answered alike -/

namespace Calls

variable {σ τ : Type}

/-- Each call on `s` is answered as that on `t` which it is related to, and leaves the two
    related. -/
structure Simulates (calls : Calls σ) (calls' : Calls τ) (R : σ → τ → Prop) : Prop where
  hasNext : ∀ {s t}, R s t → (calls.hasNext s).1 = (calls'.hasNext t).1 ∧
    R (calls.hasNext s).2 (calls'.hasNext t).2
  peek : ∀ {s t}, R s t → (calls.peek s).1 = (calls'.peek t).1 ∧
    R (calls.peek s).2 (calls'.peek t).2
  next : ∀ {s t}, R s t → (calls.next s).1 = (calls'.next t).1 ∧
    R (calls.next s).2 (calls'.next t).2
  remove : ∀ {s t}, R s t → (calls.remove s).1 = (calls'.remove t).1 ∧
    R (calls.remove s).2 (calls'.remove t).2

theorem simulates_self (calls : Calls σ) : calls.Simulates calls Eq := by
  constructor <;> rintro s _ rfl <;> exact ⟨rfl, rfl⟩

theorem Simulates.trans {υ : Type} {calls : Calls σ} {calls' : Calls τ} {calls'' : Calls υ}
    {R : σ → τ → Prop} {R' : τ → υ → Prop} (h : calls.Simulates calls' R)
    (h' : calls'.Simulates calls'' R') :
    calls.Simulates calls'' fun s u => ∃ t, R s t ∧ R' t u := by
  constructor <;> rintro s u ⟨t, hst, htu⟩
  case hasNext =>
    obtain ⟨hanswer, hnext⟩ := h.hasNext hst
    obtain ⟨hanswer', hnext'⟩ := h'.hasNext htu
    exact ⟨hanswer.trans hanswer', _, hnext, hnext'⟩
  case peek =>
    obtain ⟨hanswer, hnext⟩ := h.peek hst
    obtain ⟨hanswer', hnext'⟩ := h'.peek htu
    exact ⟨hanswer.trans hanswer', _, hnext, hnext'⟩
  case next =>
    obtain ⟨hanswer, hnext⟩ := h.next hst
    obtain ⟨hanswer', hnext'⟩ := h'.next htu
    exact ⟨hanswer.trans hanswer', _, hnext, hnext'⟩
  case remove =>
    obtain ⟨hanswer, hnext⟩ := h.remove hst
    obtain ⟨hanswer', hnext'⟩ := h'.remove htu
    exact ⟨hanswer.trans hanswer', _, hnext, hnext'⟩

theorem Simulates.call {calls : Calls σ} {calls' : Calls τ} {R : σ → τ → Prop}
    (h : calls.Simulates calls' R) {s : σ} {t : τ} (hst : R s t) (c : Call) :
    (calls.call s c).1 = (calls'.call t c).1 ∧ R (calls.call s c).2 (calls'.call t c).2 := by
  cases c with
  | hasNext =>
    obtain ⟨hanswer, hstate⟩ := h.hasNext hst
    exact ⟨by rw [Calls.call, Calls.call, hanswer], hstate⟩
  | peek =>
    obtain ⟨hanswer, hstate⟩ := h.peek hst
    exact ⟨by rw [Calls.call, Calls.call, hanswer], hstate⟩
  | next =>
    obtain ⟨hanswer, hstate⟩ := h.next hst
    exact ⟨by rw [Calls.call, Calls.call, hanswer], hstate⟩
  | remove =>
    obtain ⟨hanswer, hstate⟩ := h.remove hst
    exact ⟨by rw [Calls.call, Calls.call, hanswer], hstate⟩

theorem Simulates.run {calls : Calls σ} {calls' : Calls τ} {R : σ → τ → Prop}
    (h : calls.Simulates calls' R) {s : σ} {t : τ} (hst : R s t) (cs : List Call) :
    (calls.run s cs).1 = (calls'.run t cs).1 ∧ R (calls.run s cs).2 (calls'.run t cs).2 := by
  induction cs generalizing s t with
  | nil => exact ⟨rfl, hst⟩
  | cons c cs ih =>
    obtain ⟨hanswer, hnext⟩ := h.call hst c
    obtain ⟨hanswers, hlast⟩ := ih hnext
    exact ⟨by rw [Calls.run, Calls.run, hanswer, hanswers], hlast⟩

/-- The calls with the descendants dropped from each entry that is handed out. -/
def dropping (calls : Calls σ) : Calls σ where
  hasNext := calls.hasNext
  peek s := ((calls.peek s).1.map fun e => { e with set := e.set.removeOverlapping },
    (calls.peek s).2)
  next s := ((calls.next s).1.map fun e => { e with set := e.set.removeOverlapping },
    (calls.next s).2)
  remove := calls.remove

theorem call_dropping (calls : Calls σ) (s : σ) (c : Call) :
    calls.dropping.call s c =
      ((calls.call s c).1.map (Answer.mapSet .removeOverlapping), (calls.call s c).2) := by
  cases c with
  | hasNext =>
    simp only [call, dropping]
    cases (calls.hasNext s).1 <;> rfl
  | peek =>
    simp only [call, dropping]
    cases (calls.peek s).1 <;> rfl
  | next =>
    simp only [call, dropping]
    cases (calls.next s).1 <;> rfl
  | remove =>
    simp only [call, dropping]
    cases (calls.remove s).1 <;> rfl

end Calls

/-! ## A slot of its own -/

namespace Decorator

variable {σ : Type} {R : σ → Stream → Prop}

/-- The reader hangs under `parent`, and its delegate is related to the stream.  An entry that the
    reader has shown is the one that the stream has prepared, without descendants. -/
structure Tracks (R : σ → Stream → Prop) (parent : Option NodeId) (d : Decorator σ) (s : Stream) :
    Prop where
  delegate : R d.delegate s
  parent : d.parent = parent
  pending : ∀ e ∈ d.pending, s.head.mapSet .removeOverlapping = .ready e

theorem tracks_wrap {delegate : σ} {s : Stream} (h : R delegate s) (parent : Option NodeId) :
    (wrap delegate parent).Tracks R parent s :=
  ⟨h, rfl, nofun⟩

/-- A stream that has shown its next entry has that entry prepared. -/
theorem head_of_peek {fill : Stream → Stream} {s : Stream} {e : Entry}
    (h : ((Stream.callsBy fill).peek s).1 = .ok e) :
    ((Stream.callsBy fill).peek s).2.head = .ready e := by
  simp only [Stream.callsBy] at h ⊢
  cases hhead : (fill s).head with
  | ready e' =>
    rw [hhead] at h
    cases h
    exact hhead
  | unread | ended | failed error =>
    rw [hhead] at h
    cases h

/-- The calls on a decorator are answered as those on the stream it tracks, without descendants, and
    the slots stay in step. -/
theorem simulates {below : Calls σ} {fill : Stream → Stream} {parent : Option NodeId}
    (h : below.Simulates (Stream.callsBy fill) R)
    (hfill : ∀ {s : Stream} {e : Entry}, s.head = .ready e → fill s = s) :
    (calls below).Simulates (Stream.callsBy fill).dropping (Tracks R parent) := by
  have hshown {s : Stream} {e : Entry} (hpending : s.head.mapSet .removeOverlapping = .ready e) :
      ∃ e', s.head = .ready e' ∧ fill s = s ∧ e = { e' with set := e'.set.removeOverlapping } := by
    obtain ⟨e', hhead, he⟩ := Stream.mapSet_eq_ready hpending
    exact ⟨e', hhead, hfill hhead, he⟩
  constructor
  case hasNext =>
    rintro ⟨delegate, _, _ | shown⟩ s ⟨(hdelegate : R delegate s), rfl, hpending⟩
    · obtain ⟨hanswer, hstate⟩ := h.hasNext hdelegate
      exact ⟨hanswer, tracks_wrap hstate _⟩
    · obtain ⟨e, hhead, hsame, rfl⟩ := hshown (hpending shown rfl)
      simp only [calls, Calls.dropping, Stream.callsBy, hsame, hhead]
      exact ⟨rfl, hdelegate, rfl, hpending⟩
  case peek =>
    rintro ⟨delegate, _, _ | shown⟩ s ⟨(hdelegate : R delegate s), rfl, hpending⟩
    · obtain ⟨hanswer, hstate⟩ := h.peek hdelegate
      simp only [calls, Calls.dropping]
      generalize below.peek delegate = answered at hanswer hstate ⊢
      obtain ⟨error | e, delegate'⟩ := answered
      · exact ⟨by rw [← hanswer]; rfl, tracks_wrap hstate _⟩
      · refine ⟨by rw [← hanswer]; rfl, hstate, rfl, ?_⟩
        rintro _ ⟨⟩
        rw [head_of_peek hanswer.symm]
        rfl
    · obtain ⟨e, hhead, hsame, rfl⟩ := hshown (hpending shown rfl)
      simp only [calls, Calls.dropping, Stream.callsBy, hsame, hhead]
      exact ⟨rfl, hdelegate, rfl, hpending⟩
  case next =>
    rintro ⟨delegate, _, _ | shown⟩ s ⟨(hdelegate : R delegate s), rfl, hpending⟩
    · obtain ⟨hanswer, hstate⟩ := h.next hdelegate
      simp only [calls, Calls.dropping]
      generalize below.next delegate = answered at hanswer hstate ⊢
      obtain ⟨error | e, delegate'⟩ := answered <;>
        exact ⟨by rw [← hanswer]; rfl, tracks_wrap hstate _⟩
    · -- an entry that was shown is the one that the delegate passes
      obtain ⟨hanswer, hstate⟩ := h.next hdelegate
      obtain ⟨e, hhead, hsame, rfl⟩ := hshown (hpending shown rfl)
      have hpassed : ((Stream.callsBy fill).next s).1 = .ok e := by
        simp only [Stream.callsBy, hsame, hhead]
      simp only [calls, Calls.dropping]
      generalize below.next delegate = answered at hanswer hstate ⊢
      obtain ⟨error | e', delegate'⟩ := answered
      · cases hanswer.trans hpassed
      · exact ⟨by rw [hpassed]; rfl, tracks_wrap hstate _⟩
  case remove =>
    rintro d s ⟨hdelegate, hparent, hpending⟩
    obtain ⟨hanswer, hstate⟩ := h.remove hdelegate
    exact ⟨hanswer, hstate, hparent, hpending⟩

/-- Asks a question.  What the delegate says of its predicate is passed on. -/
def ask (d : Decorator) : Question → Reply × Decorator
  | .context => (.context d.delegate.context, d)
  | .node => (.node d.delegate.node, d)
  | .canPrune => (.canPrune d.delegate.canPrune, d)
  | .deferredNodes => (.deferredNodes d.delegate.deferredNodes, d)
  | .read c => (.read ((calls Stream.calls).call d c).1, ((calls Stream.calls).call d c).2)

theorem Tracks.ask {d : Decorator} {s : Stream} {parent : Option NodeId} (h : d.Tracks Eq parent s)
    (q : Question) :
    (d.ask q).1 = (s.ask q).1.mapSet .removeOverlapping ∧
      (d.ask q).2.Tracks Eq parent (s.ask q).2 := by
  cases q with
  | read c =>
    obtain ⟨hanswer, hnext⟩ := (simulates Stream.calls.simulates_self Stream.fill_of_ready).call h c
    rw [Calls.call_dropping] at hanswer hnext
    exact ⟨congrArg Reply.read hanswer, hnext⟩
  | context | node | canPrune | deferredNodes =>
    rw [Decorator.ask, h.delegate]
    exact ⟨rfl, h⟩

end Decorator

namespace Stream

/-! ## The ancestor stream -/

theorem fill_ancestor (delegate : Stream) (parent : Option NodeId) :
    (ancestor delegate parent ()).fill = ancestor delegate.fill parent () := by
  rw [fill, height, Nat.add_comm, fillAt]
  rfl

/-- The calls on an ancestor stream are those on its delegate, without descendants. -/
theorem simulates_ancestor {fill fill' : Stream → Stream} {parent : Option NodeId}
    (hfill : ∀ s, fill' (ancestor s parent ()) = ancestor (fill s) parent ()) :
    (callsBy fill).dropping.Simulates (callsBy fill') fun s s' => s' = ancestor s parent () := by
  constructor <;> rintro s _ rfl <;> simp only [Calls.dropping, callsBy, hfill, head]
  case remove => exact ⟨trivial, trivial⟩
  all_goals cases (fill s).head <;> exact ⟨rfl, rfl⟩

/-- An ancestor stream is asked by asking its delegate. -/
theorem ask_ancestor (s : Stream) (parent : Option NodeId) (q : Question) :
    ((ancestor s parent ()).ask q).1 = (s.ask q).1.mapSet .removeOverlapping ∧
      ((ancestor s parent ()).ask q).2 = ancestor (s.ask q).2 parent () := by
  cases q with
  | context | node | canPrune => exact ⟨rfl, rfl⟩
  | deferredNodes =>
    rw [ask, deferredNodes]
    exact ⟨rfl, rfl⟩
  | read c =>
    obtain ⟨hanswer, hstate⟩ := (simulates_ancestor fun s => fill_ancestor s parent).call rfl c
    rw [Calls.call_dropping] at hanswer hstate
    exact ⟨congrArg Reply.read hanswer.symm, hstate⟩

/-! ## Taking the delegate back -/

/-- Of a conversation only the calls change anything. -/
theorem converse_ask (s : Stream) (qs : List Question) :
    (converse ask s qs).2 = (s.run (qs.filterMap Question.call?)).2 ∧
      passed qs (converse ask s qs).1 = entriesOf (nextAnswers (qs.filterMap Question.call?)
        (s.run (qs.filterMap Question.call?)).1) := by
  induction qs generalizing s with
  | nil => exact ⟨rfl, rfl⟩
  | cons q qs ih =>
    obtain ⟨hstate, hpassed⟩ := ih (s.ask q).2
    cases q with
    | context | node | canPrune | deferredNodes => exact ⟨hstate, hpassed⟩
    | read c =>
      refine ⟨hstate, ?_⟩
      have hcalls : (Question.read c :: qs).filterMap Question.call? =
          c :: qs.filterMap Question.call? := rfl
      have hfirst : passed (.read c :: qs) (converse ask s (.read c :: qs)).1 =
          (handedOut c (s.call c).1).toList ++ passed qs (converse ask (s.call c).2 qs).1 := by
        simp only [passed, converse, ask, List.zip_cons_cons, List.filterMap_cons, Reply.passed?]
        cases handedOut c (s.call c).1 <;> rfl
      rw [hfirst, hcalls, run_cons, entriesOf_nextAnswers_cons]
      exact congrArg _ hpassed

theorem run_append (s : Stream) (calls calls' : List Call) :
    (s.run (calls ++ calls')).1 = (s.run calls).1 ++ ((s.run calls).2.run calls').1 := by
  induction calls generalizing s with
  | nil => rfl
  | cons c calls ih => exact congrArg (_ :: ·) (ih (s.call c).2)

theorem length_run (s : Stream) (calls : List Call) : (s.run calls).1.length = calls.length := by
  induction calls generalizing s with
  | nil => rfl
  | cons c calls ih => exact congrArg (· + 1) (ih (s.call c).2)

/-- Calls take an entry off the trace for each call of `next`, as long as there are any. -/
theorem trace_run (s : Stream) (calls : List Call) :
    (s.run calls).2.trace = s.trace.drop (calls.count .next) ∧
      (s.run calls).2.kindName = s.kindName := by
  induction calls generalizing s with
  | nil => exact ⟨rfl, rfl⟩
  | cons c calls ih =>
    obtain ⟨-, htrace, hkind⟩ := call_spec (s := s) (t := s.trace) (i := 0) rfl c
    obtain ⟨hrest, hrestKind⟩ := ih (s.call c).2
    refine ⟨?_, hrestKind.trans hkind⟩
    rw [run_cons, hrest, htrace]
    cases c with
    | hasNext | peek | remove => rw [List.count_cons_of_ne (by decide)]; rfl
    | next =>
      rw [List.count_cons_self, Trace.position]
      split
      · simp only [Trace.drop, List.drop_drop, Nat.zero_add, Nat.add_comm]
      · next hnone =>
        -- there was none left to take
        have hnil : s.trace.entries = [] := List.eq_nil_of_length_eq_zero (by omega)
        simp only [Trace.drop, hnil, List.drop_nil]

/-- Once `next` has been called `k` times among some calls, further calls of it are answered as they
    would be after these `k` calls alone. -/
theorem run_next_run (s : Stream) (calls : List Call) (n : Nat) :
    ((s.run calls).2.run (List.replicate n .next)).1 =
      (s.run (List.replicate (calls.count .next + n) .next)).1.drop (calls.count .next) := by
  obtain ⟨htrace, hkind⟩ := trace_run s calls
  obtain ⟨htrace', hkind'⟩ := trace_run s (List.replicate (calls.count .next) .next)
  rw [List.count_replicate_self] at htrace'
  have hdrop : (s.run (List.replicate (calls.count .next + n) .next)).1.drop (calls.count .next) =
      ((s.run (List.replicate (calls.count .next) .next)).2.run (List.replicate n .next)).1 := by
    rw [List.replicate_add, run_append, List.drop_left']
    rw [length_run, List.length_replicate]
  rw [hdrop, run_answers (i := 0) rfl, run_answers (i := 0) rfl, htrace, htrace', hkind, hkind']

/-- What `next` has handed out and what it would hand out from then on are the first entries there
    are, each once. -/
theorem passed_run_next (s : Stream) (calls : List Call) (n : Nat) :
    entriesOf (nextAnswers calls (s.run calls).1) ++
        entriesOf ((s.run calls).2.run (List.replicate n .next)).1 =
      entriesOf (s.run (List.replicate (calls.count .next + n) .next)).1 := by
  rw [entriesOf_nextAnswers, run_answers (i := 0) rfl, run_answers (i := 0) rfl,
    Trace.entriesOf_next, Trace.entriesOf_next, (trace_run s calls).1, Trace.drop, List.drop_zero,
    List.drop_zero, List.take_add]

/-- Whatever a stream is asked, without descendants it replies as it does with them, but for the
    sets of the entries that are shown or passed: their descendants are dropped.  So does a reader
    that keeps what it has shown in a slot of its own.  Either way the delegate can be taken back at
    any time: calls of `next` go on as on the stream itself, and together with the entries that were
    passed before they hand out just the entries that the stream holds. -/
theorem dropDescendants_simulates (s : Stream) (parent : Option NodeId) (qs : List Question) :
    let plain := converse Stream.ask s qs
    let dropped := converse Stream.ask (s.dropDescendants parent) qs
    let decorated := converse Decorator.ask (.wrap s parent) qs
    dropped.1 = plain.1.map (Reply.mapSet .removeOverlapping) ∧
    decorated.1 = plain.1.map (Reply.mapSet .removeOverlapping) ∧
    decorated.2.unwrap = dropped.2.undecorated ∧
    ∀ n,
      let further := (dropped.2.undecorated.run (List.replicate n .next)).1
      let all := (s.run (List.replicate (qs.count (.read .next) + n) .next)).1
      further = all.drop (qs.count (.read .next)) ∧
        passed qs plain.1 ++ entriesOf further = entriesOf all := by
  intro plain dropped decorated
  obtain ⟨hdropped, hancestor⟩ := converse_simulates Stream.ask Stream.ask
    (fun s s' => s' = ancestor s parent ()) .removeOverlapping
    (by rintro s _ q rfl; exact ask_ancestor s parent q) (Eq.refl (ancestor s parent ())) qs
  obtain ⟨hdecorated, htracks⟩ := converse_simulates Stream.ask Decorator.ask
    (fun s d => d.Tracks Eq parent s) .removeOverlapping (fun _ _ q h => h.ask q)
    (Decorator.tracks_wrap rfl parent) qs
  have hdelegate : dropped.2.undecorated = plain.2 := by
    rw [show dropped.2 = ancestor plain.2 parent () from hancestor]
    rfl
  refine ⟨hdropped, hdecorated, htracks.delegate.trans hdelegate.symm, ?_⟩
  intro n
  obtain ⟨hstate, hpassed⟩ := converse_ask s qs
  have hcount : (qs.filterMap Question.call?).count .next = qs.count (.read .next) := by
    rw [List.count_filterMap, List.count]
    refine List.countP_congr fun q _ => ?_
    cases q <;> simp [Question.call?]
  simp only [hdelegate]
  rw [show plain.2 = _ from hstate, show passed qs plain.1 = _ from hpassed, ← hcount]
  exact ⟨run_next_run s _ n, passed_run_next s _ n⟩

/-- An entry that was shown without its descendants is not lost when the delegate is taken back, nor
    are the descendants. -/
example :
    let set : MatchSet := .ofUids "20240101_0" none ["a", "a.b"]
    let shown := (Decorator.calls calls).peek (.wrap (leaf none .present "" [set.entry]) none)
    shown.1.map (·.set.uids) = .ok ["a"] ∧ shown.2.unwrap.next.1 = .ok set.entry :=
  ⟨rfl, rfl⟩

end Stream

end ShardSearch
