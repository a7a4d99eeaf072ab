import ShardSearch.Proofs.Building
import ShardSearch.Proofs.Composite
import ShardSearch.Query.LeafTable

/-!
# What a source is asked for

A query asks its source for the terms that a walk through its tree comes across, depth first and
from the left, once for each time a term is met.  The walk does not enter negations and delayed
parts.  It is cut off by the first request that fails and by the first composite without children,
whichever comes first, and it is with that error that the query fails; otherwise it succeeds
(`stream_requests`).
-/

namespace ShardSearch

namespace PredicateTree

/-- What a walk comes across. -/
inductive Stop where
  /-- A term, to be asked for. -/
  | term (request : LeafRequest)
  /-- A conjunction or a disjunction of nothing. -/
  | childless (id : NodeId)

/-- The walk from a node, depth first and from the left, comes across these stops.  A node that is
    shared is walked each time it is met; negations and delayed parts are not entered. -/
inductive Walk (t : PredicateTree) : NodeId → List Stop → Prop where
  | term {id : NodeId} (field value : String)
      (shape : t.predicate? id = some (.term field value)) : Walk t id [.term ⟨id, field, value⟩]
  | childless {id : NodeId} (shape : t.predicate? id = some (.and []) ∨
      t.predicate? id = some (.or [])) : Walk t id [.childless id]
  | composite {id : NodeId} {children : List NodeId} (walk : NodeId → List Stop)
      (shape : t.predicate? id = some (.and children) ∨ t.predicate? id = some (.or children))
      (nonempty : children ≠ []) (parts : ∀ child ∈ children, Walk t child (walk child)) :
      Walk t id (children.flatMap walk)
  | putOff {id child : NodeId} (shape : t.predicate? id = some (.not child) ∨
      t.predicate? id = some (.delayed child)) : Walk t id []

variable {t : PredicateTree} {id : NodeId}

/-- A composite can be walked if its children can. -/
theorem exists_walk_of_children {children : List NodeId}
    (shape : t.predicate? id = some (.and children) ∨ t.predicate? id = some (.or children))
    (h : ∀ child ∈ children, ∃ stops, t.Walk child stops) : ∃ stops, t.Walk id stops := by
  by_cases hnil : children = []
  · subst hnil
    exact ⟨_, .childless shape⟩
  · have hwalks : ∀ child, ∃ stops, child ∈ children → t.Walk child stops := by
      intro child
      by_cases hchild : child ∈ children
      · obtain ⟨stops, hstops⟩ := h child hchild
        exact ⟨stops, fun _ => hstops⟩
      · exact ⟨[], fun hmem => absurd hmem hchild⟩
    obtain ⟨walk, hwalk⟩ := Classical.skolem.1 hwalks
    exact ⟨_, .composite walk shape hnil hwalk⟩

/-- There is a walk from every node of a tree in which children come before their parents. -/
theorem exists_walk (ht : t.Ordered) (h : t.contains id = true) : ∃ stops, t.Walk id stops := by
  induction hn : id.index using Nat.strongRecOn generalizing id with
  | ind n ih =>
    obtain ⟨p, hp⟩ := contains_iff_exists.1 h
    have hbelow : ∀ child ∈ p.children, ∃ stops, t.Walk child stops := by
      intro child hchild
      have hlt : child.index < id.index := ht id p hp child hchild
      have hknown : t.contains child = true :=
        decide_eq_true (Nat.lt_trans hlt (index_lt_size hp))
      exact ih child.index (hn ▸ hlt) hknown rfl
    cases p with
    | term field value => exact ⟨_, .term field value hp⟩
    | and children => exact exists_walk_of_children (.inl hp) hbelow
    | or children => exact exists_walk_of_children (.inr hp) hbelow
    | not child => exact ⟨_, .putOff (.inl hp)⟩
    | delayed child => exact ⟨_, .putOff (.inr hp)⟩

end PredicateTree

open PredicateTree (Stop)

variable {σ : Type}

/-! ## Serving a walk -/

/-- What came of asking a source for some terms: the requests made, the error that cut them off, if
    one did, and the state of the source after them. -/
structure Served (σ : Type) where
  requests : List LeafRequest
  error : Option Error
  state : σ

/-- The same with a request before all others. -/
def Served.after (served : Served σ) (r : LeafRequest) : Served σ :=
  { served with requests := r :: served.requests }

/-- Goes on to ask, unless an error has cut the requests off. -/
def Served.andThen (served : Served σ) (next : σ → Served σ) : Served σ :=
  match served.error with
  | some _ => served
  | none =>
    { next served.state with requests := served.requests ++ (next served.state).requests }

theorem Served.andThen_of_error {served : Served σ} {e : Error} (h : served.error = some e)
    (next : σ → Served σ) : served.andThen next = served := by
  simp only [andThen, h]

theorem Served.andThen_of_none {served : Served σ} (h : served.error = none)
    (next : σ → Served σ) :
    served.andThen next =
      { next served.state with requests := served.requests ++ (next served.state).requests } := by
  simp only [andThen, h]

theorem Served.after_andThen (served : Served σ) (r : LeafRequest) (next : σ → Served σ) :
    (served.after r).andThen next = (served.andThen next).after r := by
  cases herror : served.error <;> simp [andThen, after, herror]

/-- Asks a source for the terms of a walk, up to the first one it fails on, which is still asked
    for, or the first composite without children. -/
def serve (source : LeafSource σ) : List Stop → σ → Served σ
  | [], st => ⟨[], none, st⟩
  | .childless id :: _, st => ⟨[], some (.childlessComposite id), st⟩
  | .term r :: rest, st =>
    match source r.node r.field r.value st with
    | (.error e, st) => ⟨[r], some e, st⟩
    | (.ok _, st) => (serve source rest st).after r

theorem serve_append (source : LeafSource σ) (stops stops' : List Stop) (st : σ) :
    serve source (stops ++ stops') st = (serve source stops st).andThen (serve source stops') := by
  induction stops generalizing st with
  | nil => rfl
  | cons stop stops ih =>
    cases stop with
    | childless id => rfl
    | term r =>
      simp only [List.cons_append, serve]
      generalize source r.node r.field r.value st = asked
      obtain ⟨_ | s, st'⟩ := asked
      · rfl
      · simp only [ih, Served.after_andThen]

/-- A source that also keeps a log of what it is asked for. -/
def LeafSource.logged (source : LeafSource σ) : LeafSource (σ × List LeafRequest) :=
  fun id field value st =>
    ((source id field value st.1).1, (source id field value st.1).2, st.2 ++ [⟨id, field, value⟩])

/-- The error of a result, if it is one. -/
def errorOf {α : Type} : Except Error α → Option Error
  | .error e => some e
  | .ok _ => none

@[simp] theorem errorOf_map {α β : Type} (f : α → β) (result : Except Error α) :
    errorOf (result.map f) = errorOf result := by
  cases result <;> rfl

/-- A result is what came of serving, and the log has grown by the requests made. -/
structure ComesOf {α : Type} (served : Served σ) (log : List LeafRequest)
    (made : Except Error α × σ × List LeafRequest) : Prop where
  error : errorOf made.1 = served.error
  state : made.2 = (served.state, log ++ served.requests)

namespace Query

variable {t : PredicateTree} {source : LeafSource σ} {id : NodeId}

/-- Streams made one after the other serve the walks one after the other. -/
theorem streamsOf_comesOf
    {make : NodeId → σ × List LeafRequest → Except Error Stream × σ × List LeafRequest}
    {walk : NodeId → List Stop} {children : List NodeId}
    (hmake : ∀ child ∈ children, ∀ st log,
      ComesOf (serve source (walk child) st) log (make child (st, log))) (st : σ)
    (log : List LeafRequest) :
    ComesOf (serve source (children.flatMap walk) st) log (streamsOf make children (st, log)) := by
  induction children generalizing st log with
  | nil => exact ⟨rfl, by simp [streamsOf, serve]⟩
  | cons child children ih =>
    obtain ⟨herror, hstate⟩ := hmake child List.mem_cons_self st log
    rw [List.flatMap_cons, serve_append, streamsOf]
    generalize make child (st, log) = made at herror hstate
    obtain ⟨_ | s, st'⟩ := made
    · rw [Served.andThen_of_error herror.symm]
      exact ⟨herror, hstate⟩
    · cases hstate
      obtain ⟨herror', hstate'⟩ := ih
        (fun child hchild => hmake child (List.mem_cons_of_mem _ hchild))
        (serve source (walk child) st).state (log ++ (serve source (walk child) st).requests)
      rw [Served.andThen_of_none herror.symm]
      refine ⟨(errorOf_map _ _).trans herror', hstate'.trans ?_⟩
      rw [List.append_assoc]

/-- The stream of a composite comes of serving its children, if there are any. -/
theorem combine_comesOf {log : List LeafRequest} {served : Served σ}
    {join : List Stream → Except Error Stream}
    {made : Except Error (List Stream) × σ × List LeafRequest} (h : ComesOf served log made)
    (hjoin : ∀ ss : List Stream, 2 ≤ ss.length → ∃ s, join ss = .ok s)
    (hnonempty : ∀ ss, made.1 = .ok ss → ss ≠ []) :
    ComesOf served log (made.1.bind (combine id join), made.2) := by
  obtain ⟨herror, hstate⟩ := h
  refine ⟨herror ▸ ?_, hstate⟩
  obtain ⟨_ | ss, st⟩ := made
  · rfl
  · match ss, hnonempty ss rfl with
    | [s], _ => rfl
    | s :: s' :: ss, _ =>
      obtain ⟨s, hs⟩ := hjoin (s :: s' :: ss) (by simp)
      show errorOf (join _) = none
      rw [hs]
      rfl

theorem length_of_streamsOf {make : NodeId → σ → Except Error Stream × σ} {ids : List NodeId}
    {st : σ} {streams : List Stream} (h : (streamsOf make ids st).1 = .ok streams) :
    ids.length = streams.length := by
  have hkept : ∀ id st, Function.const σ () (make id st).2 = Function.const σ () st :=
    fun _ _ => rfl
  exact (streamsOf_ok hkept h).length_eq

theorem streamWithin_term {field value : String}
    (shape : t.predicate? id = some (.term field value)) (source : LeafSource σ) (n : Nat)
    (st : σ) :
    streamWithin t source (n + 1) id st = source id field value st := by
  obtain ⟨node, hnode, hpredicate⟩ := Option.map_eq_some_iff.1 shape
  simp only [streamWithin, hnode, hpredicate]

/-- Both kinds of composites join the streams of their children in a way that cannot fail on two or
    more. -/
theorem streamWithin_composite {children : List NodeId}
    (shape : t.predicate? id = some (.and children) ∨ t.predicate? id = some (.or children))
    (source : LeafSource σ) :
    ∃ join : List Stream → Except Error Stream,
      (∀ ss : List Stream, 2 ≤ ss.length → ∃ s, join ss = .ok s) ∧
      ∀ n st, streamWithin t source (n + 1) id st =
        ((streamsOf (streamWithin t source n) children st).1.bind (combine id join),
          (streamsOf (streamWithin t source n) children st).2) := by
  rcases shape with shape | shape
  · obtain ⟨node, hnode, hpredicate⟩ := Option.map_eq_some_iff.1 shape
    refine ⟨Stream.intersect (some id), fun _ => Stream.intersect_isOk (some id), ?_⟩
    intro n st
    simp only [streamWithin, hnode, hpredicate]
  · obtain ⟨node, hnode, hpredicate⟩ := Option.map_eq_some_iff.1 shape
    refine ⟨Stream.unite (some id), fun _ => Stream.unite_isOk (some id), ?_⟩
    intro n st
    simp only [streamWithin, hnode, hpredicate]

theorem streamWithin_putOff {child : NodeId}
    (shape : t.predicate? id = some (.not child) ∨ t.predicate? id = some (.delayed child))
    (source : LeafSource σ) (n : Nat) (st : σ) :
    streamWithin t source (n + 1) id st =
      (.ok ((Stream.delayed (some id)).withLabel (t.describe id)), st) := by
  rcases shape with shape | shape
  · obtain ⟨node, hnode, hpredicate⟩ := Option.map_eq_some_iff.1 shape
    simp only [streamWithin, hnode, hpredicate]
  · obtain ⟨node, hnode, hpredicate⟩ := Option.map_eq_some_iff.1 shape
    simp only [streamWithin, hnode, hpredicate]

/-- The stream of a node comes of serving the walk from it, by induction on the walk. -/
theorem streamWithin_comesOf (ht : t.Ordered) {stops : List Stop} (h : t.Walk id stops) {n : Nat}
    (hn : id.index ≤ n) (st : σ) (log : List LeafRequest) :
    ComesOf (serve source stops st) log (streamWithin t source.logged (n + 1) id (st, log)) := by
  induction h generalizing n st log with
  | @term id field value shape =>
    rw [streamWithin_term shape, LeafSource.logged, serve]
    generalize source id field value st = asked
    obtain ⟨_ | s, st'⟩ := asked <;> exact ⟨rfl, rfl⟩
  | @childless id shape =>
    obtain ⟨join, -, hmade⟩ := streamWithin_composite shape source.logged
    rw [hmade, streamsOf, serve]
    exact ⟨rfl, by simp⟩
  | @composite id children walk shape nonempty parts ih =>
    obtain ⟨join, hjoin, hmade⟩ := streamWithin_composite shape source.logged
    have hmake : ∀ child ∈ children, ∀ st log, ComesOf (serve source (walk child) st) log
        (streamWithin t source.logged n child (st, log)) := by
      intro child hchild st log
      have hbelow : child.index < id.index := by
        rcases shape with shape | shape <;> exact ht id _ shape child hchild
      have hlt : child.index < n := Nat.lt_of_lt_of_le hbelow hn
      -- a child comes before its parent, so there is a level left for it
      obtain ⟨n, rfl⟩ := Nat.exists_eq_add_one_of_ne_zero (Nat.ne_zero_of_lt hlt)
      exact ih child hchild (Nat.le_of_lt_succ hlt) st log
    rw [hmade]
    refine combine_comesOf (streamsOf_comesOf hmake st log) hjoin ?_
    rintro ss hss rfl
    exact nonempty (List.eq_nil_of_length_eq_zero (length_of_streamsOf hss))
  | @putOff id child shape =>
    rw [streamWithin_putOff shape, serve]
    exact ⟨rfl, by simp⟩

/-! ## Logging changes nothing -/

/-- What was made, without the log. -/
def unlogged {α : Type} (made : α × σ × List LeafRequest) : α × σ := (made.1, made.2.1)

theorem streamsOf_unlogged {make : NodeId → σ → Except Error Stream × σ}
    {logging : NodeId → σ × List LeafRequest → Except Error Stream × σ × List LeafRequest}
    (hmake : ∀ id st log, make id st = unlogged (logging id (st, log))) (ids : List NodeId) (st : σ)
    (log : List LeafRequest) :
    streamsOf make ids st = unlogged (streamsOf logging ids (st, log)) := by
  induction ids generalizing st log with
  | nil => rfl
  | cons id ids ih =>
    rw [streamsOf, streamsOf, hmake id st log]
    generalize logging id (st, log) = made
    obtain ⟨_ | s, st', log'⟩ := made
    · rfl
    · simp only [unlogged, ih st' log']

theorem streamWithin_unlogged (n : Nat) (id : NodeId) (st : σ) (log : List LeafRequest) :
    streamWithin t source n id st = unlogged (streamWithin t source.logged n id (st, log)) := by
  induction n generalizing id st log with
  | zero => rfl
  | succ n ih =>
    rw [streamWithin, streamWithin]
    cases t.node? id with
    | none => rfl
    | some node =>
      obtain ⟨name, predicate⟩ := node
      cases predicate with
      | term field value => rfl
      | and children => simp only [streamsOf_unlogged ih children st log, unlogged]
      | or children => simp only [streamsOf_unlogged ih children st log, unlogged]
      | not child => rfl
      | delayed child => rfl

/-! ## Whole queries -/

variable {config : EngineConfig} {root : NodeId} {st : σ}

theorem stream_of_zero (h : config.uidThreshold = some 0) :
    stream ⟨t, config⟩ source st = (.error .zeroThreshold, st) := by
  simp [stream, EngineConfig.validate, h]

theorem stream_of_rootless (h : config.uidThreshold ≠ some 0) (hroot : t.root = none) :
    stream ⟨t, config⟩ source st = (.error .noRoot, st) := by
  simp [stream, EngineConfig.validate, h, hroot]

theorem stream_of_root (h : config.uidThreshold ≠ some 0) (hroot : t.root = some root) :
    stream ⟨t, config⟩ source st =
      ((streamAt ⟨t, config⟩ source root st).1.map
        (fun s => if config.ancestorDedup then s.dropDescendants none else s),
          (streamAt ⟨t, config⟩ source root st).2) := by
  simp [stream, EngineConfig.validate, h, hroot]

theorem stream_unlogged (config : EngineConfig) (st : σ) :
    stream ⟨t, config⟩ source st = unlogged (stream ⟨t, config⟩ source.logged (st, [])) := by
  by_cases h : config.uidThreshold = some 0
  · rw [stream_of_zero h, stream_of_zero h]
    rfl
  · cases hroot : t.root with
    | none =>
      rw [stream_of_rootless h hroot, stream_of_rootless h hroot]
      rfl
    | some root =>
      rw [stream_of_root h hroot, stream_of_root h hroot, streamAt,
        streamWithin_unlogged _ _ _ []]
      rfl

theorem streamAt_of_unknown (h : t.contains id = false) :
    streamAt ⟨t, config⟩ source id st = (.error (.unknownNode id), st) := by
  have hnone : t.node? id = none := List.getElem?_eq_none (Nat.le_of_not_lt (of_decide_eq_false h))
  rw [streamAt]
  cases PredicateTree.size t with
  | zero => rfl
  | succ n => simp only [streamWithin, hnone]

/-- It failed with this error before anything was asked for. -/
def FailedUnasked (made : Except Error Stream × σ × List LeafRequest) (e : Error) : Prop :=
  made.1 = .error e ∧ made.2.2 = []

/-- There is a walk from the node, and what was made comes of serving it. -/
structure ServesWalk (t : PredicateTree) (source : LeafSource σ) (id : NodeId) (st : σ)
    (made : Except Error Stream × σ × List LeafRequest) : Prop where
  walked : ∃ stops, t.Walk id stops
  comesOf : ∀ stops, t.Walk id stops → ComesOf (serve source stops st) [] made

/-- The only error met before anything is asked for is that of a composite without children. -/
theorem error_of_requests_eq_nil {stops : List Stop} {e : Error}
    (h : (serve source stops st).requests = []) (herror : (serve source stops st).error = some e) :
    ∃ id, e = .childlessComposite id := by
  cases stops with
  | nil => cases herror
  | cons stop stops =>
    cases stop with
    | childless id => exact ⟨id, (Option.some.inj herror).symm⟩
    | term r =>
      rw [serve] at h
      split at h <;> cases h

/-- No error that begins with another letter is that of a composite without children. -/
theorem childlessComposite_ne {text : String} (h : text.toList.head? ≠ some 'c') (id : NodeId) :
    Error.childlessComposite id ≠ .invalidArgument text := by
  intro heq
  have htext := Error.invalidArgument.inj heq
  rw [← htext] at h
  exact h (by simp [String.toList_append])

/-- What comes of serving a walk fails unasked only for a composite without children. -/
theorem ServesWalk.not_failedUnasked {made : Except Error Stream × σ × List LeafRequest} {e : Error}
    (h : ServesWalk t source id st made) (he : ∀ id, .childlessComposite id ≠ e) :
    ¬ FailedUnasked made e := by
  rintro ⟨hmade, hlog⟩
  obtain ⟨stops, hwalk⟩ := h.walked
  obtain ⟨herror, hstate⟩ := h.comesOf stops hwalk
  rw [hmade] at herror
  have hrequests : (serve source stops st).requests = [] := by
    rw [← hlog, hstate]
    rfl
  obtain ⟨id, rfl⟩ := error_of_requests_eq_nil hrequests herror.symm
  exact he id rfl

/-- The part below a node of the tree is made by serving the walk from it. -/
theorem streamAt_servesWalk (source : LeafSource σ) (ht : t.Reachable)
    (h : t.contains id = true) (config : EngineConfig) (st : σ) :
    ServesWalk t source id st (streamAt ⟨t, config⟩ source.logged id (st, [])) := by
  refine ⟨PredicateTree.exists_walk ht.ordered h, fun stops hwalk => ?_⟩
  have hlt : id.index < t.size := of_decide_eq_true h
  obtain ⟨n, hn⟩ := Nat.exists_eq_add_one_of_ne_zero (Nat.ne_zero_of_lt hlt)
  rw [streamAt, hn]
  exact streamWithin_comesOf ht.ordered hwalk (Nat.le_of_lt_succ (Nat.lt_of_lt_of_eq hlt hn)) st []

/-- With the threshold in order, a query with a root is made by serving the walk from it. -/
theorem stream_servesWalk (source : LeafSource σ) (ht : t.Reachable)
    (h : config.uidThreshold ≠ some 0) (hroot : t.root = some root) (st : σ) :
    ServesWalk t source root st (stream ⟨t, config⟩ source.logged (st, [])) := by
  obtain ⟨hwalked, hcomesOf⟩ :=
    streamAt_servesWalk source ht (ht.contains_root hroot) config st
  refine ⟨hwalked, fun stops hwalk => ?_⟩
  obtain ⟨herror, hstate⟩ := hcomesOf stops hwalk
  rw [stream_of_root h hroot]
  exact ⟨(errorOf_map _ _).trans herror, hstate⟩

theorem failedUnasked_zeroThreshold_iff (ht : t.Reachable) (config : EngineConfig) (st : σ) :
    FailedUnasked (stream ⟨t, config⟩ source.logged (st, [])) .zeroThreshold ↔
      config.uidThreshold = some 0 := by
  constructor
  · intro hfailed
    by_cases h : config.uidThreshold = some 0
    · exact h
    cases hroot : t.root with
    | none =>
      rw [stream_of_rootless h hroot] at hfailed
      cases hfailed.1
    | some root =>
      have hserves := stream_servesWalk source ht h hroot st
      exact absurd hfailed (hserves.not_failedUnasked fun _ => nofun)
  · intro h
    rw [stream_of_zero h]
    exact ⟨rfl, rfl⟩

theorem failedUnasked_noRoot_iff (ht : t.Reachable) (h : config.uidThreshold ≠ some 0) (st : σ) :
    FailedUnasked (stream ⟨t, config⟩ source.logged (st, [])) .noRoot ↔ t.root = none := by
  constructor
  · intro hfailed
    cases hroot : t.root with
    | none => rfl
    | some root =>
      have hserves := stream_servesWalk source ht h hroot st
      exact absurd hfailed (hserves.not_failedUnasked (childlessComposite_ne (by decide)))
  · intro hroot
    rw [stream_of_rootless h hroot]
    exact ⟨rfl, rfl⟩

theorem failedUnasked_unknownNode_iff (ht : t.Reachable) (config : EngineConfig) (id : NodeId)
    (st : σ) :
    FailedUnasked (streamAt ⟨t, config⟩ source.logged id (st, [])) (.unknownNode id) ↔
      t.contains id = false := by
  constructor
  · intro hfailed
    cases h : t.contains id with
    | false => rfl
    | true =>
      have hserves := streamAt_servesWalk source ht h config st
      have hother : ∀ id', Error.childlessComposite id' ≠ .unknownNode id :=
        childlessComposite_ne (by simp [String.toList_append])
      exact absurd hfailed (hserves.not_failedUnasked hother)
  · intro h
    rw [streamAt_of_unknown h]
    exact ⟨rfl, rfl⟩

/-- A query is refused unasked for a threshold of zero, and otherwise for want of a root; with both
    in order it asks for the terms of the walk from the root, and fails with the error that cuts the
    walk off, if one does.  The part below a node goes by the walk from the node, whatever the
    settings and the root, and an unknown node is refused unasked. -/
theorem stream_requests (ht : t.Reachable) (config : EngineConfig) (source : LeafSource σ)
    (st : σ) :
    let made := stream ⟨t, config⟩ source.logged (st, [])
    stream ⟨t, config⟩ source st = unlogged made ∧
      (FailedUnasked made .zeroThreshold ↔ config.uidThreshold = some 0) ∧
      (config.uidThreshold ≠ some 0 → (FailedUnasked made .noRoot ↔ t.root = none)) ∧
      (∀ root, config.uidThreshold ≠ some 0 → t.root = some root →
        ServesWalk t source root st made) ∧
      ∀ id,
        let made := streamAt ⟨t, config⟩ source.logged id (st, [])
        streamAt ⟨t, config⟩ source id st = unlogged made ∧
          (FailedUnasked made (.unknownNode id) ↔ t.contains id = false) ∧
          (t.contains id = true → ServesWalk t source id st made) := by
  refine ⟨stream_unlogged config st, failedUnasked_zeroThreshold_iff ht config st, ?_, ?_, ?_⟩
  · intro h
    exact failedUnasked_noRoot_iff ht h st
  · intro root h hroot
    exact stream_servesWalk source ht h hroot st
  · intro id
    refine ⟨streamWithin_unlogged _ id st [], failedUnasked_unknownNode_iff ht config id st, ?_⟩
    intro h
    exact streamAt_servesWalk source ht h config st

end Query

/-- A tree with two terms that are met twice and a conjunction of nothing. -/
def PredicateTree.sampleShared : PredicateTree :=
  let t := (PredicateTree.empty.add (.term "A" "1")).2
  let t := (t.add (.term "B" "2")).2
  let t := (t.add (.and [⟨0⟩, ⟨1⟩])).2
  let t := (t.add (.not ⟨1⟩)).2
  let t := (t.add (.and [])).2
  let t := (t.add (.or [⟨2⟩, ⟨3⟩, ⟨1⟩, ⟨4⟩, ⟨0⟩])).2
  (t.setRoot ⟨5⟩).2

theorem PredicateTree.reachable_sampleShared : sampleShared.Reachable :=
  .setRoot _ (.add _ (.add _ (.add _ (.add _ (.add _ (.add _ .empty))))))

/-- What the walks from the nodes of `sampleShared` come across. -/
def PredicateTree.sampleWalk : NodeId → List Stop
  | ⟨0⟩ => [.term ⟨⟨0⟩, "A", "1"⟩]
  | ⟨1⟩ => [.term ⟨⟨1⟩, "B", "2"⟩]
  | ⟨2⟩ => [.term ⟨⟨0⟩, "A", "1"⟩, .term ⟨⟨1⟩, "B", "2"⟩]
  | ⟨4⟩ => [.childless ⟨4⟩]
  | _ => []

theorem PredicateTree.walk_sampleShared :
    sampleShared.Walk ⟨5⟩ ([⟨2⟩, ⟨3⟩, ⟨1⟩, ⟨4⟩, ⟨0⟩].flatMap sampleWalk) := by
  have hA : sampleShared.Walk ⟨0⟩ (sampleWalk ⟨0⟩) := .term "A" "1" rfl
  have hB : sampleShared.Walk ⟨1⟩ (sampleWalk ⟨1⟩) := .term "B" "2" rfl
  have hboth : sampleShared.Walk ⟨2⟩ ([⟨0⟩, ⟨1⟩].flatMap sampleWalk) :=
    .composite sampleWalk (.inl rfl) (by decide) (by simp [hA, hB])
  have hnot : sampleShared.Walk ⟨3⟩ (sampleWalk ⟨3⟩) := .putOff (.inl rfl)
  have hnothing : sampleShared.Walk ⟨4⟩ (sampleWalk ⟨4⟩) := .childless (.inl rfl)
  refine .composite sampleWalk (.inr rfl) (by decide) ?_
  simp only [List.forall_mem_cons]
  exact ⟨hboth, hnot, hB, hnothing, hA, List.forall_mem_nil _⟩

/-- A source that fails from its third request on. -/
def LeafSource.failsThird : LeafSource Nat := fun id field value asked =>
  (if asked < 2 then .ok (Stream.absent (some id)) else
    .error (.noSuchLeaf (PredicateTree.termText field value)), asked + 1)

theorem Query.stream_requests_sample :
    PredicateTree.sampleShared.Reachable ∧
      let made := stream ⟨.sampleShared, .standard⟩ LeafSource.failsThird.logged (0, [])
      errorOf made.1 = some (.noSuchLeaf "B == '2'") ∧
        made.2 = (3, [⟨⟨0⟩, "A", "1"⟩, ⟨⟨1⟩, "B", "2"⟩, ⟨⟨1⟩, "B", "2"⟩]) := by
  refine ⟨PredicateTree.reachable_sampleShared, ?_⟩
  obtain ⟨-, -, -, hroot, -⟩ := stream_requests PredicateTree.reachable_sampleShared .standard
    LeafSource.failsThird 0
  have hserves := hroot ⟨5⟩ (by decide) rfl
  obtain ⟨herror, hstate⟩ := hserves.comesOf _ PredicateTree.walk_sampleShared
  exact ⟨herror, hstate⟩

end ShardSearch
