import ShardSearch.Proofs.Decorating
import ShardSearch.Stream.Slotted

/-!
# Rounds by calls

A composite with slots below it goes through its rounds by calls on its parts.  As long as no slot
is out of step with the delegate below it (`InStep`), and calls on the parts are answered as without
slots, a round comes to what it comes to without them: asking parts for their entries is a sweep,
and taking entries pops them (`meetRound_mirrors`, `joinRound_mirrors`).
-/

namespace ShardSearch

namespace Stream

variable {Slot Slot' : Type}

/-! ## Changing slots -/

theorem mapAllSlots_eq_map (f : Slot → Slot') (ss : List (Stream Slot)) :
    mapAllSlots f ss = ss.map (mapSlots f) := by
  induction ss with
  | nil => rfl
  | cons s rest ih => rw [mapAllSlots, ih, List.map_cons]

@[simp] theorem head_mapSlots (f : Slot → Slot') : ∀ s : Stream Slot, (s.mapSlots f).head = s.head
  | leaf _ _ _ entries => by cases entries <;> rfl
  | scan .. | intersection .. | union .. => by rw [mapSlots]; rfl
  | ancestor delegate _ _ => by rw [mapSlots, head, head, head_mapSlots f delegate]

@[simp] theorem kindName_mapSlots (f : Slot → Slot') :
    ∀ s : Stream Slot, (s.mapSlots f).kindName = s.kindName
  | leaf .. | scan .. | intersection .. | union .. => by rw [mapSlots]; rfl
  | ancestor delegate _ _ => by rw [mapSlots, kindName, kindName, kindName_mapSlots f delegate]

mutual

@[simp] theorem height_mapSlots (f : Slot → Slot') :
    ∀ s : Stream Slot, (s.mapSlots f).height = s.height
  | leaf .. | scan .. => by rw [mapSlots, height, height]
  | intersection _ _ filters _ _ => by
    rw [mapSlots, height, height, heightAll_mapAllSlots f filters]
  | union _ _ _ sources _ => by rw [mapSlots, height, height, heightAll_mapAllSlots f sources]
  | ancestor delegate _ _ => by rw [mapSlots, height, height, height_mapSlots f delegate]

theorem heightAll_mapAllSlots (f : Slot → Slot') :
    ∀ ss : List (Stream Slot), heightAll (mapAllSlots f ss) = heightAll ss
  | [] => rfl
  | s :: rest => by
    rw [mapAllSlots, heightAll, heightAll, height_mapSlots f s, heightAll_mapAllSlots f rest]

end

mutual

@[simp] theorem held_mapSlots (f : Slot → Slot') : ∀ s : Stream Slot, (s.mapSlots f).held = s.held
  | leaf .. | scan .. => by rw [mapSlots, held, held]
  | intersection _ _ filters _ _ => by rw [mapSlots, held, held, heldAll_mapAllSlots f filters]
  | union _ _ _ sources _ => by rw [mapSlots, held, held, heldAll_mapAllSlots f sources]
  | ancestor delegate _ _ => by rw [mapSlots, held, held, held_mapSlots f delegate]

theorem heldAll_mapAllSlots (f : Slot → Slot') :
    ∀ ss : List (Stream Slot), heldAll (mapAllSlots f ss) = heldAll ss
  | [] => rfl
  | s :: rest => by
    rw [mapAllSlots, heldAll, heldAll, held_mapSlots f s, heldAll_mapAllSlots f rest]

end

mutual

@[simp] theorem tally_mapSlots (f : Slot → Slot') :
    ∀ s : Stream Slot, (s.mapSlots f).tally = s.tally
  | leaf .. | scan .. => by rw [mapSlots, tally, tally]
  | intersection _ _ filters deferred _ => by
    rw [mapSlots, tally, tally, tallyAll_mapAllSlots f filters, tallyAll_mapAllSlots f deferred]
  | union _ _ _ sources _ => by rw [mapSlots, tally, tally, tallyAll_mapAllSlots f sources]
  | ancestor delegate _ _ => by rw [mapSlots, tally, tally, tally_mapSlots f delegate]

theorem tallyAll_mapAllSlots (f : Slot → Slot') :
    ∀ ss : List (Stream Slot), tallyAll (mapAllSlots f ss) = tallyAll ss
  | [] => rfl
  | s :: rest => by
    rw [mapAllSlots, tallyAll, tallyAll, tally_mapSlots f s, tallyAll_mapAllSlots f rest]

end

mutual

/-- Slots that are added can be left out again. -/
theorem unslotted_slotted : ∀ s : Stream, s.slotted.unslotted = s
  | leaf .. | scan .. => rfl
  | intersection node context filters deferred head => by
    rw [slotted, unslotted, mapSlots, mapSlots, unslotted_slotted_all filters,
      unslotted_slotted_all deferred]
  | union node context prunes sources head => by
    rw [slotted, unslotted, mapSlots, mapSlots, unslotted_slotted_all sources]
  | ancestor delegate parent () => by
    rw [slotted, unslotted, mapSlots, mapSlots]
    exact congrArg (ancestor · parent ()) (unslotted_slotted delegate)

theorem unslotted_slotted_all : ∀ ss : List Stream,
    mapAllSlots (fun _ : Option Entry => ()) (mapAllSlots (fun _ => none) ss) = ss
  | [] => rfl
  | s :: rest => by
    rw [mapAllSlots, mapAllSlots, unslotted_slotted_all rest]
    exact congrArg (· :: rest) (unslotted_slotted s)

end

theorem unslotted_intersection (node : Option NodeId) (context : Context)
    (filters deferred : List SlottedStream) (head : Head) :
    (intersection node context filters deferred head).unslotted =
      intersection node context (filters.map unslotted) (deferred.map unslotted) head := by
  rw [unslotted, mapSlots, mapAllSlots_eq_map, mapAllSlots_eq_map]
  rfl

theorem unslotted_union (node : Option NodeId) (context : Context) (prunes : Bool)
    (sources : List SlottedStream) (head : Head) :
    (union node context prunes sources head).unslotted =
      union node context prunes (sources.map unslotted) head := by
  rw [unslotted, mapSlots, mapAllSlots_eq_map]
  rfl

theorem unslotted_ancestor (delegate : SlottedStream) (parent : Option NodeId)
    (pending : Option Entry) :
    (ancestor delegate parent pending).unslotted = ancestor delegate.unslotted parent () := by
  rw [unslotted, mapSlots]
  rfl

end Stream

namespace SlottedStream

/-! ## Slots in step -/

/-- At every depth, what an ancestor stream has shown is the entry that its delegate has prepared,
    without descendants. -/
inductive InStep : SlottedStream → Prop where
  | leaf (node : Option NodeId) (context : Context) (label : String) (entries : List Entry) :
      InStep (.leaf node context label entries)
  | scan (node : Option NodeId) (label : String) (scanner : Scanner) (head : Head) :
      InStep (.scan node label scanner head)
  | intersection {filters deferred : List SlottedStream} (node : Option NodeId) (context : Context)
      (head : Head) (filtered : ∀ s ∈ filters, InStep s) (put : ∀ s ∈ deferred, InStep s) :
      InStep (.intersection node context filters deferred head)
  | union {sources : List SlottedStream} (node : Option NodeId) (context : Context)
      (prunes : Bool) (head : Head) (read : ∀ s ∈ sources, InStep s) :
      InStep (.union node context prunes sources head)
  | ancestor {delegate : SlottedStream} {pending : Option Entry} (parent : Option NodeId)
      (below : InStep delegate)
      (shown : ∀ e ∈ pending, delegate.head.mapSet .removeOverlapping = .ready e) :
      InStep (.ancestor delegate parent pending)

mutual

/-- Slots that nothing has been shown in are in step. -/
theorem inStep_slotted : ∀ s : Stream, s.slotted.InStep
  | .leaf node context label entries => .leaf node context label entries
  | .scan node label scanner head => .scan node label scanner head
  | .intersection node context filters deferred head => by
    rw [Stream.slotted, Stream.mapSlots]
    exact .intersection node context head (inStep_slotted_all filters) (inStep_slotted_all deferred)
  | .union node context prunes sources head => by
    rw [Stream.slotted, Stream.mapSlots]
    exact .union node context prunes head (inStep_slotted_all sources)
  | .ancestor delegate parent _ => by
    rw [Stream.slotted, Stream.mapSlots]
    exact .ancestor parent (inStep_slotted delegate) nofun

theorem inStep_slotted_all :
    ∀ ss : List Stream, ∀ s ∈ Stream.mapAllSlots (fun _ => none) ss, InStep s
  | [], s, hs => by cases hs
  | t :: rest, s, hs => by
    rw [Stream.mapAllSlots] at hs
    rcases List.mem_cons.1 hs with rfl | hs
    · exact inStep_slotted t
    · exact inStep_slotted_all rest s hs

end

/-- `t` is `s` without its slots, which are in step, and of the given height at most. -/
structure Mirrors (h : Nat) (s : SlottedStream) (t : Stream) : Prop where
  unslotted : s.unslotted = t
  inStep : s.InStep
  height : t.height ≤ h

theorem Mirrors.head_eq {h : Nat} {s : SlottedStream} {t : Stream} (hst : Mirrors h s t) :
    s.head = t.head := by
  rw [← hst.unslotted, Stream.unslotted, Stream.head_mapSlots]

theorem Mirrors.held_eq {h : Nat} {s : SlottedStream} {t : Stream} (hst : Mirrors h s t) :
    s.held = t.held := by
  rw [← hst.unslotted, Stream.unslotted, Stream.held_mapSlots]

theorem mirrors_parts {h : Nat} {ss : List SlottedStream} (hs : ∀ s ∈ ss, s.InStep)
    (hh : Stream.heightAll ss ≤ h) : List.Forall₂ (Mirrors h) ss (ss.map Stream.unslotted) := by
  refine List.forall₂_map_right_iff.2 (List.forall₂_same.2 fun s hmem => ⟨rfl, hs s hmem, ?_⟩)
  rw [Stream.unslotted, Stream.height_mapSlots]
  exact Nat.le_trans (Stream.height_le_heightAll hmem) hh

theorem parts_of_mirrors {h : Nat} {ss : List SlottedStream} {ts : List Stream}
    (hst : List.Forall₂ (Mirrors h) ss ts) :
    ss.map Stream.unslotted = ts ∧ (∀ s ∈ ss, s.InStep) ∧ Stream.heightAll ts ≤ h := by
  induction hst with
  | nil => exact ⟨rfl, nofun, Nat.zero_le h⟩
  | cons hst _ ih =>
    obtain ⟨hplain, hstep, hheight⟩ := ih
    refine ⟨by rw [List.map_cons, hst.unslotted, hplain], ?_, ?_⟩
    · exact List.forall_mem_cons.2 ⟨hst.inStep, hstep⟩
    · rw [Stream.heightAll_cons]
      exact Nat.max_le.2 ⟨hst.height, hheight⟩

theorem heldAll_of_mirrors {h : Nat} {ss : List SlottedStream} {ts : List Stream}
    (hst : List.Forall₂ (Mirrors h) ss ts) : Stream.heldAll ss = Stream.heldAll ts := by
  rw [← (parts_of_mirrors hst).1, ← Stream.heldAll_mapAllSlots fun _ => (),
    Stream.mapAllSlots_eq_map]
  rfl

/-! ## Asking and passing -/

/-- What is offered by a stream with the given head. -/
def offered : Head → Except Head (Option Entry)
  | .ready e => .ok (some e)
  | .failed error => .error (.failed error)
  | .unread | .ended => .ok none

/-- The entry in front of a stream with the given head. -/
def fronted : Head → Except Head Entry
  | .ready e => .ok e
  | .failed error => .error (.failed error)
  | .unread | .ended => .error .ended

theorem known_fillAt {h : Nat} {t : Stream} (ht : t.height ≤ h) :
    (Stream.fillAt h t).head ≠ .unread := by
  rw [(Stream.fillAt_readsBelow h t ht).head]
  exact Trace.head_ne_unread _

theorem seekWithin_of_ready {fill : Stream → Stream} {t : Stream} {e : Entry}
    (hready : (fill t).head = .ready e) (shard : String) (n : Nat) :
    Stream.seekWithin fill shard (n + 1) t =
      if e.shard < shard then Stream.seekWithin fill shard n (fill t).pop else fill t := by
  simp only [Stream.seekWithin, Stream.headShard?, hready, Head.entry?, Option.map_some,
    Option.any_some, decide_eq_true_eq]

/-- The outcome of a call is the answer `a`, and leaves a stream that `t` is without its slots. -/
def Leaves {α : Type} (h : Nat) (outcome : α × SlottedStream) (a : α) (t : Stream) : Prop :=
  ∃ s, outcome = (a, s) ∧ Mirrors h s t

theorem leaves_of_and {α : Type} {h : Nat} {outcome : α × SlottedStream} {a : α} {t : Stream}
    (houtcome : outcome.1 = a ∧ Mirrors h outcome.2 t) : Leaves h outcome a t :=
  ⟨outcome.2, Prod.ext houtcome.1 rfl, houtcome.2⟩

section Below

variable {calls : Calls SlottedStream} {h : Nat} {s : SlottedStream} {t : Stream}
  (hcalls : calls.Simulates (Stream.callsBy (Stream.fillAt h)) (Mirrors h))

include hcalls

theorem offer_leaves (hst : Mirrors h s t) :
    Leaves h (calls.offer s) (offered (Stream.fillAt h t).head) (Stream.fillAt h t) := by
  have hsame := Stream.fillAt_of_known h (known_fillAt hst.height)
  obtain ⟨s', hasked, hs'⟩ := leaves_of_and (hcalls.hasNext hst)
  cases hhead : (Stream.fillAt h t).head with
  | ready e =>
    simp only [Stream.callsBy, hhead] at hasked hs'
    obtain ⟨s'', hpeeked, hs''⟩ := leaves_of_and (hcalls.peek hs')
    simp only [Stream.callsBy, hsame, hhead] at hpeeked hs''
    exact ⟨s'', by simp only [Calls.offer, hasked, hpeeked, offered], hs''⟩
  | unread | ended | failed error =>
    simp only [Stream.callsBy, hhead] at hasked hs'
    exact ⟨s', by simp only [Calls.offer, hasked, offered], hs'⟩

theorem front_leaves (hst : Mirrors h s t) :
    Leaves h (calls.front s) (fronted (Stream.fillAt h t).head) (Stream.fillAt h t) := by
  obtain ⟨s', hoffer, hs'⟩ := offer_leaves hcalls hst
  refine ⟨s', ?_, hs'⟩
  rw [Calls.front, hoffer]
  cases (Stream.fillAt h t).head <;> rfl

theorem take_leaves (hst : Mirrors h s t) {e : Entry} (hready : t.head = .ready e) :
    Leaves h (calls.take s) (.ok e) t.pop := by
  have hsame : Stream.fillAt h t = t := Stream.fillAt_of_known h (by simp [hready])
  obtain ⟨s', hnext, hs'⟩ := leaves_of_and (hcalls.next hst)
  simp only [Stream.callsBy, hsame, hready] at hnext hs'
  exact ⟨s', by simp only [Calls.take, hnext], hs'⟩

theorem takeAt_leaves (hst : Mirrors h s t) (hknown : t.head ≠ .unread)
    (hsound : t.head.isFailure = false) (shard : String) :
    Leaves h (calls.takeAt shard s) (.ok (t.head.entry?.filter (·.shard = shard)))
      (if (t.setAt? shard).isSome then t.pop else t) := by
  obtain ⟨s', hoffer, hs'⟩ := offer_leaves hcalls hst
  rw [Stream.fillAt_of_known h hknown] at hoffer hs'
  rw [Calls.takeAt, hoffer]
  cases hhead : t.head with
  | unread => exact absurd hhead hknown
  | failed error =>
    rw [hhead] at hsound
    cases hsound
  | ended =>
    simp only [Stream.setAt?, hhead]
    exact ⟨s', rfl, hs'⟩
  | ready e =>
    by_cases hshard : e.shard = shard
    · obtain ⟨s'', htake, hs''⟩ := take_leaves hcalls hs' hhead
      have hset : (t.setAt? shard).isSome := by
        simp [Stream.setAt?, hhead, Head.entry?, Option.filter, hshard]
      rw [if_pos hset]
      exact ⟨s'', by simp [offered, hshard, htake, Head.entry?, Option.filter], hs''⟩
    · have hset : ¬ (t.setAt? shard).isSome := by
        simp [Stream.setAt?, hhead, Head.entry?, Option.filter, hshard]
      rw [if_neg hset]
      exact ⟨s', by simp [offered, hshard, Head.entry?, Option.filter], hs'⟩

theorem seekWithin_leaves (shard : String) (n : Nat) (hst : Mirrors h s t) :
    Leaves h (calls.seekWithin shard n s)
      (fronted (Stream.seekWithin (Stream.fillAt h) shard n t).head)
      (Stream.seekWithin (Stream.fillAt h) shard n t) := by
  induction n generalizing s t with
  | zero => exact front_leaves hcalls hst
  | succ n ih =>
    have hknown := known_fillAt hst.height
    obtain ⟨s', hoffer, hs'⟩ := offer_leaves hcalls hst
    have hfront := front_leaves hcalls hs'
    rw [Stream.fillAt_of_known h hknown] at hfront
    generalize hhead : (Stream.fillAt h t).head = head at hknown hoffer hfront
    rw [Calls.seekWithin, hoffer]
    cases head with
    | unread => exact absurd rfl hknown
    | ended =>
      simpa [offered, Stream.seekWithin, Stream.headShard?, hhead, Head.entry?] using hfront
    | failed error =>
      simp only [offered, Stream.seekWithin, Stream.headShard?, hhead, Head.entry?]
      exact ⟨s', by simp [fronted, hhead], hs'⟩
    | ready e =>
      by_cases hbefore : e.shard < shard
      · obtain ⟨s'', htake, hs''⟩ := take_leaves hcalls hs' hhead
        simp only [offered, seekWithin_of_ready hhead, if_pos hbefore, htake]
        exact ih hs''
      · simp only [offered, seekWithin_of_ready hhead, if_neg hbefore, hhead]
        exact hfront

end Below

/-! ## Sweeps by calls -/

section Sweep

variable {α : Type} {h : Nat} {stop : Head → Bool} {shown : α → Option Entry}

/-- What a step by calls comes to, where a sweep leaves `t`: the head of `t` if that stops the
    sweep, else an answer that shows the entry `found`. -/
inductive Stepped (h : Nat) (stop : Head → Bool) (shown : α → Option Entry)
    (found : Option Entry) : Except Head α × SlottedStream → Stream → Prop where
  | stopped {s : SlottedStream} {t : Stream} (met : stop t.head = true) (part : Mirrors h s t) :
      Stepped h stop shown found (.error t.head, s) t
  | through {a : α} {s : SlottedStream} {t : Stream} (unmet : stop t.head = false)
      (part : Mirrors h s t) (shows : shown a = found) : Stepped h stop shown found (.ok a, s) t

/-- What steps by calls come to from left to right, next to what a sweep comes to: both are stopped
    by one head, or the sweep leaves the streams `after` and the answers show the entries
    `found`. -/
inductive Swept (h : Nat) (stop : Head → Bool) (shown : α → Option Entry)
    (found : List (Option Entry)) (after : List Stream) :
    Except Head (List α) × List SlottedStream → Option Head × List Stream → Prop where
  | stopped {ss : List SlottedStream} {ts : List Stream} (head : Head)
      (parts : List.Forall₂ (Mirrors h) ss ts) :
      Swept h stop shown found after (.error head, ss) (some head, ts)
  | through {as : List α} {ss : List SlottedStream} (unmet : ∀ t ∈ after, stop t.head = false)
      (parts : List.Forall₂ (Mirrors h) ss after) (shows : as.map shown = found) :
      Swept h stop shown found after (.ok as, ss) (none, after)

theorem swept_each {step : SlottedStream → Except Head α × SlottedStream}
    {step' : Stream → Stream} {found : Stream → Option Entry} {ss : List SlottedStream}
    {ts : List Stream} (hparts : List.Forall₂ (Mirrors h) ss ts)
    (hstep : ∀ s, ∀ t ∈ ts, Mirrors h s t → Stepped h stop shown (found t) (step s) (step' t)) :
    Swept h stop shown (ts.map found) (ts.map step') (each step ss)
      (Stream.sweep step' stop ts) := by
  induction hparts with
  | nil => exact .through nofun .nil rfl
  | @cons s t ss ts hst hrest ih =>
    have hfirst := hstep s t List.mem_cons_self hst
    have hothers := ih fun s t ht => hstep s t (List.mem_cons_of_mem _ ht)
    simp only [each, Stream.sweep, List.map_cons]
    generalize step s = first, step' t = t' at hfirst
    cases hfirst with
    | stopped met part =>
      simp only [met]
      exact .stopped _ (.cons part hrest)
    | through unmet part shows =>
      simp only [unmet]
      generalize each step ss = answers, Stream.sweep step' stop ts = swept at hothers
      cases hothers with
      | stopped head parts => exact .stopped head (.cons part parts)
      | through unmets parts showsAll =>
        exact .through (List.forall_mem_cons.2 ⟨unmet, unmets⟩) (.cons part parts)
          (by rw [List.map_cons, shows, showsAll])

theorem sweep_all (step : Stream → Stream) (ts : List Stream) :
    Stream.sweep step (fun _ => false) ts = (none, ts.map step) := by
  induction ts with
  | nil => rfl
  | cons t rest ih => simp [Stream.sweep, ih]

end Sweep

/-! ## What is shown of the entries -/

section Shown

variable {es : List Entry} {os : List (Option Entry)} {ts : List Stream} {shard : String}

theorem shards_of_offers (h : os = ts.map (·.head.entry?)) :
    os.filterMap (Option.map (·.shard)) = ts.filterMap Stream.headShard? := by
  rw [h, List.filterMap_map]
  rfl

theorem shards_of_fronts (h : es.map some = ts.map (·.head.entry?)) :
    es.map (·.shard) = ts.filterMap Stream.headShard? := by
  rw [← shards_of_offers h, List.filterMap_map, ← List.filterMap_eq_map]
  rfl

theorem aligned_of_fronts (h : es.map some = ts.map (·.head.entry?)) :
    es.all (·.shard = shard) = ts.all (fun t => (t.setAt? shard).isSome) := by
  have hall : ts.all (fun t => (t.setAt? shard).isSome) =
      (ts.map (·.head.entry?)).all
        (fun o => ((o.filter (·.shard = shard)).map (·.set)).isSome) := by
    rw [List.all_map]
    rfl
  rw [hall, ← h, List.all_map]
  congr 1
  funext e
  by_cases he : e.shard = shard <;> simp [Option.filter, he]

theorem sets_of_fronts (h : es.map some = ts.map (·.head.entry?))
    (haligned : es.all (·.shard = shard) = true) :
    es.map (·.set) = ts.filterMap (Stream.setAt? shard) := by
  have hsets : ts.filterMap (Stream.setAt? shard) =
      (ts.map (·.head.entry?)).filterMap (fun o => (o.filter (·.shard = shard)).map (·.set)) := by
    rw [List.filterMap_map]
    rfl
  rw [hsets, ← h, List.filterMap_map, ← List.filterMap_eq_map]
  refine List.filterMap_congr fun e he => ?_
  have hshard : e.shard = shard := of_decide_eq_true (List.all_eq_true.1 haligned e he)
  simp [Option.filter, hshard]

theorem sets_of_offers (h : os = ts.map fun t => t.head.entry?.filter (·.shard = shard)) :
    os.filterMap (Option.map (·.set)) = ts.filterMap (Stream.setAt? shard) := by
  rw [h, List.filterMap_map]
  rfl

end Shown

/-! ## Rounds by calls -/

/-- Two rounds come to the same, but for the slots in the parts they leave. -/
inductive RoundMirrors (h : Nat) : Stream.Round SlottedStream → Stream.Round → Prop where
  | settled (head : Head) {ss : List SlottedStream} {ts : List Stream}
      (parts : List.Forall₂ (Mirrors h) ss ts) :
      RoundMirrors h (.settled head ss) (.settled head ts)
  | again {ss : List SlottedStream} {ts : List Stream}
      (parts : List.Forall₂ (Mirrors h) ss ts) : RoundMirrors h (.again ss) (.again ts)

section Rounds

variable {calls : Calls SlottedStream} {h : Nat} {ss : List SlottedStream} {ts : List Stream}
  (hcalls : calls.Simulates (Stream.callsBy (Stream.fillAt h)) (Mirrors h))

/-- Asking for the entry in front is the step of a sweep that stops where a stream is over. -/
theorem stepped_of_fronted {outcome : Except Head Entry × SlottedStream} {t : Stream}
    (ht : t.head ≠ .unread) (houtcome : Leaves h outcome (fronted t.head) t) :
    Stepped h Head.isOver some t.head.entry? outcome t := by
  obtain ⟨s, rfl, hst⟩ := houtcome
  cases hhead : t.head with
  | unread => exact absurd hhead ht
  | ready e => exact .through (by rw [hhead]; rfl) hst rfl
  | ended | failed error =>
    rw [fronted, ← hhead]
    exact .stopped (by rw [hhead]; rfl) hst

theorem known_seekWithin {t : Stream} (ht : t.height ≤ h) (shard : String) :
    (Stream.seek (Stream.fillAt h) shard t).head ≠ .unread := by
  rw [(Stream.seek_readsTo (Stream.fillAt_readsBelow h) shard t ht).head]
  exact Trace.head_ne_unread _

include hcalls

theorem swept_front (hparts : List.Forall₂ (Mirrors h) ss ts) :
    Swept h Head.isOver some ((ts.map (Stream.fillAt h)).map (·.head.entry?))
      (ts.map (Stream.fillAt h)) (each calls.front ss)
      (Stream.sweep (Stream.fillAt h) Head.isOver ts) := by
  rw [List.map_map]
  exact swept_each hparts fun s t _ hst =>
    stepped_of_fronted (known_fillAt hst.height) (front_leaves hcalls hst)

theorem swept_seek (shard : String) (hparts : List.Forall₂ (Mirrors h) ss ts) :
    Swept h Head.isOver some
      ((ts.map (Stream.seek (Stream.fillAt h) shard)).map (·.head.entry?))
      (ts.map (Stream.seek (Stream.fillAt h) shard)) (each (calls.seek shard) ss)
      (Stream.sweep (Stream.seek (Stream.fillAt h) shard) Head.isOver ts) := by
  rw [List.map_map]
  refine swept_each hparts fun s t _ hst => ?_
  refine stepped_of_fronted (known_seekWithin hst.height shard) ?_
  rw [Calls.seek, Stream.seek, hst.held_eq]
  exact seekWithin_leaves hcalls shard t.held hst

theorem swept_take (hready : ∀ t ∈ ts, ∃ e, t.head = .ready e)
    (hparts : List.Forall₂ (Mirrors h) ss ts) :
    Swept h (fun _ => false) some (ts.map (·.head.entry?)) (ts.map Stream.pop)
      (each calls.take ss) (none, ts.map Stream.pop) := by
  rw [← sweep_all Stream.pop ts]
  refine swept_each hparts fun s t ht hst => ?_
  obtain ⟨e, he⟩ := hready t ht
  obtain ⟨s', htake, hs'⟩ := take_leaves hcalls hst he
  rw [htake, he]
  exact .through rfl hs' rfl

theorem swept_offer (hparts : List.Forall₂ (Mirrors h) ss ts) :
    Swept h Head.isFailure id ((ts.map (Stream.fillAt h)).map (·.head.entry?))
      (ts.map (Stream.fillAt h)) (each calls.offer ss)
      (Stream.sweep (Stream.fillAt h) Head.isFailure ts) := by
  rw [List.map_map]
  refine swept_each hparts fun s t _ hst => ?_
  obtain ⟨s', hoffer, hs'⟩ := offer_leaves hcalls hst
  rw [hoffer]
  cases hhead : (Stream.fillAt h t).head with
  | failed error =>
    rw [offered, ← hhead]
    exact .stopped (by rw [hhead]; rfl) hs'
  | unread | ended | ready e =>
    exact .through (by rw [hhead]; rfl) hs' (by simp [hhead, Head.entry?])

theorem swept_takeAt (shard : String) (hknown : ∀ t ∈ ts, t.head ≠ .unread)
    (hsound : ∀ t ∈ ts, t.head.isFailure = false) (hparts : List.Forall₂ (Mirrors h) ss ts) :
    let left := ts.map fun t => if (t.setAt? shard).isSome then t.pop else t
    Swept h (fun _ => false) id (ts.map fun t => t.head.entry?.filter (·.shard = shard)) left
      (each (calls.takeAt shard) ss) (none, left) := by
  intro left
  rw [← sweep_all _ ts]
  refine swept_each hparts fun s t ht hst => ?_
  obtain ⟨s', htake, hs'⟩ := takeAt_leaves hcalls hst (hknown t ht) (hsound t ht) shard
  rw [htake]
  exact .through rfl hs' rfl

theorem meetRound_mirrors (node : Option NodeId) (hparts : List.Forall₂ (Mirrors h) ss ts) :
    RoundMirrors h (calls.meetRound node ss) (Stream.meetRound (Stream.fillAt h) node ts) := by
  have hfronts := swept_front hcalls hparts
  unfold Calls.meetRound Stream.meetRound
  generalize each calls.front ss = answers,
    Stream.sweep (Stream.fillAt h) Head.isOver ts = swept at hfronts ⊢
  cases hfronts with
  | stopped head parts => exact .settled head parts
  | through unmet hfilled hshown =>
    simp only [shards_of_fronts hshown]
    cases Stream.greatest ((ts.map (Stream.fillAt h)).filterMap Stream.headShard?) with
    | none => exact .settled .ended hfilled
    | some shard =>
      have hsought := swept_seek hcalls shard hfilled
      simp only
      generalize each (calls.seek shard) _ = answers,
        Stream.sweep (Stream.seek (Stream.fillAt h) shard) Head.isOver _ = swept at hsought ⊢
      cases hsought with
      | stopped head parts => exact .settled head parts
      | through unmet hlined hshown =>
        simp only [aligned_of_fronts hshown]
        split
        · next haligned =>
          have hready := fun t ht =>
            Stream.head_of_setAt? (List.all_eq_true.1 haligned t ht)
          have htaken := swept_take hcalls hready hlined
          generalize each calls.take _ = answers at htaken ⊢
          cases htaken with
          | through unmet hpopped hshown' =>
            rw [← aligned_of_fronts hshown'] at haligned
            simp only [sets_of_fronts hshown' haligned]
            split
            · exact .again hpopped
            · exact .settled _ hpopped
        · exact .again hlined

theorem joinRound_mirrors (node : Option NodeId) (hparts : List.Forall₂ (Mirrors h) ss ts) :
    RoundMirrors h (calls.joinRound node ss) (Stream.joinRound (Stream.fillAt h) node ts) := by
  have hoffers := swept_offer hcalls hparts
  unfold Calls.joinRound Stream.joinRound
  generalize each calls.offer ss = answers,
    Stream.sweep (Stream.fillAt h) Head.isFailure ts = swept at hoffers ⊢
  cases hoffers with
  | stopped head parts => exact .settled head parts
  | through unmet hfilled hshown =>
    rw [List.map_id] at hshown
    simp only [shards_of_offers hshown]
    cases Stream.least ((ts.map (Stream.fillAt h)).filterMap Stream.headShard?) with
    | none => exact .settled .ended hfilled
    | some shard =>
      have hknown : ∀ t ∈ ts.map (Stream.fillAt h), t.head ≠ .unread := by
        refine List.forall_mem_map.2 fun t ht => known_fillAt ?_
        exact Stream.height_le_of_mem ht (parts_of_mirrors hparts).2.2
      have htaken := swept_takeAt hcalls shard hknown unmet hfilled
      simp only at htaken ⊢
      generalize each (calls.takeAt shard) _ = answers at htaken ⊢
      cases htaken with
      | through unmet hleft hshown' =>
        rw [List.map_id] at hshown'
        simp only [sets_of_offers hshown']
        split
        · exact .again hleft
        · exact .settled _ hleft

end Rounds

end SlottedStream

end ShardSearch
