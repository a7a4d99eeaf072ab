import ShardSearch.Proofs.Assembly

/-!
# Failures are reported

As soon as a scan fails, each stream above it fails, up to the one that is read: no composite goes
on without the scan (`call_reports`).  And a stream that has failed stays as it is
(`run_of_isFailure`).  So at any time a stream has failed exactly if some scan in it has
(`run_isFailure_iff`).
-/

namespace ShardSearch.Stream

mutual

/-- Whether some scan in a stream has failed. -/
def hasFailed : Stream → Bool
  | leaf .. => false
  | scan _ _ _ head => head.isFailure
  | intersection _ _ filters deferred _ => anyFailed filters || anyFailed deferred
  | union _ _ _ sources _ => anyFailed sources
  | ancestor delegate _ _ => hasFailed delegate

/-- Whether some scan in some of the streams has failed. -/
def anyFailed : List Stream → Bool
  | [] => false
  | s :: rest => hasFailed s || anyFailed rest

end

theorem anyFailed_eq_any (ss : List Stream) : anyFailed ss = ss.any hasFailed := by
  induction ss with
  | nil => rfl
  | cons s rest ih => rw [anyFailed, ih, List.any_cons]

/-- No failure has been met in the stream, by a scan or by a composite. -/
inductive Sound : Stream → Prop where
  | leaf (node : Option NodeId) (context : Context) (label : String) (entries : List Entry) :
      Sound (leaf node context label entries)
  | scan (node : Option NodeId) (label : String) (scanner : Scanner) {head : Head}
      (sound : head.isFailure = false) : Sound (scan node label scanner head)
  | intersection (node : Option NodeId) (context : Context) {filters deferred : List Stream}
      {head : Head} (read : ∀ part ∈ filters, Sound part) (putOff : ∀ part ∈ deferred, Sound part)
      (sound : head.isFailure = false) : Sound (intersection node context filters deferred head)
  | union (node : Option NodeId) (context : Context) (prunes : Bool) {sources : List Stream}
      {head : Head} (read : ∀ part ∈ sources, Sound part) (sound : head.isFailure = false) :
      Sound (union node context prunes sources head)
  | ancestor {delegate : Stream} (parent : Option NodeId) (read : Sound delegate) :
      Sound (ancestor delegate parent ())

/-- No failure has been met, or the stream itself has failed, and some scan in it. -/
def Reported (s : Stream) : Prop := s.Sound ∨ s.head.isFailure = true ∧ s.hasFailed = true

variable {s : Stream}

theorem isFailure_mapSet (f : MatchSet → MatchSet) (head : Head) :
    (head.mapSet f).isFailure = head.isFailure := by
  cases head <;> rfl

theorem anyFailed_eq_false (ss : List Stream) (h : ∀ s ∈ ss, s.hasFailed = false) :
    anyFailed ss = false := by
  rw [anyFailed_eq_any, List.any_eq_false]
  intro s hs
  rw [h s hs]
  exact Bool.false_ne_true

theorem Sound.hasFailed_eq_false (h : s.Sound) : s.hasFailed = false := by
  induction h with
  | leaf => rfl
  | scan node label scanner sound => exact sound
  | intersection node context read putOff sound ihRead ihPutOff =>
    rw [hasFailed, anyFailed_eq_false _ ihRead, anyFailed_eq_false _ ihPutOff]
    rfl
  | union node context prunes read sound ih => exact anyFailed_eq_false _ ih
  | ancestor parent read ih => exact ih

theorem Sound.head_isFailure (h : s.Sound) : s.head.isFailure = false := by
  induction h with
  | leaf node context label entries => cases entries <;> rfl
  | scan node label scanner sound => exact sound
  | intersection node context read putOff sound => exact sound
  | union node context prunes read sound => exact sound
  | ancestor parent read ih => rwa [Stream.head, isFailure_mapSet]

theorem Sound.pop (h : s.Sound) : s.pop.Sound := by
  induction h with
  | leaf => exact .leaf ..
  | @scan node label scanner head sound =>
    cases head with
    | ready e => exact .scan _ _ _ rfl
    | unread | ended | failed error => exact .scan _ _ _ sound
  | @intersection node context filters deferred head read putOff sound =>
    cases head with
    | ready e => exact .intersection _ _ read putOff rfl
    | unread | ended | failed error => exact .intersection _ _ read putOff sound
  | @union node context prunes sources head read sound =>
    cases head with
    | ready e => exact .union _ _ _ read rfl
    | unread | ended | failed error => exact .union _ _ _ read sound
  | ancestor parent read ih => exact .ancestor parent ih

theorem isFailure_firstHead (parts : List Stream) : (firstHead parts).isFailure = false := by
  cases parts <;> rfl

/-- No failure has been met in a stream that has not been read. -/
theorem BuiltFrom.sound {s : Stream} (h : s.BuiltFrom IsLeaf) : s.Sound := by
  induction h with
  | leaf kind =>
    rcases isLeaf_cases kind with ⟨node, context, label, sets, -, rfl⟩ | ⟨node, label, items, rfl⟩
    · exact .leaf ..
    · exact .scan _ _ _ rfl
  | intersection parts made ih =>
    obtain ⟨-, hcase⟩ := intersect_cases made
    cases hcase with
    | absent => exact .intersection _ _ (List.forall_mem_nil _) ih rfl
    | present =>
      exact .intersection _ _ (fun part hpart => ih part (List.mem_of_mem_filter hpart))
        (fun part hpart => ih part (List.mem_of_mem_filter hpart)) (isFailure_firstHead _)
  | union parts made ih =>
    obtain ⟨-, rfl⟩ := unite_eq_ok made
    exact .union _ _ _ (fun part hpart => ih part (List.mem_of_mem_filter hpart))
      (isFailure_firstHead _)
  | ancestor parent part ih => exact .ancestor parent ih

theorem sound_map_pop {ss : List Stream} (h : ∀ s ∈ ss, s.Sound) : ∀ s ∈ ss.map pop, s.Sound := by
  intro s hs
  obtain ⟨s', hs', rfl⟩ := List.mem_map.1 hs
  exact (h s' hs').pop

/-! ## Rounds -/

/-- A composite of the given parts with this head: no failure has been met in the parts, or the head
    is a failure, and some scan in the parts has failed. -/
def ReportedAs (head : Head) (parts : List Stream) : Prop :=
  (∀ part ∈ parts, part.Sound) ∧ head.isFailure = false ∨
    head.isFailure = true ∧ anyFailed parts = true

/-- What a sweep that meets a failure comes to. -/
inductive SweepReports : Option Head × List Stream → Prop where
  | stopped {head : Head} {parts : List Stream} (reported : ReportedAs head parts) :
      SweepReports (some head, parts)
  | through {parts : List Stream} (sound : ∀ part ∈ parts, part.Sound) : SweepReports (none, parts)

/-- What a round that meets a failure comes to. -/
inductive RoundReports : Round → Prop where
  | settled {head : Head} {parts : List Stream} (reported : ReportedAs head parts) :
      RoundReports (.settled head parts)
  | again {parts : List Stream} (sound : ∀ part ∈ parts, part.Sound) : RoundReports (.again parts)

theorem reportedAs_cons {t : Stream} {rest : List Stream} (ht : t.Reported)
    (hrest : ∀ s ∈ rest, s.Sound) : ReportedAs t.head (t :: rest) := by
  rcases ht with hsound | ⟨hhead, hfailed⟩
  · exact .inl ⟨List.forall_mem_cons.2 ⟨hsound, hrest⟩, hsound.head_isFailure⟩
  · exact .inr ⟨hhead, by rw [anyFailed, hfailed, Bool.true_or]⟩

theorem ReportedAs.cons {head : Head} {t : Stream} {rest : List Stream} (ht : t.Sound)
    (h : ReportedAs head rest) : ReportedAs head (t :: rest) := by
  rcases h with ⟨hrest, hhead⟩ | ⟨hhead, hfailed⟩
  · exact .inl ⟨List.forall_mem_cons.2 ⟨ht, hrest⟩, hhead⟩
  · exact .inr ⟨hhead, by rw [anyFailed, hfailed, Bool.or_true]⟩

section Steps

variable {step : Stream → Stream} (hstep : ∀ s : Stream, s.Sound → (step s).Reported)

include hstep

/-- A sweep that stops at failures meets one only where it stops. -/
theorem sweep_reports {stop : Head → Bool}
    (hstop : ∀ head, head.isFailure = true → stop head = true) {ss : List Stream}
    (hss : ∀ s ∈ ss, s.Sound) : SweepReports (sweep step stop ss) := by
  induction ss with
  | nil => exact .through hss
  | cons s rest ih =>
    obtain ⟨hs, hrest⟩ := List.forall_mem_cons.1 hss
    have hreported := hstep s hs
    have hswept := ih hrest
    simp only [sweep]
    split
    · exact .stopped (reportedAs_cons hreported hrest)
    · next hgo =>
      have hsound : (step s).Sound :=
        hreported.resolve_right fun hfailed => hgo (hstop _ hfailed.1)
      generalize sweep step stop rest = swept at hswept ⊢
      cases hswept with
      | stopped hreported => exact .stopped (hreported.cons hsound)
      | through hall => exact .through (List.forall_mem_cons.2 ⟨hsound, hall⟩)

theorem seekWithin_reports (shard : String) (n : Nat) (hs : s.Sound) :
    (seekWithin step shard n s).Reported := by
  induction n generalizing s with
  | zero => exact hstep s hs
  | succ n ih =>
    simp only [seekWithin]
    split
    · next hlt =>
      rcases hstep s hs with hsound | ⟨hhead, -⟩
      · exact ih hsound.pop
      · cases hfill : (step s).head with
        | failed error => rw [headShard?, hfill] at hlt; cases hlt
        | unread | ready e | ended => rw [hfill] at hhead; cases hhead
    · exact hstep s hs

theorem seek_reports (shard : String) (hs : s.Sound) : (seek step shard s).Reported :=
  seekWithin_reports hstep shard s.held hs

theorem meetRound_reports (node : Option NodeId) {parts : List Stream}
    (hparts : ∀ part ∈ parts, part.Sound) : RoundReports (meetRound step node parts) := by
  have hfirst := sweep_reports hstep (fun _ => Head.isOver_of_isFailure) hparts
  unfold meetRound
  generalize sweep step Head.isOver parts = swept at hfirst ⊢
  cases hfirst with
  | stopped hreported => exact .settled hreported
  | @through filled hfilled =>
    simp only
    cases greatest (filled.filterMap headShard?) with
    | none => exact .settled (.inl ⟨hfilled, rfl⟩)
    | some shard =>
      have hsecond := sweep_reports (fun _ => seek_reports hstep shard)
        (fun _ => Head.isOver_of_isFailure) hfilled
      simp only
      generalize sweep (seek step shard) Head.isOver filled = swept at hsecond ⊢
      cases hsecond with
      | stopped hreported => exact .settled hreported
      | through hsought =>
        simp only
        split
        · split
          · exact .again (sound_map_pop hsought)
          · exact .settled (.inl ⟨sound_map_pop hsought, rfl⟩)
        · exact .again hsought

theorem joinRound_reports (node : Option NodeId) {parts : List Stream}
    (hparts : ∀ part ∈ parts, part.Sound) : RoundReports (joinRound step node parts) := by
  have hfirst := sweep_reports hstep (fun _ h => h) hparts
  unfold joinRound
  generalize sweep step Head.isFailure parts = swept at hfirst ⊢
  cases hfirst with
  | stopped hreported => exact .settled hreported
  | @through filled hfilled =>
    simp only
    cases least (filled.filterMap headShard?) with
    | none => exact .settled (.inl ⟨hfilled, rfl⟩)
    | some shard =>
      have hleft : ∀ part ∈ filled.map fun s => if (s.setAt? shard).isSome then s.pop else s,
          part.Sound := by
        intro part hpart
        obtain ⟨s, hs, rfl⟩ := List.mem_map.1 hpart
        split
        · exact (hfilled s hs).pop
        · exact hfilled s hs
      simp only
      split
      · exact .again hleft
      · exact .settled (.inl ⟨hleft, rfl⟩)

end Steps

theorem settleWithin_reports {round : List Stream → Round}
    (hround : ∀ parts, (∀ part ∈ parts, part.Sound) → RoundReports (round parts)) (n : Nat)
    {parts : List Stream} (hparts : ∀ part ∈ parts, part.Sound) :
    ReportedAs (settleWithin round n parts).1 (settleWithin round n parts).2 := by
  induction n generalizing parts with
  | zero => exact .inl ⟨hparts, rfl⟩
  | succ n ih =>
    have hreports := hround parts hparts
    simp only [settleWithin]
    generalize round parts = outcome at hreports ⊢
    cases hreports with
    | settled hreported => exact hreported
    | again hsound => exact ih hsound

/-! ## Filling -/

/-- If a scan fails while a stream is filled, the stream fails. -/
theorem fillAt_reports (h : Nat) (hs : s.Sound) : (fillAt h s).Reported := by
  induction h generalizing s with
  | zero => exact .inl hs
  | succ h ih =>
    cases hs with
    | leaf node context label entries => exact .inl (.leaf node context label entries)
    | @scan node label scanner head sound =>
      cases head with
      | unread =>
        rw [fillAt_scan]
        cases hfail : scanner.pull.1.isFailure with
        | true => exact .inr ⟨hfail, hfail⟩
        | false => exact .inl (.scan node label _ hfail)
      | ready e | ended | failed error => exact .inl (.scan node label scanner sound)
    | @intersection node context filters deferred head read putOff sound =>
      cases head with
      | unread =>
        rw [fillAt_intersection]
        rcases settleWithin_reports (fun _ => meetRound_reports (fun _ => ih) node)
          (heldAll filters + 1) read with ⟨hfilters, hhead⟩ | ⟨hhead, hfailed⟩
        · exact .inl (.intersection node context hfilters putOff hhead)
        · exact .inr ⟨hhead, by rw [hasFailed]; exact Bool.or_eq_true_iff.2 (.inl hfailed)⟩
      | ready e | ended | failed error => exact .inl (.intersection node context read putOff sound)
    | @union node context prunes sources head read sound =>
      cases head with
      | unread =>
        rw [fillAt_union]
        rcases settleWithin_reports (fun _ => joinRound_reports (fun _ => ih) node)
          (heldAll sources + 1) read with ⟨hsources, hhead⟩ | ⟨hhead, hfailed⟩
        · exact .inl (.union node context prunes hsources hhead)
        · exact .inr ⟨hhead, hfailed⟩
      | ready e | ended | failed error => exact .inl (.union node context prunes read sound)
    | ancestor parent read =>
      rcases ih read with hsound | ⟨hhead, hfailed⟩
      · exact .inl (.ancestor parent hsound)
      · refine .inr ⟨?_, hfailed⟩
        rw [fillAt, Stream.head, isFailure_mapSet]
        exact hhead

/-- A stream whose head is known is left as it is. -/
theorem fillAt_of_known (h : Nat) (hs : s.head ≠ .unread) : fillAt h s = s := by
  induction h generalizing s with
  | zero => rfl
  | succ h ih =>
    cases s with
    | leaf node context label entries => rfl
    | scan node label scanner head =>
      cases head with
      | unread => exact absurd rfl hs
      | ready e | ended | failed error => rfl
    | intersection node context filters deferred head =>
      cases head with
      | unread => exact absurd rfl hs
      | ready e | ended | failed error => rfl
    | union node context prunes sources head =>
      cases head with
      | unread => exact absurd rfl hs
      | ready e | ended | failed error => rfl
    | ancestor delegate parent slot =>
      rw [fillAt, ih]
      intro hunread
      rw [Stream.head, hunread] at hs
      exact hs rfl

/-! ## Calls -/

/-- How a stream is left by a call. -/
theorem state_of_call (s : Stream) (c : Call) :
    c = .remove ∧ (s.call c).2 = s ∨ (s.call c).2 = s.fill ∨
      (∃ e, s.fill.head = .ready e) ∧ (s.call c).2 = s.fill.pop := by
  cases c with
  | remove => exact .inl ⟨rfl, rfl⟩
  | hasNext =>
    simp only [call, calls, callsBy, Calls.call]
    cases s.fill.head <;> exact .inr (.inl rfl)
  | peek =>
    simp only [call, calls, callsBy, Calls.call]
    cases s.fill.head <;> exact .inr (.inl rfl)
  | next =>
    simp only [call, calls, callsBy, Calls.call]
    cases hhead : s.fill.head with
    | ready e => exact .inr (.inr ⟨⟨e, rfl⟩, rfl⟩)
    | unread | ended | failed error => exact .inr (.inl rfl)

/-- If a scan fails during a call, the stream that is called fails. -/
theorem call_reports (hs : s.Sound) (c : Call) : (s.call c).2.Reported := by
  have hfill : s.fill.Reported := fillAt_reports s.height hs
  rcases state_of_call s c with ⟨-, heq⟩ | heq | ⟨⟨e, hready⟩, heq⟩
  · rw [heq]
    exact .inl hs
  · rw [heq]
    exact hfill
  · rw [heq]
    rcases hfill with hsound | ⟨hhead, -⟩
    · exact .inl hsound.pop
    · rw [hready] at hhead
      cases hhead

/-- A stream that has failed stays as it is. -/
theorem call_of_isFailure (hs : s.head.isFailure = true) (c : Call) : (s.call c).2 = s := by
  have hfill : s.fill = s := by
    apply fillAt_of_known
    intro hunread
    rw [hunread] at hs
    cases hs
  rcases state_of_call s c with ⟨-, heq⟩ | heq | ⟨⟨e, hready⟩, -⟩
  · exact heq
  · rw [heq, hfill]
  · rw [hfill] at hready
    rw [hready] at hs
    cases hs

theorem run_of_isFailure (hs : s.head.isFailure = true) (calls : List Call) :
    (s.run calls).2 = s := by
  induction calls with
  | nil => rfl
  | cons c calls ih => rw [run_cons, call_of_isFailure hs c, ih]

theorem Reported.isFailure_iff (h : s.Reported) :
    s.head.isFailure = true ↔ s.hasFailed = true := by
  rcases h with hsound | ⟨hhead, hfailed⟩
  · rw [hsound.head_isFailure, hsound.hasFailed_eq_false]
  · rw [hhead, hfailed]

theorem Reported.call (h : s.Reported) (c : Call) : (s.call c).2.Reported := by
  rcases h with hsound | ⟨hhead, hfailed⟩
  · exact call_reports hsound c
  · rw [call_of_isFailure hhead]
    exact .inr ⟨hhead, hfailed⟩

/-- Whatever calls are made, a stream has failed exactly if some scan in it has. -/
theorem run_isFailure_iff (h : s.Reported) (calls : List Call) :
    (s.run calls).2.head.isFailure = true ↔ (s.run calls).2.hasFailed = true := by
  induction calls generalizing s with
  | nil => exact h.isFailure_iff
  | cons c calls ih => exact ih (h.call c)

end ShardSearch.Stream
