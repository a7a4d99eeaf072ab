import ShardSearch.Proofs.Reporting

/-!
# Reading without bounds

The functions that read a stream go through their loops under a bound each.  Here the loops are
spelled out without one, as relations that hold only if the loop comes to an end: `Seeks` and
`Settles` are the loops, `Fills` is the preparation of a head through all levels of a stream, and
`Returns` and `Drains` are what a reader does.  Each of them comes to an end, with what the function
under a bound answers (`fills_iff`, `returns_iff`, `drains_iff`): no bound is ever met.
-/

namespace ShardSearch

namespace Stream

/-! ## Loops -/

section Loops

variable (Fill : Stream → Stream → Prop)

/-- Passes the entries that lie before `shard`, however many there are. -/
inductive Seeks (shard : String) : Stream → Stream → Prop where
  | arrived {s s' : Stream} (filled : Fill s s')
      (reached : s'.headShard?.any (· < shard) = false) : Seeks shard s s'
  | passed {s s' s'' : Stream} (filled : Fill s s')
      (before : s'.headShard?.any (· < shard) = true) (rest : Seeks shard s'.pop s'') :
      Seeks shard s s''

/-- Goes through streams from left to right, up to the first whose head then satisfies `stop`. -/
inductive Sweeps (stop : Head → Bool) : List Stream → Option Head × List Stream → Prop where
  | nil : Sweeps stop [] (none, [])
  | stopped {s s' : Stream} (rest : List Stream) (filled : Fill s s')
      (met : stop s'.head = true) : Sweeps stop (s :: rest) (some s'.head, s' :: rest)
  | through {s s' : Stream} {rest rest' : List Stream} {stopped : Option Head} (filled : Fill s s')
      (unmet : stop s'.head = false) (others : Sweeps stop rest (stopped, rest')) :
      Sweeps stop (s :: rest) (stopped, s' :: rest')

/-- The end of a round of an intersection, with all parts at `shard` or beyond. -/
def conclude (node : Option NodeId) (shard : String) (parts : List Stream) : Round :=
  if parts.all (fun s => (s.setAt? shard).isSome) then
    let set := MatchSet.intersect shard node (parts.filterMap (setAt? shard))
    if set.matchesNothing then .again (parts.map pop)
    else .settled (.ready ⟨shard, set⟩) (parts.map pop)
  else .again parts

/-- A round of an intersection. -/
inductive Meets (node : Option NodeId) (parts : List Stream) : Round → Prop where
  | stopped {head : Head} {parts' : List Stream}
      (filled : Sweeps Fill Head.isOver parts (some head, parts')) :
      Meets node parts (.settled head parts')
  | bare {parts' : List Stream} (filled : Sweeps Fill Head.isOver parts (none, parts'))
      (none_left : greatest (parts'.filterMap headShard?) = none) :
      Meets node parts (.settled .ended parts')
  | exhausted {shard : String} {head : Head} {parts' parts'' : List Stream}
      (filled : Sweeps Fill Head.isOver parts (none, parts'))
      (target : greatest (parts'.filterMap headShard?) = some shard)
      (sought : Sweeps (Seeks Fill shard) Head.isOver parts' (some head, parts'')) :
      Meets node parts (.settled head parts'')
  | sought {shard : String} {parts' parts'' : List Stream}
      (filled : Sweeps Fill Head.isOver parts (none, parts'))
      (target : greatest (parts'.filterMap headShard?) = some shard)
      (sought : Sweeps (Seeks Fill shard) Head.isOver parts' (none, parts'')) :
      Meets node parts (conclude node shard parts'')

/-- The end of a round of a union, with the heads of all parts known: `shard` is consumed. -/
def collect (node : Option NodeId) (shard : String) (parts : List Stream) : Round :=
  let set := MatchSet.unite shard node (parts.filterMap (setAt? shard))
  let parts := parts.map (fun s => if (s.setAt? shard).isSome then s.pop else s)
  if set.matchesNothing then .again parts else .settled (.ready ⟨shard, set⟩) parts

/-- A round of a union. -/
inductive Joins (node : Option NodeId) (parts : List Stream) : Round → Prop where
  | failed {head : Head} {parts' : List Stream}
      (filled : Sweeps Fill Head.isFailure parts (some head, parts')) :
      Joins node parts (.settled head parts')
  | ended {parts' : List Stream} (filled : Sweeps Fill Head.isFailure parts (none, parts'))
      (none_left : least (parts'.filterMap headShard?) = none) :
      Joins node parts (.settled .ended parts')
  | collected {shard : String} {parts' : List Stream}
      (filled : Sweeps Fill Head.isFailure parts (none, parts'))
      (target : least (parts'.filterMap headShard?) = some shard) :
      Joins node parts (collect node shard parts')

end Loops

/-- Goes through rounds until the head is settled, which takes `n` of them. -/
inductive Settles (Rounds : List Stream → Round → Prop) :
    (n : Nat) → List Stream → Head × List Stream → Prop where
  | settled {parts parts' : List Stream} {head : Head}
      (last : Rounds parts (.settled head parts')) : Settles Rounds 1 parts (head, parts')
  | again {n : Nat} {parts parts' : List Stream} {result : Head × List Stream}
      (first : Rounds parts (.again parts')) (rest : Settles Rounds n parts' result) :
      Settles Rounds (n + 1) parts result

/-- Makes the head of a stream known.  A composite does so by rounds in which its parts are filled
    in the same way. -/
inductive Fills : Stream → Stream → Prop where
  | known {s : Stream} (known : s.head ≠ .unread) : Fills s s
  | scan (node : Option NodeId) (label : String) (scanner : Scanner) :
      Fills (scan node label scanner .unread) (scan node label scanner.pull.2 scanner.pull.1)
  | intersection {Fill : Stream → Stream → Prop} {node : Option NodeId} {n : Nat} {head : Head}
      {filters filters' : List Stream} (context : Context) (deferred : List Stream)
      (parts : ∀ s s', Fill s s' → Fills s s')
      (rounds : Settles (Meets Fill node) n filters (head, filters')) :
      Fills (intersection node context filters deferred .unread)
        (intersection node context filters' deferred head)
  | union {Fill : Stream → Stream → Prop} {node : Option NodeId} {n : Nat} {head : Head}
      {sources sources' : List Stream} (context : Context) (prunes : Bool)
      (parts : ∀ s s', Fill s s' → Fills s s')
      (rounds : Settles (Joins Fill node) n sources (head, sources')) :
      Fills (union node context prunes sources .unread)
        (union node context prunes sources' head)
  | ancestor {delegate delegate' : Stream} (parent : Option NodeId)
      (part : Fills delegate delegate') :
      Fills (ancestor delegate parent ()) (ancestor delegate' parent ())

/-! ## The loops come to an end -/

theorem meetRound_eq (fill : Stream → Stream) (node : Option NodeId) (parts : List Stream) :
    meetRound fill node parts =
      match sweep fill Head.isOver parts with
      | (some head, parts) => .settled head parts
      | (none, parts) =>
        match greatest (parts.filterMap headShard?) with
        | none => .settled .ended parts
        | some shard =>
          match sweep (seek fill shard) Head.isOver parts with
          | (some head, parts) => .settled head parts
          | (none, parts) => conclude node shard parts := rfl

theorem joinRound_eq (fill : Stream → Stream) (node : Option NodeId) (parts : List Stream) :
    joinRound fill node parts =
      match sweep fill Head.isFailure parts with
      | (some head, parts) => .settled head parts
      | (none, parts) =>
        match least (parts.filterMap headShard?) with
        | none => .settled .ended parts
        | some shard => collect node shard parts := rfl

section Sweep

variable {Step : Stream → Stream → Prop} {step : Stream → Stream} {stop : Head → Bool}
  {ss : List Stream}

theorem sweeps_sweep (h : ∀ s ∈ ss, Step s (step s)) :
    Sweeps Step stop ss (sweep step stop ss) := by
  induction ss with
  | nil => exact .nil
  | cons s rest ih =>
    have hs := h s List.mem_cons_self
    simp only [sweep]
    split
    · next hstop => exact .stopped rest hs hstop
    · next hstop =>
      exact .through hs (Bool.eq_false_iff.2 hstop) (ih fun t ht => h t (List.mem_cons_of_mem s ht))

theorem Sweeps.eq_sweep {result : Option Head × List Stream} (hsweeps : Sweeps Step stop ss result)
    (h : ∀ s ∈ ss, ∀ s', Step s s' → s' = step s) : result = sweep step stop ss := by
  induction hsweeps with
  | nil => rfl
  | @stopped s s' rest filled met =>
    cases h s List.mem_cons_self s' filled
    simp [sweep, met]
  | @through s s' rest rest' stopped filled unmet others ih =>
    cases h s List.mem_cons_self s' filled
    have hrest := ih fun t ht => h t (List.mem_cons_of_mem s ht)
    simp [sweep, unmet, ← hrest]

end Sweep

section Fill

variable {Fill : Stream → Stream → Prop} {fill : Stream → Stream} {h : Nat}
  (hfill : ReadsBelow fill h)

include hfill

/-- A stream that is passed has an entry less to hold. -/
theorem pop_of_before {shard : String} {s : Stream} (hs : s.height ≤ h)
    (hbefore : (fill s).headShard?.any (· < shard) = true) :
    (fill s).pop.height ≤ h ∧ (fill s).pop.held < s.held := by
  obtain ⟨htrace, hhead, hlater⟩ := hfill s hs
  have hready : ∃ e, (fill s).head = .ready e := by
    cases hready : (fill s).head with
    | ready e => exact ⟨e, rfl⟩
    | unread | ended | failed error => simp [headShard?, hready, Head.entry?] at hbefore
  obtain ⟨e, he⟩ := hready
  obtain ⟨-, hheld, hheight⟩ := pop_spec he
  have hmore := hlater.held
  have hsame := hlater.height
  rw [htrace] at hmore
  exact ⟨by omega, by omega⟩

theorem seeks_seekWithin (hFill : ∀ s : Stream, s.height ≤ h → Fill s (fill s)) (shard : String)
    (n : Nat) (s : Stream) (hs : s.height ≤ h) (hn : s.held ≤ n) :
    Seeks Fill shard s (seekWithin fill shard n s) := by
  induction n generalizing s with
  | zero =>
    refine .arrived (hFill s hs) (Bool.eq_false_iff.2 fun hbefore => ?_)
    have := (pop_of_before hfill hs hbefore).2
    omega
  | succ n ih =>
    simp only [seekWithin]
    split
    · next hbefore =>
      obtain ⟨hheight, hheld⟩ := pop_of_before hfill hs hbefore
      exact .passed (hFill s hs) hbefore (ih _ hheight (by omega))
    · next hreached => exact .arrived (hFill s hs) (Bool.eq_false_iff.2 hreached)

theorem Seeks.eq_seekWithin {shard : String} {s s' : Stream} (hseeks : Seeks Fill shard s s')
    (hFill : ∀ s s' : Stream, s.height ≤ h → Fill s s' → s' = fill s) (hs : s.height ≤ h) (n : Nat)
    (hn : s.held ≤ n) : s' = seekWithin fill shard n s := by
  induction hseeks generalizing n with
  | arrived filled reached =>
    cases hFill _ _ hs filled
    cases n with
    | zero => rfl
    | succ n =>
      rw [seekWithin, reached]
      rfl
  | passed filled before rest ih =>
    cases hFill _ _ hs filled
    obtain ⟨hheight, hheld⟩ := pop_of_before hfill hs before
    cases n with
    | zero => omega
    | succ n =>
      rw [seekWithin, before]
      exact ih hheight n (by omega)

theorem heightAll_sweep (stop : Head → Bool) {parts : List Stream} (hh : heightAll parts ≤ h) :
    heightAll (sweep fill stop parts).2 ≤ h := by
  have hcase := sweep_cases (f := id) stop fun s hs => hfill s (height_le_of_mem hs hh)
  generalize sweep fill stop parts = swept at hcase ⊢
  cases hcase with
  | stopped t ss' first met later => exact Nat.le_trans (Nat.le_of_eq later.height) hh
  | through unmet later traces shown => exact Nat.le_trans (Nat.le_of_eq later.height) hh

theorem meets_meetRound (hFill : ∀ s : Stream, s.height ≤ h → Fill s (fill s))
    (node : Option NodeId) {parts : List Stream} (hh : heightAll parts ≤ h) :
    Meets Fill node parts (meetRound fill node parts) := by
  have hfilled : Sweeps Fill Head.isOver parts (sweep fill Head.isOver parts) :=
    sweeps_sweep fun s hs => hFill s (height_le_of_mem hs hh)
  have hheight := heightAll_sweep hfill Head.isOver hh
  rw [meetRound_eq]
  generalize sweep fill Head.isOver parts = swept at hfilled hheight
  obtain ⟨_ | head, parts'⟩ := swept
  · simp only
    cases htarget : greatest (parts'.filterMap headShard?) with
    | none => exact .bare hfilled htarget
    | some shard =>
      have hsought : Sweeps (Seeks Fill shard) Head.isOver parts'
          (sweep (seek fill shard) Head.isOver parts') :=
        sweeps_sweep fun s hs => seeks_seekWithin hfill hFill shard s.held s
          (height_le_of_mem hs hheight) (Nat.le_refl _)
      simp only
      generalize sweep (seek fill shard) Head.isOver parts' = swept at hsought
      obtain ⟨_ | head, parts''⟩ := swept
      · exact .sought hfilled htarget hsought
      · exact .exhausted hfilled htarget hsought
  · exact .stopped hfilled

theorem Meets.eq_meetRound {node : Option NodeId} {parts : List Stream} {round : Round}
    (hmeets : Meets Fill node parts round)
    (hFill : ∀ s s' : Stream, s.height ≤ h → Fill s s' → s' = fill s) (hh : heightAll parts ≤ h) :
    round = meetRound fill node parts := by
  have hfilled {result : Option Head × List Stream}
      (hsweeps : Sweeps Fill Head.isOver parts result) : result = sweep fill Head.isOver parts :=
    hsweeps.eq_sweep fun s hs s' => hFill s s' (height_le_of_mem hs hh)
  have hsought {shard : String} {parts' : List Stream} {result : Option Head × List Stream}
      (hparts' : (none, parts') = sweep fill Head.isOver parts)
      (hsweeps : Sweeps (Seeks Fill shard) Head.isOver parts' result) :
      result = sweep (seek fill shard) Head.isOver parts' := by
    have hheight := heightAll_sweep hfill Head.isOver hh
    rw [← hparts'] at hheight
    exact hsweeps.eq_sweep fun s hs s' hseeks =>
      hseeks.eq_seekWithin hfill hFill (height_le_of_mem hs hheight) s.held (Nat.le_refl _)
  rw [meetRound_eq]
  cases hmeets with
  | stopped filled => rw [← hfilled filled]
  | bare filled none_left =>
    rw [← hfilled filled]
    simp only [none_left]
  | exhausted filled target sought =>
    rw [← hfilled filled]
    simp only [target, ← hsought (hfilled filled) sought]
  | sought filled target sought =>
    rw [← hfilled filled]
    simp only [target, ← hsought (hfilled filled) sought]

omit hfill in
theorem joins_joinRound (hFill : ∀ s : Stream, s.height ≤ h → Fill s (fill s))
    (node : Option NodeId) {parts : List Stream} (hh : heightAll parts ≤ h) :
    Joins Fill node parts (joinRound fill node parts) := by
  have hfilled : Sweeps Fill Head.isFailure parts (sweep fill Head.isFailure parts) :=
    sweeps_sweep fun s hs => hFill s (height_le_of_mem hs hh)
  rw [joinRound_eq]
  generalize sweep fill Head.isFailure parts = swept at hfilled
  obtain ⟨_ | head, parts'⟩ := swept
  · simp only
    cases htarget : least (parts'.filterMap headShard?) with
    | none => exact .ended hfilled htarget
    | some shard => exact .collected hfilled htarget
  · exact .failed hfilled

omit hfill in
theorem Joins.eq_joinRound {node : Option NodeId} {parts : List Stream} {round : Round}
    (hjoins : Joins Fill node parts round)
    (hFill : ∀ s s' : Stream, s.height ≤ h → Fill s s' → s' = fill s) (hh : heightAll parts ≤ h) :
    round = joinRound fill node parts := by
  have hfilled {result : Option Head × List Stream}
      (hsweeps : Sweeps Fill Head.isFailure parts result) :
      result = sweep fill Head.isFailure parts :=
    hsweeps.eq_sweep fun s hs s' => hFill s s' (height_le_of_mem hs hh)
  rw [joinRound_eq]
  cases hjoins with
  | failed filled => rw [← hfilled filled]
  | ended filled none_left =>
    rw [← hfilled filled]
    simp only [none_left]
  | collected filled target =>
    rw [← hfilled filled]
    simp only [target]

end Fill

section Rounds

variable {Rounds : List Stream → Round → Prop} {round : List Stream → Round}
  {move : List Trace → Trace.Move} {h : Nat}
  (hspec : ∀ parts, heightAll parts ≤ h →
    RoundMakes (round parts) (move (parts.map trace)) ∧ AllLater parts (round parts).parts)

include hspec

/-- A round that does not settle the head is one of those that consume. -/
theorem move_of_again {parts parts' : List Stream} (hh : heightAll parts ≤ h)
    (hagain : round parts = .again parts') :
    move (parts.map trace) = .pass none (parts'.map trace) ∧ AllLater parts parts' := by
  obtain ⟨hmakes, hlater⟩ := hspec parts hh
  rw [hagain] at hmakes hlater
  generalize move (parts.map trace) = outcome at hmakes ⊢
  cases hmakes with
  | again => exact ⟨rfl, hlater⟩

variable (hmove : Trace.Shrinks move)

include hmove

theorem again_spec {parts parts' : List Stream} (hh : heightAll parts ≤ h)
    (hagain : round parts = .again parts') :
    heightAll parts' ≤ h ∧ heldAll parts' < heldAll parts ∧
      Trace.total (parts'.map trace) < Trace.total (parts.map trace) := by
  obtain ⟨hpass, hheight, -, hheld⟩ := move_of_again hspec hh hagain
  have hlt := hmove _ _ _ hpass
  exact ⟨by omega, by omega, hlt⟩

theorem settles_settleWithin (hRounds : ∀ parts, heightAll parts ≤ h → Rounds parts (round parts))
    (m : Nat) (parts : List Stream) (hh : heightAll parts ≤ h) (hm : heldAll parts < m) :
    ∃ n, Settles Rounds n parts (settleWithin round m parts) := by
  induction m generalizing parts with
  | zero => omega
  | succ m ih =>
    have hround := hRounds parts hh
    unfold settleWithin
    cases houtcome : round parts with
    | settled head parts' =>
      rw [houtcome] at hround
      exact ⟨1, .settled hround⟩
    | again parts' =>
      rw [houtcome] at hround
      obtain ⟨hheight, hheld, -⟩ := again_spec hspec hmove hh houtcome
      obtain ⟨n, hrest⟩ := ih parts' hheight (by omega)
      exact ⟨n + 1, .again hround hrest⟩

variable (hRounds : ∀ parts outcome, heightAll parts ≤ h → Rounds parts outcome →
  outcome = round parts)

include hRounds

theorem Settles.eq_settleWithin {n : Nat} {parts : List Stream} {result : Head × List Stream}
    (hsettles : Settles Rounds n parts result) (hh : heightAll parts ≤ h) (m : Nat)
    (hm : heldAll parts < m) : result = settleWithin round m parts := by
  induction hsettles generalizing m with
  | settled last =>
    obtain ⟨m, rfl⟩ := Nat.exists_eq_add_one_of_ne_zero (Nat.ne_zero_of_lt hm)
    simp [settleWithin, ← hRounds _ _ hh last]
  | again first rest ih =>
    obtain ⟨m, rfl⟩ := Nat.exists_eq_add_one_of_ne_zero (Nat.ne_zero_of_lt hm)
    have hround := hRounds _ _ hh first
    obtain ⟨hheight, hheld, -⟩ := again_spec hspec hmove hh hround.symm
    simp [settleWithin, ← hround, ← ih hheight m (by omega)]

end Rounds

/-! ## Filling comes to an end -/

theorem fills_fillAt (h : Nat) (s : Stream) (hs : s.height ≤ h) : Fills s (fillAt h s) := by
  induction h generalizing s with
  | zero =>
    have := height_pos s
    omega
  | succ h ih =>
    have hfill := fillAt_readsBelow h
    by_cases hknown : s.head = .unread
    · cases s with
      | leaf node context label entries => cases entries <;> cases hknown
      | scan node label scanner head =>
        cases hknown
        exact .scan node label scanner
      | intersection node context filters deferred head =>
        cases hknown
        rw [height] at hs
        obtain ⟨n, hrounds⟩ := settles_settleWithin (fun _ hh => meetRound_spec hfill node hh)
          (Trace.shrinks_meetMove node)
          (fun _ hh => meets_meetRound hfill ih node hh)
          (heldAll filters + 1) filters (by omega) (Nat.lt_succ_self _)
        rw [fillAt_intersection]
        exact .intersection context deferred (fun _ _ hs => hs) hrounds
      | union node context prunes sources head =>
        cases hknown
        rw [height] at hs
        obtain ⟨n, hrounds⟩ := settles_settleWithin (fun _ hh => joinRound_spec hfill node hh)
          (Trace.shrinks_joinMove node)
          (fun _ hh => joins_joinRound ih node hh)
          (heldAll sources + 1) sources (by omega) (Nat.lt_succ_self _)
        rw [fillAt_union]
        exact .union context prunes (fun _ _ hs => hs) hrounds
      | ancestor delegate parent slot =>
        rw [height] at hs
        exact .ancestor parent (ih delegate (by omega))
    · rw [fillAt_of_known (h + 1) hknown]
      exact .known hknown

theorem Fills.eq_fillAt {s s' : Stream} (hfills : Fills s s') (h : Nat) (hs : s.height ≤ h) :
    s' = fillAt h s := by
  induction hfills generalizing h with
  | known known => exact (fillAt_of_known h known).symm
  | scan node label scanner =>
    obtain ⟨h, rfl⟩ : ∃ k, h = k + 1 := ⟨h - 1, by rw [height] at hs; omega⟩
    rfl
  | @intersection Fill node n head filters filters' context deferred parts rounds ih =>
    obtain ⟨h, rfl⟩ : ∃ k, h = k + 1 := ⟨h - 1, by rw [height] at hs; omega⟩
    rw [height] at hs
    have hfill := fillAt_readsBelow h
    have hsettle := rounds.eq_settleWithin (fun _ hh => meetRound_spec hfill node hh)
      (Trace.shrinks_meetMove node)
      (fun _ _ hh hmeets => hmeets.eq_meetRound hfill (fun s s' hs hs' => ih s s' hs' h hs) hh)
      (by omega) (heldAll filters + 1) (Nat.lt_succ_self _)
    rw [fillAt_intersection, settle, ← hsettle]
  | @union Fill node n head sources sources' context prunes parts rounds ih =>
    obtain ⟨h, rfl⟩ : ∃ k, h = k + 1 := ⟨h - 1, by rw [height] at hs; omega⟩
    rw [height] at hs
    have hfill := fillAt_readsBelow h
    have hsettle := rounds.eq_settleWithin (fun _ hh => joinRound_spec hfill node hh)
      (Trace.shrinks_joinMove node)
      (fun _ _ hh hjoins => hjoins.eq_joinRound (fun s s' hs hs' => ih s s' hs' h hs) hh)
      (by omega) (heldAll sources + 1) (Nat.lt_succ_self _)
    rw [fillAt_union, settle, ← hsettle]
  | ancestor parent part ih =>
    obtain ⟨h, rfl⟩ : ∃ k, h = k + 1 := ⟨h - 1, by rw [height] at hs; omega⟩
    rw [height] at hs
    rw [fillAt, ← ih h (by omega)]

/-- The head of every stream can be made known, in one way. -/
theorem fills_iff {s s' : Stream} : Fills s s' ↔ s' = s.fill := by
  constructor
  · intro hfills
    exact hfills.eq_fillAt s.height (Nat.le_refl _)
  · rintro rfl
    exact fills_fillAt s.height s (Nat.le_refl _)

/-! ## Calls and drains come to an end -/

/-- What a call is answered by a stream whose head is known, and how the stream is left. -/
def answered (s : Stream) : Call → Except Error Answer × Stream
  | .hasNext =>
    match s.head with
    | .ready _ => (.ok (.flag true), s)
    | .failed error => (.error error, s)
    | .unread | .ended => (.ok (.flag false), s)
  | .peek =>
    match s.head with
    | .ready e => (.ok (.entry e), s)
    | .failed error => (.error error, s)
    | .unread | .ended => (.error (.exhausted s.kindName), s)
  | .next =>
    match s.head with
    | .ready e => (.ok (.entry e), s.pop)
    | .failed error => (.error error, s)
    | .unread | .ended => (.error (.exhausted s.kindName), s)
  | .remove => (.error .readOnly, s)

/-- A call returns. -/
inductive Returns : Stream → Call → Except Error Answer × Stream → Prop where
  | atOnce (s : Stream) : Returns s .remove (s.answered .remove)
  | filled {s s' : Stream} {c : Call} (reads : c ≠ .remove) (filled : Fills s s') :
      Returns s c (s'.answered c)

/-- The reading of all entries returns. -/
inductive Drains : Stream → Except Error (List Entry) × Stream → Prop where
  | ended {s s' : Stream} (filled : Fills s s') (ended : s'.head = .ended) :
      Drains s (.ok [], s')
  | failed {s s' : Stream} {error : Error} (filled : Fills s s')
      (failed : s'.head = .failed error) : Drains s (.error error, s')
  | passed {s s' s'' : Stream} {e : Entry} {rest : Except Error (List Entry)}
      (filled : Fills s s') (ready : s'.head = .ready e) (others : Drains s'.pop (rest, s'')) :
      Drains s (rest.map (e :: ·), s'')

theorem call_eq_answered {c : Call} (hc : c ≠ .remove) (s : Stream) :
    s.call c = s.fill.answered c := by
  cases c with
  | remove => exact absurd rfl hc
  | hasNext =>
    simp only [call, calls, callsBy, Calls.call, answered]
    cases s.fill.head <;> rfl
  | peek =>
    simp only [call, calls, callsBy, Calls.call, answered]
    cases s.fill.head <;> rfl
  | next =>
    simp only [call, calls, callsBy, Calls.call, answered]
    cases s.fill.head <;> rfl

/-- Every call returns, in one way. -/
theorem returns_iff {s : Stream} {c : Call} {result : Except Error Answer × Stream} :
    Returns s c result ↔ result = s.call c := by
  constructor
  · intro hreturns
    cases hreturns with
    | atOnce => rfl
    | filled reads filled => rw [fills_iff.1 filled, call_eq_answered reads]
  · rintro rfl
    by_cases hc : c = .remove
    · subst hc
      exact .atOnce s
    · rw [call_eq_answered hc]
      exact .filled hc (fills_iff.2 rfl)

/-- An entry that is read is one less to hold. -/
theorem held_pop_fill {s : Stream} {e : Entry} (hready : s.fill.head = .ready e) :
    s.fill.pop.held < s.held := by
  obtain ⟨htrace, -, hlater⟩ := fill_readsTo s
  have hpop := (pop_spec hready).2.1
  have hheld := hlater.held
  rw [htrace] at hheld
  omega

theorem drains_drainWithin (n : Nat) (s : Stream) (hn : s.held < n) :
    Drains s (drainWithin n s) := by
  induction n generalizing s with
  | zero => omega
  | succ n ih =>
    have hfills : Fills s s.fill := fills_iff.2 rfl
    unfold drainWithin
    cases hhead : s.fill.head with
    | ready e =>
      have hpop := held_pop_fill hhead
      simp only [hhead]
      exact .passed hfills hhead (ih s.fill.pop (by omega))
    | failed error =>
      simp only [hhead]
      exact .failed hfills hhead
    | ended =>
      simp only [hhead]
      exact .ended hfills hhead
    | unread =>
      obtain ⟨-, hshown, -⟩ := fill_readsTo s
      exact absurd (hshown.symm.trans hhead) (Trace.head_ne_unread _)

theorem Drains.eq_drainWithin {s : Stream} {result : Except Error (List Entry) × Stream}
    (hdrains : Drains s result) (n : Nat) (hn : s.held < n) : result = drainWithin n s := by
  induction hdrains generalizing n with
  | ended filled ended | failed filled failed =>
    obtain ⟨n, rfl⟩ := Nat.exists_eq_add_one_of_ne_zero (Nat.ne_zero_of_lt hn)
    cases fills_iff.1 filled
    simp [drainWithin, *]
  | passed filled ready others ih =>
    obtain ⟨n, rfl⟩ := Nat.exists_eq_add_one_of_ne_zero (Nat.ne_zero_of_lt hn)
    cases fills_iff.1 filled
    have hpop := held_pop_fill ready
    simp [drainWithin, ready, ← ih n (by omega)]

/-- The reading of all entries returns, in one way. -/
theorem drains_iff {s : Stream} {result : Except Error (List Entry) × Stream} :
    Drains s result ↔ result = s.drain := by
  constructor
  · intro hdrains
    exact hdrains.eq_drainWithin (s.held + 1) (Nat.lt_succ_self _)
  · rintro rfl
    exact drains_drainWithin (s.held + 1) s (Nat.lt_succ_self _)

end Stream

end ShardSearch
