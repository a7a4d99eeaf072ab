import ShardSearch.Proofs.Consumption
import ShardSearch.Proofs.PartByPart
import ShardSearch.Proofs.PutOff

/-!
# How far ahead composites read

A union looks one entry ahead into each of its parts, an intersection into none, and what an
intersection puts off is not touched at all.  `ScanFrom` is what is known of a scan however far it
was read, `Keeps` what is known of a composite after each call; together they tell how many sets
were taken out of each source (`reads_one_ahead`).
-/

namespace ShardSearch

namespace Stream

/-! ## Scans -/

/-- The stream is a scan of a source that yields `items`, out of which the given sets were taken so
    far. -/
inductive HasPulled (items : List ScanItem) (taken : List MatchSet) : Stream → Prop where
  | intro {node : Option NodeId} {label : String} {scanner : Scanner} {head : Head}
      (used : List ScanItem) (split : items = used ++ scanner.coming)
      (sets : used.filterMap ScanItem.set? = taken) :
      HasPulled items taken (scan node label scanner head)

/-- The stream is a scan of a source that yields `items`, and has passed some of the sets in front.
    It has taken these and the one that it has prepared, and lets all others through. -/
inductive ScanFrom (items : List ScanItem) : Stream → Prop where
  | intro {node : Option NodeId} {label : String} {scanner : Scanner} {head : Head}
      (used : List ScanItem) (passed rest : List MatchSet)
      (split : items = used ++ scanner.coming)
      (sets : used.filterMap ScanItem.set? = passed ++ (head.entry?.map (·.set)).toList)
      (leading : ScanItem.leading items = passed ++ rest)
      (trace : (scan node label scanner head).trace = ⟨rest.map (·.entry), none⟩) :
      ScanFrom items (scan node label scanner head)

variable {items : List ScanItem} {node : Option NodeId} {label : String}

theorem scanFrom_ofItems (hsound : items.all (·.isSound))
    (hasc : AscendingSets (ScanItem.leading items)) :
    ScanFrom items (scan node label (.ofItems items) .unread) := by
  refine .intro [] [] (ScanItem.leading items) rfl rfl rfl ?_
  exact Scanner.traceFrom_eq hsound hasc nofun

theorem ScanFrom.pass {scanner : Scanner} {e : Entry}
    (h : ScanFrom items (scan node label scanner (.ready e))) :
    ScanFrom items (scan node label scanner .unread) := by
  cases h with
  | intro used passed rest split sets leading htrace =>
    have htail := trace_pop (s := scan node label scanner (.ready e)) rfl
    have hhead := congrArg (·.entries.head?) htrace
    rw [htrace] at htail
    cases rest with
    | nil => cases hhead
    | cons set rest =>
      cases hhead
      refine .intro used (passed ++ [set]) rest split ?_ ?_ htail
      · simpa [Head.entry?, MatchSet.entry] using sets
      · simpa using leading

/-- What a pull takes out of a source that does not fail is what it lets through. -/
theorem Scanner.pull_items {scanner : Scanner}
    (hfault : (Scanner.traceFrom scanner.last scanner.coming).fault = none) :
    ∃ used, scanner.coming = used ++ scanner.pull.2.coming ∧
      used.filterMap ScanItem.set? = (scanner.pull.fst.entry?.map (·.set)).toList := by
  obtain ⟨coming, last, tally⟩ := scanner
  cases coming with
  | nil => exact ⟨[], rfl, rfl⟩
  | cons item coming =>
    cases item with
    | pause => exact ⟨[.pause], rfl, rfl⟩
    | failure error => cases hfault
    | found set =>
      refine ⟨[.found set], ?_⟩
      cases last with
      | none => exact ⟨rfl, rfl⟩
      | some shard =>
        by_cases hlt : shard < set.shard
        · simp only [Scanner.pull, if_pos hlt]
          exact ⟨rfl, rfl⟩
        · rw [traceFrom_descending hlt] at hfault
          cases hfault

theorem ScanFrom.pull {scanner : Scanner} (h : ScanFrom items (scan node label scanner .unread)) :
    ScanFrom items (scan node label scanner.pull.2 scanner.pull.1) := by
  cases h with
  | intro used passed rest split sets leading htrace =>
    have hpulled := (fillAt_readsTo_scan (h := 0) node label scanner).trace
    rw [fillAt_scan, htrace] at hpulled
    have hfault : (Scanner.traceFrom scanner.last scanner.coming).fault = none := by
      rw [trace] at htrace
      exact congrArg (·.fault) htrace
    obtain ⟨item, hcoming, hset⟩ := Scanner.pull_items hfault
    refine .intro (used ++ item) passed rest ?_ ?_ leading hpulled
    · rw [split, hcoming, List.append_assoc]
    · rw [List.filterMap_append, sets, hset]
      simp [Head.entry?]

/-- The sets at or before a shard and those behind it. -/
theorem filter_le_append_filter_lt {sets : List MatchSet} (h : AscendingSets sets)
    (shard : String) :
    sets.filter (·.shard ≤ shard) ++ sets.filter (shard < ·.shard) = sets := by
  induction sets with
  | nil => rfl
  | cons set sets ih =>
    obtain ⟨hlt, hsets⟩ := List.pairwise_cons.1 h
    by_cases hle : set.shard ≤ shard
    · have hout : ¬ decide (shard < set.shard) = true :=
        fun hlt => String.not_lt.2 hle (of_decide_eq_true hlt)
      rw [List.filter_cons, if_pos (decide_eq_true hle), List.filter_cons, if_neg hout,
        List.cons_append, ih hsets]
    · have hbehind : ∀ set' ∈ set :: sets, shard < set'.shard := by
        have hin : shard < set.shard := String.not_le.1 hle
        exact List.forall_mem_cons.2 ⟨hin, fun set' hset' => String.lt_trans hin (hlt set' hset')⟩
      have hnone : (set :: sets).filter (·.shard ≤ shard) = [] :=
        List.filter_eq_nil_iff.2 fun set' hset' hle' =>
          String.not_lt.2 (of_decide_eq_true hle') (hbehind set' hset')
      have hall : (set :: sets).filter (shard < ·.shard) = set :: sets :=
        List.filter_eq_self.2 fun set' hset' => decide_eq_true (hbehind set' hset')
      rw [hnone, hall, List.nil_append]

/-- A scan that has prepared nothing. -/
def AtRest : Stream → Prop
  | scan _ _ _ head => head = .unread
  | leaf .. | intersection .. | union .. | ancestor .. => True

/-- Out of a source that yields `items` all sets up to a shard were taken, and at most `ahead` later
    ones. -/
def TakenUpTo (shard : String) (ahead : Nat) (items : List ScanItem) (part : Stream) : Prop :=
  ∃ later, part.HasPulled items ((ScanItem.leading items).filter (·.shard ≤ shard) ++ later) ∧
    later.length ≤ ahead ∧ ∀ set ∈ later, shard < set.shard

/-- If a child is a scan not begun yet, over a source that does not fail and whose sets ascend, then
    `part` is what reading it up to a shard, and at most `ahead` sets further, leaves of it. -/
def ReadUpTo (shard : String) (ahead : Nat) (child part : Stream) : Prop :=
  ∀ (node : Option NodeId) (label : String) (items : List ScanItem),
    child = scan node label (.ofItems items) .unread → items.all (·.isSound) →
      AscendingSets (ScanItem.leading items) → part.TakenUpTo shard ahead items

/-- A scan that still lets through the sets behind a shard has taken all others, and none of these
    but the one that it has prepared. -/
theorem ScanFrom.takenUpTo {part : Stream} {shard : String} (h : part.ScanFrom items)
    (hasc : AscendingSets (ScanItem.leading items))
    (htrace : part.trace.entries =
      ((ScanItem.leading items).filter (shard < ·.shard)).map (·.entry)) :
    part.TakenUpTo shard 1 items ∧ (part.AtRest → part.TakenUpTo shard 0 items) := by
  cases h with
  | @intro node label scanner head used passed rest split sets leading htrace' =>
    rw [htrace'] at htrace
    have hrest : rest = (ScanItem.leading items).filter (shard < ·.shard) := by
      simpa [MatchSet.entry, Function.comp_def] using congrArg (List.map (·.set)) htrace
    have hpassed : passed = (ScanItem.leading items).filter (·.shard ≤ shard) := by
      have happend : passed ++ rest =
          (ScanItem.leading items).filter (·.shard ≤ shard) ++ rest := by
        rw [← leading, hrest, filter_le_append_filter_lt hasc]
      exact List.append_cancel_right happend
    have hpulled : (scan node label scanner head).HasPulled items
        ((ScanItem.leading items).filter (·.shard ≤ shard) ++
          (head.entry?.map (·.set)).toList) := .intro used split (hpassed ▸ sets)
    refine ⟨⟨_, hpulled, ?_, ?_⟩, ?_⟩
    · cases head <;> simp [Head.entry?]
    · intro set hset
      cases head with
      | unread | ended | failed error => cases hset
      | ready e =>
        cases List.mem_singleton.1 hset
        have he : e ∈ rest.map (·.entry) := by
          rw [trace] at htrace'
          have hentries : _ = rest.map (·.entry) := congrArg Trace.entries htrace'
          rw [← hentries]
          exact List.mem_cons_self
        obtain ⟨set, hbehind, rfl⟩ := List.mem_map.1 he
        rw [hrest] at hbehind
        exact of_decide_eq_true (List.mem_filter.1 hbehind).2
    · rintro rfl
      exact ⟨_, hpulled, Nat.le_refl 0, List.forall_mem_nil _⟩

/-! ## What reading leaves of a stream -/

/-- A scan stays one of the same items. -/
theorem steady_scanFrom :
    Steady fun s s' => ∀ items, s.ScanFrom items → s'.ScanFrom items where
  refl _ _ h := h
  trans h h' items hs := h' items (h items hs)
  passLeaf _ _ _ _ _ h := nomatch h
  passScan _ _ _ _ _ h := h.pass
  pullScan _ _ _ _ h := h.pull
  readFilters _ _ _ _ _ _ _ _ _ h := nomatch h
  readSources _ _ _ _ _ _ _ _ _ h := nomatch h
  readDelegate _ _ _ h := nomatch h

/-- The stream is an intersection. -/
def IsIntersection : Stream → Prop
  | intersection .. => True
  | leaf .. | scan .. | union .. | ancestor .. => False

/-- The stream `s'` is left of `s`: a composite stays one, each part of it that is a scan stays one
    of the same items, and what is put off is as it was. -/
structure LeftOf (s s' : Stream) : Prop where
  composite : s.IsComposite → s'.IsComposite
  intersection : s.IsIntersection → s'.IsIntersection
  scan : ∀ items, s.ScanFrom items → s'.ScanFrom items
  parts : List.Forall₂ (fun part part' => ∀ items, part.ScanFrom items → part'.ScanFrom items)
    s.read s'.read
  putOff : s'.putOff = s.putOff

theorem steady_leftOf : Steady LeftOf where
  refl s := ⟨id, id, fun _ h => h, steady_scanFrom.forall₂_refl s.read, rfl⟩
  trans h h' := ⟨h'.composite ∘ h.composite, h'.intersection ∘ h.intersection,
    steady_scanFrom.trans h.scan h'.scan, steady_scanFrom.forall₂_trans h.parts h'.parts,
    h'.putOff.trans h.putOff⟩
  passLeaf node context label entries :=
    ⟨id, id, steady_scanFrom.passLeaf node context label entries, .nil, rfl⟩
  passScan node label scanner e :=
    ⟨id, id, steady_scanFrom.passScan node label scanner e, .nil, rfl⟩
  pullScan node label scanner := ⟨id, id, steady_scanFrom.pullScan node label scanner, .nil, rfl⟩
  readFilters node context _ _ deferred head head' h :=
    have hparts := h.imp fun _ _ hpart => hpart.scan
    ⟨id, id, steady_scanFrom.readFilters node context deferred head head' hparts, hparts, rfl⟩
  readSources node context prunes _ _ head head' h :=
    have hparts := h.imp fun _ _ hpart => hpart.scan
    ⟨id, id, steady_scanFrom.readSources node context prunes head head' hparts, hparts, rfl⟩
  readDelegate parent h :=
    ⟨id, id, steady_scanFrom.readDelegate parent h.scan, .cons h.scan .nil, rfl⟩

/-! ## Composites -/

/-- No scan among the parts of an intersection has prepared anything. -/
def Rested : Stream → Prop
  | intersection _ _ filters _ _ => ∀ part ∈ filters, part.AtRest
  | leaf .. | scan .. | union .. | ancestor .. => True

theorem Rested.atRest {s : Stream} (h : s.Rested) (hs : s.IsIntersection) :
    ∀ part ∈ s.read, part.AtRest := by
  cases s with
  | intersection node context filters deferred head => exact h
  | leaf | scan | union | ancestor => cases hs

theorem atRest_pop {s : Stream} {e : Entry} (hready : s.head = .ready e) : s.pop.AtRest := by
  cases s with
  | scan node label scanner head =>
    cases hready
    rfl
  | leaf node context label entries => trivial
  | intersection node context filters deferred head => cases head <;> trivial
  | union node context prunes sources head => cases head <;> trivial
  | ancestor delegate parent slot => trivial

theorem stop_of_sweep {step : Stream → Stream} {stop : Head → Bool} {ss ss' : List Stream}
    {head : Head} (h : sweep step stop ss = (some head, ss')) : stop head = true := by
  induction ss generalizing ss' with
  | nil => cases h
  | cons s rest ih =>
    rw [sweep] at h
    split at h
    · next hstop =>
      cases h
      exact hstop
    · cases hrest : sweep step stop rest with
      | mk stopped rest' =>
        simp only [hrest] at h
        cases h
        exact ih hrest

/-- An intersection that comes to an entry has passed it in all parts. -/
theorem atRest_of_meetRound {fill : Stream → Stream} {node : Option NodeId} {e : Entry}
    {parts parts' : List Stream} (h : meetRound fill node parts = .settled (.ready e) parts') :
    ∀ part ∈ parts', part.AtRest := by
  rw [meetRound_eq] at h
  split at h
  · next head filled hsweep =>
    cases h
    cases stop_of_sweep hsweep
  · next filled hsweep =>
    split at h
    · cases h
    · next shard htarget =>
      split at h
      · next head sought hsought =>
        cases h
        cases stop_of_sweep hsought
      · next sought hsought =>
        unfold conclude at h
        split at h
        · next haligned =>
          simp only at h
          split at h
          · cases h
          · cases h
            intro part hpart
            obtain ⟨s, hs, rfl⟩ := List.mem_map.1 hpart
            obtain ⟨e, he⟩ := head_of_setAt? (List.all_eq_true.1 haligned s hs)
            exact atRest_pop he
        · cases h

theorem exists_round_of_settleWithin {round : List Stream → Round} {n : Nat}
    {parts parts' : List Stream} {e : Entry}
    (h : settleWithin round n parts = (.ready e, parts')) :
    ∃ parts₀, round parts₀ = .settled (.ready e) parts' := by
  induction n generalizing parts with
  | zero => cases h
  | succ n ih =>
    rw [settleWithin] at h
    split at h
    · next hround =>
      cases h
      exact ⟨parts, hround⟩
    · exact ih h

theorem fill_intersection (node : Option NodeId) (context : Context)
    (filters deferred : List Stream) :
    (intersection node context filters deferred .unread).fill =
      intersection node context
        (settle (meetRound (fillAt (heightAll filters)) node) filters).2 deferred
        (settle (meetRound (fillAt (heightAll filters)) node) filters).1 := by
  rw [fill, height, Nat.add_comm, fillAt_intersection]

theorem fill_union (node : Option NodeId) (context : Context) (prunes : Bool)
    (sources : List Stream) :
    (union node context prunes sources .unread).fill =
      union node context prunes
        (settle (joinRound (fillAt (heightAll sources)) node) sources).2
        (settle (joinRound (fillAt (heightAll sources)) node) sources).1 := by
  rw [fill, height, Nat.add_comm, fillAt_union]

/-- A composite that comes to an entry has read its parts behind the shard of the entry, which is a
    shard of some part. -/
theorem fill_of_unread {s : Stream} {e : Entry} (hs : s.IsComposite)
    (hasc : ∀ t ∈ s.read.map trace, t.Ascending) (hunread : s.head = .unread)
    (hready : s.fill.head = .ready e) :
    s.fill.read.map trace = (s.read.map trace).map (Trace.within (e.shard < ·)) ∧
      (∃ t ∈ s.read.map trace, ∃ e' ∈ t.entries, e'.shard = e.shard) ∧ s.fill.Rested := by
  cases s with
  | leaf node context label entries => cases hs
  | scan node label scanner head => cases hs
  | ancestor delegate parent slot => cases hs
  | intersection node context filters deferred head =>
    cases hunread
    rw [fill_intersection] at hready ⊢
    cases hsettle : settle (meetRound (fillAt (heightAll filters)) node) filters with
    | mk head' filters' =>
      rw [hsettle] at hready
      cases hready
      obtain ⟨filters₀, hround⟩ := exists_round_of_settleWithin hsettle
      have hyields := yields_of_settleWithin
        (fun _ hh => meetRound_spec (fillAt_readsBelow _) node hh) (Nat.le_refl _) hsettle
      obtain ⟨hrest, hmem⟩ := hyields.eq_within (Trace.cuts_meetMove node) hasc
      exact ⟨hrest, hmem, atRest_of_meetRound hround⟩
  | union node context prunes sources head =>
    cases hunread
    rw [fill_union] at hready ⊢
    cases hsettle : settle (joinRound (fillAt (heightAll sources)) node) sources with
    | mk head' sources' =>
      rw [hsettle] at hready
      cases hready
      have hyields := yields_of_settleWithin
        (fun _ hh => joinRound_spec (fillAt_readsBelow _) node hh) (Nat.le_refl _) hsettle
      obtain ⟨hrest, hmem⟩ := hyields.eq_within (Trace.cuts_joinMove node) hasc
      exact ⟨hrest, hmem, trivial⟩

/-! ## Calls -/

/-- The entry computed last, when `returned` is the last one that was handed out: the one that is
    prepared, if there is one. -/
def latest (s : Stream) (returned : Option Entry) : Option Entry := s.head.entry?.or returned

/-- How a composite stands whose parts had the given traces: it is over, or its parts are left
    behind the entry computed last, after which an intersection has nothing prepared in its
    scans. -/
def Keeps (traces : List Trace) (returned : Option Entry) (s : Stream) : Prop :=
  s.head.isOver = true ∨
    s.read.map trace = traces.map (Trace.behind (s.latest returned)) ∧
      ((s.latest returned).isSome → s.Rested)

section Calls

variable {traces : List Trace} {returned : Option Entry} {s : Stream} {e : Entry}

theorem Keeps.fill (h : Keeps traces returned s) (hs : s.IsComposite)
    (hasc : ∀ t ∈ traces, t.Ascending) : Keeps traces returned s.fill := by
  by_cases hunread : s.head = .unread
  · obtain ⟨-, hshown, -⟩ := fill_readsTo s
    cases hready : s.fill.head with
    | unread => exact absurd (hshown.symm.trans hready) (Trace.head_ne_unread _)
    | ended | failed error =>
      refine .inl ?_
      rw [hready]
      rfl
    | ready e =>
      have hlatest : s.latest returned = returned := by rw [latest, hunread]; rfl
      have hlatest' : s.fill.latest returned = some e := by rw [latest, hready]; rfl
      obtain hover | ⟨htraces, -⟩ := h
      · rw [hunread] at hover
        cases hover
      · rw [hlatest] at htraces
        have hasc' := Trace.ascending_map_behind hasc returned
        rw [← htraces] at hasc'
        obtain ⟨hread, hmem, hrested⟩ := fill_of_unread hs hasc' hunread hready
        rw [htraces] at hread hmem
        refine .inr ⟨?_, fun _ => hrested⟩
        rw [hread, hlatest', Trace.map_within_behind hmem]
  · rw [show s.fill = s from fillAt_of_known s.height hunread]
    exact h

theorem Keeps.pop (h : Keeps traces returned s) (hs : s.IsComposite) (hready : s.head = .ready e) :
    Keeps traces (some e) s.pop := by
  obtain hover | ⟨htraces, hrested⟩ := h
  · rw [hready] at hover
    cases hover
  · have hlatest : s.latest returned = some e := by rw [latest, hready]; rfl
    rw [hlatest] at htraces hrested
    refine .inr ?_
    cases s with
    | leaf node context label entries => cases hs
    | scan node label scanner head => cases hs
    | ancestor delegate parent slot => cases hs
    | intersection node context filters deferred head =>
      cases hready
      exact ⟨htraces, hrested⟩
    | union node context prunes sources head =>
      cases hready
      exact ⟨htraces, hrested⟩

theorem Keeps.call (h : Keeps traces returned s) (hs : s.IsComposite)
    (hasc : ∀ t ∈ traces, t.Ascending) (c : Call) :
    Keeps traces ((handedOut c (s.call c).1).or returned) (s.call c).2 := by
  have hfill := h.fill hs hasc
  cases c with
  | remove => exact h
  | hasNext =>
    rw [call_eq_answered (c := .hasNext) (by decide), answered]
    cases s.fill.head <;> exact hfill
  | peek =>
    rw [call_eq_answered (c := .peek) (by decide), answered]
    cases s.fill.head <;> exact hfill
  | next =>
    rw [call_eq_answered (c := .next) (by decide), answered]
    cases hhead : s.fill.head with
    | ready e => exact hfill.pop ((steady_leftOf.fillAt s.height s).composite hs) hhead
    | unread | ended | failed error => exact hfill

/-- After any calls a composite stands as it does after one. -/
theorem Keeps.run (h : Keeps traces returned s) (hs : s.IsComposite)
    (hasc : ∀ t ∈ traces, t.Ascending) (calls : List Call) :
    Keeps traces ((entriesOf (nextAnswers calls (s.run calls).1)).getLast?.or returned)
      (s.run calls).2 := by
  induction calls generalizing s returned with
  | nil => exact h
  | cons c calls ih =>
    have hrest := ih (h.call hs hasc c) ((steady_leftOf.call s c).composite hs)
    rw [run_cons, entriesOf_nextAnswers_cons, List.getLast?_append, Option.or_assoc]
    generalize handedOut c (s.call c).1 = handed at hrest ⊢
    cases handed <;> exact hrest

end Calls

/-- The entry that a stream has computed last, by some calls: the one that it has prepared, or else
    the last one that it has handed out. -/
def computed (s : Stream) (calls : List Call) : Option Entry :=
  (s.run calls).2.latest (entriesOf (nextAnswers calls (s.run calls).1)).getLast?

section Composites

variable {s : Stream}

theorem keeps_self (hunread : s.head = .unread ∨ s.head.isOver = true) :
    Keeps (s.read.map trace) none s := by
  obtain hunread | hover := hunread
  · have hlatest : s.latest none = none := by rw [latest, hunread]; rfl
    refine .inr ⟨?_, ?_⟩ <;> rw [hlatest]
    · exact (List.map_id _).symm
    · exact nofun
  · exact .inl hover

/-- A scan that is left behind a shard has taken no more than one set that lies there, and none if
    it has prepared nothing. -/
theorem readUpTo_of_trace {child part : Stream} {shard : String}
    (hscan : ∀ items, child.ScanFrom items → part.ScanFrom items)
    (htrace : part.trace = child.trace.within (shard < ·)) :
    ReadUpTo shard 1 child part ∧ (part.AtRest → ReadUpTo shard 0 child part) := by
  have htaken : ∀ (node : Option NodeId) (label : String) (items : List ScanItem),
      child = scan node label (.ofItems items) .unread → items.all (·.isSound) →
        AscendingSets (ScanItem.leading items) →
          part.TakenUpTo shard 1 items ∧ (part.AtRest → part.TakenUpTo shard 0 items) := by
    rintro node label items rfl hsound hasc
    refine (hscan items (scanFrom_ofItems hsound hasc)).takenUpTo hasc ?_
    have hchild : (scan node label (.ofItems items) .unread).trace =
        ⟨(ScanItem.leading items).map (·.entry), none⟩ := Scanner.traceFrom_eq hsound hasc nofun
    rw [htrace, hchild, Trace.within, List.filter_map]
    rfl
  constructor
  · intro node label items hchild hsound hasc
    exact (htaken node label items hchild hsound hasc).1
  · intro hrest node label items hchild hsound hasc
    exact (htaken node label items hchild hsound hasc).2 hrest

/-- How far the parts of a composite are read once it has computed an entry, unless it is over. -/
theorem parts_of_computed (hs : s.IsComposite) (hunread : s.head = .unread ∨ s.head.isOver = true)
    (hasc : ∀ part ∈ s.read, part.trace.Ascending) {calls : List Call} {e : Entry}
    (hcomputed : s.computed calls = some e) (hopen : (s.run calls).2.head.isOver = false) :
    (s.run calls).2.Rested ∧
      List.Forall₂ (fun child part => ReadUpTo e.shard 1 child part ∧
        (part.AtRest → ReadUpTo e.shard 0 child part)) s.read (s.run calls).2.read := by
  have hasc' : ∀ t ∈ s.read.map trace, t.Ascending := by
    intro t ht
    obtain ⟨part, hpart, rfl⟩ := List.mem_map.1 ht
    exact hasc part hpart
  have hkeeps := (keeps_self hunread).run hs hasc' calls
  rw [Option.or_none] at hkeeps
  obtain hover | ⟨htraces, hrested⟩ := hkeeps
  · cases hopen.symm.trans hover
  · rw [← computed, hcomputed] at htraces hrested
    have hscans := (steady_leftOf.run s calls).parts
    have hread : List.Forall₂ (fun child part => part.trace = child.trace.within (e.shard < ·))
        s.read (s.run calls).2.read := by
      rw [List.map_map, ← List.forall₂_eq_eq_eq, List.forall₂_map_left_iff,
        List.forall₂_map_right_iff] at htraces
      exact htraces.flip
    exact ⟨hrested rfl, hscans.mp (fun _ _ hscan => readUpTo_of_trace hscan) hread⟩

end Composites

end Stream

/-! ## Streams that have not been read -/

/-- How many sets the scans of an index have handed out, and how many infinite ones. -/
def ShardIndex.setCounts (ix : ShardIndex) : Nat × Nat := (ix.stats.shards, ix.stats.overThreshold)

/-- Supplying a leaf opens a scan at most, out of which nothing is taken. -/
theorem ShardIndex.setCounts_leafOf (o : ScanOptions) (id : NodeId) (field value : String)
    (ix : ShardIndex) : (leafOf o id field value ix).2.setCounts = ix.setCounts := by
  unfold leafOf
  split <;> rfl

namespace Stream

variable {s : Stream}

theorem tallyAll_eq_zero {ss : List Stream} (h : ∀ s ∈ ss, s.tally = .zero) :
    tallyAll ss = .zero := by
  induction ss with
  | nil => rfl
  | cons s rest ih =>
    obtain ⟨hs, hrest⟩ := List.forall_mem_cons.1 h
    rw [tallyAll, hs, ih hrest]
    rfl

/-- Nothing was taken out of any scan of a stream that is as it was made. -/
theorem BuiltFrom.tally_eq (h : s.BuiltFrom IsLeaf) : s.tally = .zero := by
  induction h with
  | leaf kind =>
    rcases isLeaf_cases kind with ⟨node, context, label, sets, -, rfl⟩ | ⟨node, label, items, rfl⟩
    · rfl
    · rfl
  | intersection parts made ih =>
    obtain ⟨-, hcase⟩ := intersect_cases made
    cases hcase with
    | absent child mem absent =>
      rw [tally, tallyAll_eq_zero ih]
      rfl
    | present present =>
      rw [tally, tallyAll_eq_zero fun s hs => ih s (List.mem_of_mem_filter hs),
        tallyAll_eq_zero fun s hs => ih s (List.mem_of_mem_filter hs)]
      rfl
  | union parts made ih =>
    obtain ⟨-, rfl⟩ := unite_eq_ok made
    exact tallyAll_eq_zero fun s hs => ih s (List.mem_of_mem_filter hs)
  | ancestor parent part ih => exact ih

theorem firstHead_cases (parts : List Stream) :
    firstHead parts = .unread ∨ (firstHead parts).isOver = true := by
  unfold firstHead
  split
  · exact .inr rfl
  · exact .inl rfl

theorem unite_unread {node : Option NodeId} {children : List Stream}
    (made : unite node children = .ok s) :
    s.IsComposite ∧ s.read = children.filter (·.context ≠ .absent) ∧
      (s.head = .unread ∨ s.head.isOver = true) := by
  obtain ⟨-, rfl⟩ := unite_eq_ok made
  exact ⟨trivial, rfl, firstHead_cases _⟩

theorem intersect_unread {node : Option NodeId} {children : List Stream}
    (made : intersect node children = .ok s) :
    s.IsComposite ∧ s.IsIntersection ∧
      s.read = (if s.context = .absent then [] else children.filter canPrune) ∧
      s.putOff = (if s.context = .absent then children else children.filter (!·.canPrune)) ∧
      (s.head = .unread ∨ s.head.isOver = true) := by
  have hcontext := context_intersect made
  obtain ⟨-, hcase⟩ := intersect_cases made
  cases hcase with
  | absent child mem absent => exact ⟨trivial, trivial, rfl, rfl, .inr rfl⟩
  | present present =>
    have hpresent := mt hcontext.1 (by simpa using present)
    rw [if_neg hpresent, if_neg hpresent]
    exact ⟨trivial, trivial, rfl, rfl, firstHead_cases _⟩

/-- A composite reads at most one entry ahead.  Once a union has computed an entry, and unless it is
    over, it has taken out of each scan it reads the sets up to the shard of that entry and at most
    one later; an intersection has taken these alone, and has left alone whatever it puts off.
    Before any call nothing is taken out of any scan, so that making the stream of a query over an
    index, be it in vain, counts no set. -/
theorem reads_one_ahead :
    (∀ (node : Option NodeId) (children : List Stream) (s : Stream),
      (∀ child ∈ children, child.BuiltFrom IsLeaf) →
        (unite node children = .ok s →
          s.read = children.filter (·.context ≠ .absent) ∧
            ∀ calls e, s.computed calls = some e → (s.run calls).2.head.isOver = false →
              List.Forall₂ (ReadUpTo e.shard 1) s.read (s.run calls).2.read) ∧
        (intersect node children = .ok s →
          s.read = (if s.context = .absent then [] else children.filter canPrune) ∧
          s.putOff = (if s.context = .absent then children else children.filter (!·.canPrune)) ∧
            ∀ calls, (s.run calls).2.putOff = s.putOff ∧
              ∀ e, s.computed calls = some e → (s.run calls).2.head.isOver = false →
                List.Forall₂ (ReadUpTo e.shard 0) s.read (s.run calls).2.read)) ∧
    (∀ s : Stream, s.BuiltFrom IsLeaf → s.tally = .zero) ∧
    ∀ (q : Query) (o : ScanOptions) (ix : ShardIndex),
      (q.stream (ShardIndex.leafOf o) ix).2.setCounts = ix.setCounts ∧
        ∀ s, (q.stream (ShardIndex.leafOf o) ix).1 = .ok s →
          (q.stream (ShardIndex.leafOf o) ix).2.statsAfter s =
            (q.stream (ShardIndex.leafOf o) ix).2.stats := by
  refine ⟨?_, fun s => BuiltFrom.tally_eq, ?_⟩
  · intro node children s hbuilt
    have hasc (child : Stream) (hchild : child ∈ children) : child.trace.Ascending :=
      (hbuilt child hchild).ascending fun _ => IsLeaf.ascending
    constructor
    · intro made
      obtain ⟨hs, hread, hunread⟩ := unite_unread made
      refine ⟨hread, ?_⟩
      intro calls e hcomputed hopen
      have hparts : ∀ part ∈ s.read, part.trace.Ascending := by
        rw [hread]
        exact fun part hpart => hasc part (List.mem_of_mem_filter hpart)
      obtain ⟨-, hahead⟩ := parts_of_computed hs hunread hparts hcomputed hopen
      exact hahead.imp fun _ _ hpart => hpart.1
    · intro made
      obtain ⟨hs, hmeets, hread, hputOff, hunread⟩ := intersect_unread made
      refine ⟨hread, hputOff, fun calls => ?_⟩
      have hleft := steady_leftOf.run s calls
      refine ⟨hleft.putOff, ?_⟩
      intro e hcomputed hopen
      have hparts : ∀ part ∈ s.read, part.trace.Ascending := by
        rw [hread]
        split
        · exact List.forall_mem_nil _
        · exact fun part hpart => hasc part (List.mem_of_mem_filter hpart)
      obtain ⟨hrested, hahead⟩ := parts_of_computed hs hunread hparts hcomputed hopen
      have hrest := hrested.atRest (hleft.intersection hmeets)
      have hboth := (List.forall₂_and_left _ _).2 ⟨hrest, hahead.flip⟩
      exact hboth.flip.imp fun _ _ hpart => hpart.2.2 hpart.1
  · intro q o ix
    refine ⟨Query.stream_keeps (ShardIndex.setCounts_leafOf o) q ix, fun s hs => ?_⟩
    rw [ShardIndex.statsAfter, (Query.builtFrom_stream hs).tally_eq]
    rfl

/-- A scan of one document in each of the given shards. -/
def sampleScan (shards : List String) : Stream :=
  ofScanner none (.ofItems (shards.map fun shard => .found (.ofUids shard none ["x"])))

def sampleScans : List Stream :=
  [sampleScan ["20240101_0", "20240102_0", "20240104_0"],
    sampleScan ["20240102_0", "20240103_0", "20240105_0"]]

theorem reads_one_ahead_sample :
    (∃ s e, unite none sampleScans = .ok s ∧
      s.computed [.next, .next, .hasNext] = some e ∧ e.shard = "20240103_0" ∧
      (s.run [.next, .next, .hasNext]).2.tally.shards = 5 ∧
      List.Forall₂ (ReadUpTo "20240103_0" 1) sampleScans
        (s.run [.next, .next, .hasNext]).2.read) ∧
    (∃ s e, intersect none sampleScans = .ok s ∧
      s.computed [.next] = some e ∧ e.shard = "20240102_0" ∧
      (s.run [.next]).2.tally.shards = 3 ∧
      List.Forall₂ (ReadUpTo "20240102_0" 0) sampleScans (s.run [.next]).2.read) ∧
    ∃ s ix, Query.sample.stream (ShardIndex.leafOf .unrestricted) .sample = (.ok s, ix) ∧
      ix.stats = ⟨1, 0, 0⟩ ∧ ix.statsAfter s = ⟨1, 0, 0⟩ := by
  have hbuilt : ∀ child ∈ sampleScans, child.BuiltFrom IsLeaf := by
    intro child hchild
    rcases List.mem_pair.1 hchild with rfl | rfl <;> exact .leaf ⟨none, .scan _, _, _, rfl, rfl⟩
  refine ⟨?_, ?_, ?_⟩
  · obtain ⟨s, hs⟩ : ∃ s, unite none sampleScans = .ok s := ⟨_, rfl⟩
    obtain ⟨hread, hahead⟩ := (reads_one_ahead.1 none sampleScans s hbuilt).1 hs
    obtain ⟨e, he, hshard⟩ :
        ∃ e, s.computed [.next, .next, .hasNext] = some e ∧ e.shard = "20240103_0" := by
      cases hs
      exact ⟨_, rfl, rfl⟩
    have hopen : (s.run [.next, .next, .hasNext]).2.head.isOver = false := by
      cases hs
      rfl
    -- two shards of each scan, and the third of the first scan, which lies ahead
    have htally : (s.run [.next, .next, .hasNext]).2.tally.shards = 5 := by
      cases hs
      rfl
    have hparts := hahead _ e he hopen
    rw [hread, hshard] at hparts
    exact ⟨s, e, hs, he, hshard, htally, hparts⟩
  · obtain ⟨s, hs⟩ : ∃ s, intersect none sampleScans = .ok s := ⟨_, rfl⟩
    obtain ⟨-, -, hahead⟩ := (reads_one_ahead.1 none sampleScans s hbuilt).2 hs
    obtain ⟨e, he, hshard⟩ : ∃ e, s.computed [.next] = some e ∧ e.shard = "20240102_0" := by
      cases hs
      exact ⟨_, rfl, rfl⟩
    have hopen : (s.run [.next]).2.head.isOver = false := by
      cases hs
      rfl
    have htally : (s.run [.next]).2.tally.shards = 3 := by
      cases hs
      rfl
    have hparts := (hahead _).2 e he hopen
    have hall : s.read = sampleScans := by
      cases hs
      rfl
    rw [hall, hshard] at hparts
    exact ⟨s, e, hs, he, hshard, htally, hparts⟩
  · obtain ⟨-, -, hqueries⟩ := reads_one_ahead
    obtain ⟨-, hstats⟩ := hqueries .sample .unrestricted .sample
    obtain ⟨s, ix, hs⟩ :
        ∃ s ix, Query.sample.stream (ShardIndex.leafOf .unrestricted) .sample = (.ok s, ix) :=
      ⟨_, _, rfl⟩
    rw [hs] at hstats
    have hcounts : ix.stats = ⟨1, 0, 0⟩ := by
      cases hs
      rfl
    exact ⟨s, ix, hs, hcounts, (hstats s rfl).trans hcounts⟩

end Stream

end ShardSearch
