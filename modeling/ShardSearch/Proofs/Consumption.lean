import ShardSearch.Proofs.DayRange
import ShardSearch.Proofs.Returning

/-!
# What is consumed for an entry

A composite over ascending parts consumes, for the next entry it comes to, the entries of its parts
up to the shard of that entry, and nothing behind it (`Yields.eq_within`).
-/

namespace ShardSearch

namespace Trace

variable {t : Trace} {x : String} {p q : String → Bool}

/-! ## Entries from a shard on -/

theorem within_within (h : ∀ y, q y = true → p y = true) : (t.within p).within q = t.within q := by
  refine congrArg (Trace.mk · t.fault) ?_
  rw [within, List.filter_filter]
  apply List.filter_congr
  intro e _
  cases hq : q e.shard with
  | false => rfl
  | true => simp [h e.shard hq]

theorem map_within_within {traces : List Trace} (h : ∀ y, q y = true → p y = true) :
    (traces.map (within p)).map (within q) = traces.map (within q) := by
  rw [List.map_map]
  exact List.map_congr_left fun t _ => within_within h

theorem within_eq_self (h : ∀ e ∈ t.entries, p e.shard = true) : t.within p = t :=
  congrArg (Trace.mk · t.fault) (List.filter_eq_self.2 h)

theorem Ascending.within (h : t.Ascending) (p : String → Bool) : (t.within p).Ascending :=
  h.sublist List.filter_sublist

/-- The entries that are left when a shard is sought are those that lie there or behind. -/
theorem seek_eq_within (h : t.Ascending) (x : String) : t.seek x = t.within (x ≤ ·) := by
  obtain ⟨es, fault⟩ := t
  induction es with
  | nil => rfl
  | cons e es ih =>
    obtain ⟨hlt, hes⟩ := ascending_cons.1 h
    by_cases he : e.shard < x
    · have hout : ¬ x ≤ e.shard := String.not_le.2 he
      rw [seek_cons_of_lt he, ih hes]
      simp [Trace.within, hout]
    · rw [seek_cons_of_not_lt he]
      refine (within_eq_self fun e' he' => ?_).symm
      have hle : x ≤ e.shard := String.not_lt.1 he
      rcases List.mem_cons.1 he' with rfl | he'
      · exact decide_eq_true hle
      · exact decide_eq_true (String.le_trans hle (Std.le_of_lt (hlt e' he')))

/-- The entries behind a shard that is at the head. -/
theorem tail_eq_within (h : t.Ascending) (hx : t.headShard? = some x) :
    t.tail = t.within (x < ·) := by
  obtain ⟨_ | ⟨e, es⟩, fault⟩ := t
  · cases fault <;> cases hx
  · cases Option.some.inj hx
    obtain ⟨hlt, -⟩ := ascending_cons.1 h
    have hes : es.filter (fun e' => decide (e.shard < e'.shard)) = es :=
      List.filter_eq_self.2 fun e' he' => decide_eq_true (hlt e' he')
    have hout : ¬ decide (e.shard < e.shard) = true :=
      fun hlt => String.lt_irrefl e.shard (of_decide_eq_true hlt)
    rw [Trace.within, List.filter_cons, if_neg hout, hes]
    rfl

/-- The entries behind a shard that may be at the head, and that no entry lies before. -/
theorem leave_eq_within (h : t.Ascending) (hx : Above x t) : t.leave x = t.within (x < ·) := by
  rw [Trace.leave]
  split
  · next hset => exact tail_eq_within h (headShard?_of_setAt? hset)
  · next hset =>
    refine (within_eq_self fun e he => decide_eq_true ?_).symm
    refine lt_of_mem_leave h hx ?_
    rw [Trace.leave, if_neg hset]
    exact he

/-! ## Rounds -/

/-- What a round consumes of ascending parts. -/
structure Cuts (move : List Trace → Move) : Prop where
  /-- For an entry, all entries up to its shard, which is a shard of some part. -/
  passed : ∀ {parts e rest}, (∀ t ∈ parts, t.Ascending) → move parts = .pass (some e) rest →
    rest = parts.map (within (e.shard < ·)) ∧ ∃ t ∈ parts, ∃ e' ∈ t.entries, e'.shard = e.shard
  /-- To no avail, all entries up to some shard or before it. -/
  skipped : ∀ {parts rest}, (∀ t ∈ parts, t.Ascending) → move parts = .pass none rest →
    ∃ p : String → Bool, (∀ x y, x < y → p x = true → p y = true) ∧ rest = parts.map (within p)

/-- The next entry that some parts come to by rounds, and what is left of them. -/
inductive Yields (move : List Trace → Move) : List Trace → Entry → List Trace → Prop where
  | now {parts rest : List Trace} {e : Entry} (round : move parts = .pass (some e) rest) :
      Yields move parts e rest
  | later {parts parts' rest : List Trace} {e : Entry} (round : move parts = .pass none parts')
      (others : Yields move parts' e rest) : Yields move parts e rest

theorem entry_of_entryOf {set : MatchSet} {e : Entry} (h : some e = entryOf x set) :
    e.shard = x := by
  unfold entryOf at h
  split at h
  · cases h
  · cases h
    rfl

theorem lt_upward (x : String) : ∀ y z, y < z → decide (x < y) = true → decide (x < z) = true := by
  intro y z hyz hxy
  exact decide_eq_true (String.lt_trans (of_decide_eq_true hxy) hyz)

theorem map_tail_seek_eq_within {parts : List Trace} (hasc : ∀ t ∈ parts, t.Ascending)
    (haligned : ∀ t ∈ parts, ((t.seek x).setAt? x).isSome) :
    (parts.map (Trace.seek x)).map Trace.tail = parts.map (within (x < ·)) := by
  rw [List.map_map]
  apply List.map_congr_left
  intro t ht
  rw [Function.comp, tail_eq_within ((hasc t ht).seek x) (headShard?_of_setAt? (haligned t ht)),
    seek_eq_within (hasc t ht)]
  apply within_within
  intro y hy
  exact decide_eq_true (Std.le_of_lt (of_decide_eq_true hy))

theorem cuts_meetMove (node : Option NodeId) : Cuts (meetMove node) := by
  constructor
  · intro parts e rest hasc h
    have hcase := meetCase_meetMove node parts
    rw [h] at hcase
    generalize hentry : some e = entry at hcase
    cases hcase with
    | consumed shard leads aligned =>
      obtain ⟨t, ht, hhead⟩ := leads.held
      rw [entry_of_entryOf hentry]
      exact ⟨map_tail_seek_eq_within hasc aligned, t, ht, exists_mem_of_headShard? hhead⟩
    | passed => cases hentry
  · intro parts rest hasc h
    have hcase := meetCase_meetMove node parts
    rw [h] at hcase
    generalize none = entry at hcase
    cases hcase with
    | consumed shard leads aligned =>
      exact ⟨_, lt_upward shard, map_tail_seek_eq_within hasc aligned⟩
    | passed shard leads t mem rest missing =>
      refine ⟨(shard ≤ ·), ?_, List.map_congr_left fun t ht => seek_eq_within (hasc t ht) shard⟩
      intro y z hyz hy
      exact decide_eq_true (String.le_trans (of_decide_eq_true hy) (Std.le_of_lt hyz))

theorem cuts_joinMove (node : Option NodeId) : Cuts (joinMove node) := by
  constructor
  · intro parts e rest hasc h
    have hcase := joinCase_joinMove node parts
    rw [h] at hcase
    generalize hentry : some e = entry at hcase
    cases hcase with
    | consumed shard held bound sound =>
      obtain ⟨t, ht, hhead⟩ := held
      rw [entry_of_entryOf hentry]
      refine ⟨?_, t, ht, exists_mem_of_headShard? hhead⟩
      exact List.map_congr_left fun t ht => leave_eq_within (hasc t ht) (bound t ht)
  · intro parts rest hasc h
    have hcase := joinCase_joinMove node parts
    rw [h] at hcase
    generalize none = entry at hcase
    cases hcase with
    | consumed shard held bound sound =>
      refine ⟨_, lt_upward shard, ?_⟩
      exact List.map_congr_left fun t ht => leave_eq_within (hasc t ht) (bound t ht)

/-- For the next entry, exactly the entries up to its shard are consumed. -/
theorem Yields.eq_within {move : List Trace → Move} (hmove : Cuts move) {parts rest : List Trace}
    {e : Entry} (h : Yields move parts e rest) (hasc : ∀ t ∈ parts, t.Ascending) :
    rest = parts.map (within (e.shard < ·)) ∧
      ∃ t ∈ parts, ∃ e' ∈ t.entries, e'.shard = e.shard := by
  induction h with
  | now round => exact hmove.passed hasc round
  | later round others ih =>
    obtain ⟨p, hupward, rfl⟩ := hmove.skipped hasc round
    obtain ⟨rfl, t', ht', e', he', heq⟩ := ih fun t' ht' => by
      obtain ⟨t, ht, rfl⟩ := List.mem_map.1 ht'
      exact (hasc t ht).within p
    obtain ⟨t, ht, rfl⟩ := List.mem_map.1 ht'
    obtain ⟨he', hp⟩ := List.mem_filter.1 he'
    refine ⟨map_within_within fun y hy => ?_, t, ht, e', he', heq⟩
    exact hupward e'.shard y (heq ▸ of_decide_eq_true hy) hp

/-- What is left of a trace behind an entry, all of it if there is none. -/
def behind (last : Option Entry) (t : Trace) : Trace :=
  match last with
  | none => t
  | some e => t.within (e.shard < ·)

theorem ascending_map_behind {traces : List Trace} (hasc : ∀ t ∈ traces, t.Ascending)
    (last : Option Entry) : ∀ t ∈ traces.map (behind last), t.Ascending := by
  intro t ht
  obtain ⟨s, hs, rfl⟩ := List.mem_map.1 ht
  cases last with
  | none => exact hasc s hs
  | some e => exact (hasc s hs).within _

/-- What is left behind a later entry is left of what is left behind the one before it. -/
theorem map_within_behind {traces : List Trace} {last : Option Entry} {e : Entry}
    (h : ∃ t ∈ traces.map (behind last), ∃ e' ∈ t.entries, e'.shard = e.shard) :
    (traces.map (behind last)).map (within (e.shard < ·)) = traces.map (behind (some e)) := by
  obtain ⟨t, ht, e', he', hshard⟩ := h
  cases last with
  | none =>
    rw [List.map_map]
    rfl
  | some before =>
    obtain ⟨s, -, rfl⟩ := List.mem_map.1 ht
    have hlt : before.shard < e.shard := hshard ▸ of_decide_eq_true (List.mem_filter.1 he').2
    show (traces.map (within (before.shard < ·))).map (within (e.shard < ·)) =
      traces.map (within (e.shard < ·))
    refine map_within_within fun y hy => ?_
    exact lt_upward before.shard e.shard y (of_decide_eq_true hy) (decide_eq_true hlt)

end Trace

namespace Stream

/-- What is consumed of streams by rounds is what rounds over their traces consume. -/
theorem yields_of_settleWithin {round : List Stream → Round} {move : List Trace → Trace.Move}
    {h : Nat}
    (hspec : ∀ parts, heightAll parts ≤ h →
      RoundMakes (round parts) (move (parts.map trace)) ∧ AllLater parts (round parts).parts)
    {n : Nat} {parts parts' : List Stream} {e : Entry} (hh : heightAll parts ≤ h)
    (hsettle : settleWithin round n parts = (.ready e, parts')) :
    Trace.Yields move (parts.map trace) e (parts'.map trace) := by
  induction n generalizing parts with
  | zero => cases hsettle
  | succ n ih =>
    rw [settleWithin] at hsettle
    cases houtcome : round parts with
    | settled head rest =>
      rw [houtcome] at hsettle
      cases hsettle
      obtain ⟨hmakes, -⟩ := hspec parts hh
      rw [houtcome] at hmakes
      refine .now ?_
      generalize move (parts.map trace) = outcome at hmakes
      cases hmakes
      rfl
    | again rest =>
      rw [houtcome] at hsettle
      obtain ⟨hpass, hlater⟩ := move_of_again hspec hh houtcome
      exact .later hpass (ih (Nat.le_trans (Nat.le_of_eq hlater.height) hh) hsettle)

end Stream

end ShardSearch
