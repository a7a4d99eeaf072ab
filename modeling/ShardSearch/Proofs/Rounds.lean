import ShardSearch.Proofs.MatchSets
import ShardSearch.Proofs.Trace

/-!
# What a round can come to

`MeetCase` and `JoinCase` list the outcomes of a round, each with what it tells of the traces the
round began with.  Whatever is proved about intersections and unions goes by these cases.
-/

namespace ShardSearch

namespace Stream

section Fold

variable {pick : String → String → String} {r : String → String → Prop}

theorem foldl_pick_mem (hpick : ∀ a b, pick a b = a ∨ pick a b = b) (s : String)
    (ss : List String) : ss.foldl pick s ∈ s :: ss := by
  induction ss generalizing s with
  | nil => simp
  | cons b ss ih =>
    rw [List.foldl_cons]
    rcases List.mem_cons.1 (ih (pick s b)) with h | h
    · rw [h]
      rcases hpick s b with h | h <;> simp [h]
    · simp [h]

theorem rel_foldl_pick (refl : ∀ a, r a a) (trans : ∀ {a b c}, r a b → r b c → r a c)
    (left : ∀ a b, r a (pick a b)) (right : ∀ a b, r b (pick a b)) (s : String)
    (ss : List String) : ∀ x ∈ s :: ss, r x (ss.foldl pick s) := by
  induction ss generalizing s with
  | nil => simp [refl]
  | cons b ss ih =>
    rw [List.foldl_cons]
    intro x hx
    have hs := ih (pick s b) _ List.mem_cons_self
    rcases List.mem_cons.1 hx with rfl | hx
    · exact trans (left x b) hs
    · rcases List.mem_cons.1 hx with rfl | hx
      · exact trans (right s x) hs
      · exact ih _ x (List.mem_cons_of_mem _ hx)

end Fold

theorem greatest_eq_none {ss : List String} : greatest ss = none ↔ ss = [] := by
  cases ss <;> simp [greatest]

theorem greatest_eq_some {ss : List String} {m : String} (h : greatest ss = some m) :
    m ∈ ss ∧ ∀ s ∈ ss, s ≤ m := by
  cases ss with
  | nil => cases h
  | cons s ss =>
    cases h
    exact ⟨foldl_pick_mem (by grind) s ss,
      rel_foldl_pick String.le_refl String.le_trans (by grind) (by grind) s ss⟩

theorem least_eq_none {ss : List String} : least ss = none ↔ ss = [] := by
  cases ss <;> simp [least]

theorem least_eq_some {ss : List String} {m : String} (h : least ss = some m) :
    m ∈ ss ∧ ∀ s ∈ ss, m ≤ s := by
  cases ss with
  | nil => cases h
  | cons s ss =>
    cases h
    exact ⟨foldl_pick_mem (by grind) s ss,
      rel_foldl_pick (r := fun a b => b ≤ a) String.le_refl (fun h h' => String.le_trans h' h)
        (by grind) (by grind) s ss⟩

end Stream

namespace Trace

/-- All traces have a first entry, and `shard` is the greatest shard among these. -/
structure Leads (shard : String) (parts : List Trace) : Prop where
  held : ∃ t ∈ parts, t.headShard? = some shard
  bound : ∀ t ∈ parts, ∃ s, t.headShard? = some s ∧ s ≤ shard

/-- The outcomes of a round of an intersection. -/
inductive MeetCase (node : Option NodeId) (parts : List Trace) : Move → Prop where
  /-- There are no traces to meet. -/
  | bare (none_left : parts = []) : MeetCase node parts (.stop none)
  /-- A trace is empty. -/
  | empty (t : Trace) (mem : t ∈ parts) (bare : t.entries = []) :
      MeetCase node parts (.stop t.fault)
  /-- A trace ends before the shard sought. -/
  | exhausted (shard : String) (leads : Leads shard parts) (t : Trace) (mem : t ∈ parts)
      (empty : (t.seek shard).entries = []) : MeetCase node parts (.stop t.fault)
  /-- All traces hold the shard sought. -/
  | consumed (shard : String) (leads : Leads shard parts)
      (aligned : ∀ t ∈ parts, ((t.seek shard).setAt? shard).isSome) :
      MeetCase node parts (.pass
        (entryOf shard
          (MatchSet.intersect shard node ((parts.map (seek shard)).filterMap (setAt? shard))))
        ((parts.map (seek shard)).map tail))
  /-- A trace goes on beyond the shard sought without holding it. -/
  | passed (shard : String) (leads : Leads shard parts) (t : Trace) (mem : t ∈ parts)
      (rest : (t.seek shard).entries ≠ []) (missing : (t.seek shard).setAt? shard = none) :
      MeetCase node parts (.pass none (parts.map (seek shard)))

/-- The outcomes of a round of a union. -/
inductive JoinCase (node : Option NodeId) (parts : List Trace) : Move → Prop where
  /-- A trace has failed. -/
  | failed (t : Trace) (mem : t ∈ parts) (error : Error) (empty : t.entries = [])
      (fault : t.fault = some error) : JoinCase node parts (.stop (some error))
  /-- All traces have ended. -/
  | ended (empty : ∀ t ∈ parts, t = stop none) : JoinCase node parts (.stop none)
  /-- The least shard among the first entries is consumed. -/
  | consumed (shard : String) (held : ∃ t ∈ parts, t.headShard? = some shard)
      (bound : ∀ t ∈ parts, ∀ s, t.headShard? = some s → shard ≤ s)
      (sound : ∀ t ∈ parts, t.entries = [] → t.fault = none) :
      JoinCase node parts (.pass
        (entryOf shard (MatchSet.unite shard node (parts.filterMap (setAt? shard))))
        (parts.map (leave shard)))

theorem headShard?_eq_none {t : Trace} : t.headShard? = none ↔ t.entries = [] := by
  obtain ⟨_ | ⟨e, es⟩, _ | error⟩ := t <;> simp [headShard?, head, Head.entry?]

theorem leads_of_greatest {shard : String} {parts : List Trace}
    (hover : ∀ t ∈ parts, t.entries ≠ [])
    (h : Stream.greatest (parts.filterMap headShard?) = some shard) : Leads shard parts := by
  obtain ⟨hmem, hle⟩ := Stream.greatest_eq_some h
  refine ⟨List.mem_filterMap.1 hmem, ?_⟩
  intro t ht
  cases hs : t.headShard? with
  | none => exact absurd (headShard?_eq_none.1 hs) (hover t ht)
  | some s => exact ⟨s, rfl, hle s (List.mem_filterMap.2 ⟨t, ht, hs⟩)⟩

/-- Every round of an intersection has one of the outcomes listed. -/
theorem meetCase_meetMove (node : Option NodeId) (parts : List Trace) :
    MeetCase node parts (meetMove node parts) := by
  unfold meetMove
  split
  · next t ht =>
    have hover := List.find?_some ht
    exact .empty t (List.mem_of_find?_eq_some ht) (isOver_head.1 hover)
  · next hnone =>
    have hover : ∀ t ∈ parts, t.entries ≠ [] := by
      intro t ht he
      exact List.find?_eq_none.1 hnone t ht (isOver_head.2 he)
    split
    · next hg =>
      refine .bare (List.eq_nil_iff_forall_not_mem.2 ?_)
      intro t ht
      have hnil := List.filterMap_eq_nil_iff.1 (Stream.greatest_eq_none.1 hg) t ht
      exact hover t ht (headShard?_eq_none.1 hnil)
    · next shard hg =>
      have leads := leads_of_greatest hover hg
      unfold consume
      split
      · next s hs =>
        have hover := List.find?_some hs
        obtain ⟨t, ht, rfl⟩ := List.mem_map.1 (List.mem_of_find?_eq_some hs)
        exact .exhausted shard leads t ht (isOver_head.1 hover)
      · next hnone =>
        have hsought : ∀ t ∈ parts, (t.seek shard).entries ≠ [] := by
          intro t ht he
          exact List.find?_eq_none.1 hnone _ (List.mem_map_of_mem ht) (isOver_head.2 he)
        split
        · next hall =>
          refine .consumed shard leads ?_
          intro t ht
          exact List.all_eq_true.1 hall _ (List.mem_map_of_mem ht)
        · next hall =>
          obtain ⟨t, ht, hmiss⟩ : ∃ t ∈ parts, (t.seek shard).setAt? shard = none := by
            simpa using hall
          exact .passed shard leads t ht (hsought t ht) hmiss

/-- Every round of a union has one of the outcomes listed. -/
theorem joinCase_joinMove (node : Option NodeId) (parts : List Trace) :
    JoinCase node parts (joinMove node parts) := by
  unfold joinMove
  split
  · next t ht =>
    have hfailure := List.find?_some ht
    obtain ⟨hempty, hfault⟩ := isFailure_head.1 hfailure
    obtain ⟨error, herror⟩ := Option.isSome_iff_exists.1 hfault
    rw [herror]
    exact .failed t (List.mem_of_find?_eq_some ht) error hempty herror
  · next hnone =>
    have sound : ∀ t ∈ parts, t.entries = [] → t.fault = none := by
      intro t ht he
      have := List.find?_eq_none.1 hnone t ht
      rw [isFailure_head] at this
      simpa [he] using this
    split
    · next hl =>
      refine .ended ?_
      intro t ht
      have hnil := List.filterMap_eq_nil_iff.1 (Stream.least_eq_none.1 hl) t ht
      have hempty := headShard?_eq_none.1 hnil
      have hfault := sound t ht hempty
      obtain ⟨es, fault⟩ := t
      simp_all [stop]
    · next shard hl =>
      obtain ⟨hmem, hle⟩ := Stream.least_eq_some hl
      exact .consumed shard (List.mem_filterMap.1 hmem)
        (fun t ht s hs => hle s (List.mem_filterMap.2 ⟨t, ht, hs⟩)) sound

/-! ## Rounds consume entries -/

theorem size_seek_le (shard : String) (t : Trace) : (t.seek shard).size ≤ t.size :=
  (List.dropWhile_suffix _).length_le

theorem size_tail_le (t : Trace) : t.tail.size ≤ t.size := by
  rw [size_tail]
  omega

theorem size_tail_lt {t : Trace} (h : t.entries ≠ []) : t.tail.size < t.size := by
  have hpos : 0 < t.size := List.length_pos_iff.2 h
  rw [size_tail]
  omega

theorem size_leave_le (shard : String) (t : Trace) : (t.leave shard).size ≤ t.size := by
  unfold leave
  split
  · exact size_tail_le t
  · exact Nat.le_refl _

theorem total_cons (t : Trace) (parts : List Trace) :
    total (t :: parts) = t.size + total parts := rfl

theorem total_map_le {f : Trace → Trace} {parts : List Trace}
    (h : ∀ t ∈ parts, (f t).size ≤ t.size) : total (parts.map f) ≤ total parts := by
  induction parts with
  | nil => exact Nat.le_refl _
  | cons t parts ih =>
    rw [List.map_cons, total_cons, total_cons]
    have ht := h t List.mem_cons_self
    have hparts := ih fun t ht => h t (List.mem_cons_of_mem _ ht)
    omega

theorem total_map_lt {f : Trace → Trace} {parts : List Trace}
    (h : ∀ t ∈ parts, (f t).size ≤ t.size) {t : Trace} (ht : t ∈ parts)
    (hlt : (f t).size < t.size) : total (parts.map f) < total parts := by
  induction parts with
  | nil => cases ht
  | cons s parts ih =>
    rw [List.map_cons, total_cons, total_cons]
    have hs := h s List.mem_cons_self
    have hparts : ∀ t ∈ parts, (f t).size ≤ t.size := fun t ht => h t (List.mem_cons_of_mem _ ht)
    rcases List.mem_cons.1 ht with rfl | ht
    · have := total_map_le hparts
      omega
    · have := ih hparts ht
      omega

/-- A trace that does not come to lie at the shard sought, or at its end, has lost an entry. -/
theorem size_seek_lt {shard : String} {t : Trace} (hle : ∃ s, t.headShard? = some s ∧ s ≤ shard)
    (hmiss : (t.seek shard).setAt? shard = none) : (t.seek shard).size < t.size := by
  obtain ⟨s, hs, hle⟩ := hle
  obtain ⟨_ | ⟨e, es⟩, fault⟩ := t
  · cases fault <;> cases hs
  · have hes : e.shard = s := Option.some.inj hs
    by_cases hlt : e.shard < shard
    · rw [seek_cons_of_lt hlt]
      exact Nat.lt_succ_of_le (size_seek_le shard ⟨es, fault⟩)
    · have heq : e.shard = shard := by grind
      rw [seek_cons_of_not_lt hlt, setAt?_cons, if_pos heq] at hmiss
      cases hmiss

theorem shrinks_meetMove (node : Option NodeId) : Shrinks (meetMove node) := by
  intro parts entry rest h
  have hcase := meetCase_meetMove node parts
  rw [h] at hcase
  cases hcase with
  | consumed shard leads aligned =>
    obtain ⟨t, ht, -⟩ := leads.held
    have hlt : total ((parts.map (seek shard)).map tail) < total (parts.map (seek shard)) :=
      total_map_lt (fun t _ => size_tail_le t) (List.mem_map_of_mem ht)
        (size_tail_lt (entries_ne_nil_of_setAt? (aligned t ht)))
    exact Nat.lt_of_lt_of_le hlt (total_map_le fun t _ => size_seek_le shard t)
  | passed shard leads t ht rest missing =>
    exact total_map_lt (fun t _ => size_seek_le shard t) ht
      (size_seek_lt (leads.bound t ht) missing)

theorem setAt?_isSome_of_headShard? {shard : String} {t : Trace}
    (h : t.headShard? = some shard) : (t.setAt? shard).isSome := by
  obtain ⟨_ | ⟨e, es⟩, _ | error⟩ := t <;>
    simp_all [headShard?, setAt?, head, Head.entry?, Option.filter]

theorem shrinks_joinMove (node : Option NodeId) : Shrinks (joinMove node) := by
  intro parts entry rest h
  have hcase := joinCase_joinMove node parts
  rw [h] at hcase
  cases hcase with
  | consumed shard held bound sound =>
    obtain ⟨t, ht, hhead⟩ := held
    have hset := setAt?_isSome_of_headShard? hhead
    refine total_map_lt (fun t _ => size_leave_le shard t) ht ?_
    rw [leave, if_pos hset]
    exact size_tail_lt (entries_ne_nil_of_setAt? hset)

/-- The trace of an intersection, by its first round. -/
theorem meet_eq (node : Option NodeId) (parts : List Trace) :
    meet node parts =
      match meetMove node parts with
      | .stop fault => stop fault
      | .pass entry rest => (meet node rest).after entry :=
  unroll_eq (shrinks_meetMove node) parts

/-- The trace of a union, by its first round. -/
theorem join_eq (node : Option NodeId) (parts : List Trace) :
    join node parts =
      match joinMove node parts with
      | .stop fault => stop fault
      | .pass entry rest => (join node rest).after entry :=
  unroll_eq (shrinks_joinMove node) parts

/-! ## The entries that are made -/

/-- What holds of every entry that a round comes to holds of all entries of a composite. -/
theorem forall_mem_unroll {move : List Trace → Move} {P : Entry → Prop} (hmove : Shrinks move)
    (hpass : ∀ parts e rest, move parts = .pass (some e) rest → P e) (parts : List Trace) :
    ∀ e ∈ (unroll move parts).entries, P e := by
  induction parts using (measure total).wf.induction with
  | _ parts ih =>
    have hlt := hmove parts
    have hmade := hpass parts
    rw [unroll_eq hmove]
    generalize move parts = outcome at hlt hmade
    cases outcome with
    | stop fault => exact fun e he => nomatch he
    | pass entry rest =>
      have hrest := ih rest (hlt entry rest rfl)
      cases entry with
      | none => exact hrest
      | some made =>
        intro e he
        rcases List.mem_cons.1 he with rfl | he
        · exact hmade e rest rfl
        · exact hrest e he

/-- The entry is one that a composite passes on: it is filed under the shard of its set, and
    something can match in it. -/
structure Made (e : Entry) : Prop where
  filed : e.set.shard = e.shard
  matching : e.set.matchesNothing = false

theorem made_of_entryOf {shard : String} {set : MatchSet} {e : Entry} (hshard : set.shard = shard)
    (h : entryOf shard set = some e) : Made e := by
  unfold entryOf at h
  split at h
  · cases h
  · next hmatching =>
    cases h
    exact ⟨hshard, Bool.eq_false_iff.2 hmatching⟩

theorem made_of_mem_meet (node : Option NodeId) (parts : List Trace) :
    ∀ e ∈ (meet node parts).entries, Made e := by
  refine forall_mem_unroll (shrinks_meetMove node) ?_ parts
  intro parts e rest h
  have hcase := meetCase_meetMove node parts
  rw [h] at hcase
  generalize hentry : some e = entry at hcase
  cases hcase with
  | consumed shard => exact made_of_entryOf MatchSet.shard_intersect hentry.symm
  | passed => cases hentry

theorem made_of_mem_join (node : Option NodeId) (parts : List Trace) :
    ∀ e ∈ (join node parts).entries, Made e := by
  refine forall_mem_unroll (shrinks_joinMove node) ?_ parts
  intro parts e rest h
  have hcase := joinCase_joinMove node parts
  rw [h] at hcase
  generalize hentry : some e = entry at hcase
  cases hcase with
  | consumed shard => exact made_of_entryOf MatchSet.shard_unite hentry.symm

end Trace

end ShardSearch
