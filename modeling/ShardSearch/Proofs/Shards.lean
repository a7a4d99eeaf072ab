import ShardSearch.Proofs.MatchSets
import ShardSearch.Proofs.Rounds

/-!
# Traces shard by shard

A trace whose shards ascend is known by what it holds at each shard, `at?`.  An intersection of
such traces holds at a shard what is common to the sets that its parts hold there (`at?_meet`), a
union what these sets hold together (`at?_join`); no shard is lost on the way, and none is met
twice.
-/

namespace ShardSearch.Trace

/-- The set held at a shard. -/
def at? (shard : String) (t : Trace) : Option MatchSet :=
  (t.entries.find? (·.shard = shard)).map (·.set)

/-- The shards ascend strictly. -/
def Ascending (t : Trace) : Prop := t.entries.Pairwise (·.shard < ·.shard)

/-- What an intersection holds at a shard where its parts hold the given sets. -/
def common (node : Option NodeId) (shard : String) (held : List (Option MatchSet)) :
    Option MatchSet :=
  if held ≠ [] ∧ held.all Option.isSome then
    (MatchSet.intersect shard node (held.filterMap id)).kept
  else none

/-- What a union holds at a shard where its parts hold the given sets. -/
def pooled (node : Option NodeId) (shard : String) (held : List (Option MatchSet)) :
    Option MatchSet :=
  (MatchSet.unite shard node (held.filterMap id)).kept

variable {t : Trace} {parts : List Trace} {x y : String} {node : Option NodeId}

theorem at?_of_entries_eq_nil (h : t.entries = []) : t.at? x = none := by
  rw [at?, h]
  rfl

theorem at?_cons (e : Entry) (es : List Entry) (fault : Option Error) :
    at? x ⟨e :: es, fault⟩ = if e.shard = x then some e.set else at? x ⟨es, fault⟩ := by
  by_cases h : e.shard = x <;> simp [at?, h]

theorem at?_after_some (t : Trace) (e : Entry) :
    (t.after (some e)).at? x = if e.shard = x then some e.set else t.at? x :=
  at?_cons e t.entries t.fault

/-- A set made at one shard, put in front of a trace. -/
theorem at?_after_entryOf (t : Trace) (set : MatchSet) (h : t.at? x = none) :
    (t.after (entryOf x set)).at? y = if x = y then set.kept else t.at? y := by
  unfold entryOf MatchSet.kept
  by_cases hxy : x = y
  · subst hxy
    split
    · simp [h]
    · simp [at?_after_some]
  · split <;> simp [at?_after_some, hxy]

theorem mem_after_entryOf {set : MatchSet} {e : Entry}
    (h : e ∈ (t.after (entryOf x set)).entries) : e = ⟨x, set⟩ ∨ e ∈ t.entries := by
  unfold entryOf at h
  split at h
  · exact .inr h
  · exact List.mem_cons.1 h

theorem exists_mem_of_headShard? (h : t.headShard? = some x) : ∃ e ∈ t.entries, e.shard = x := by
  obtain ⟨_ | ⟨e, es⟩, fault⟩ := t
  · cases fault <;> cases h
  · exact ⟨e, List.mem_cons_self, Option.some.inj h⟩

/-! ## Ascending traces -/

theorem ascending_cons {e : Entry} {es : List Entry} {fault : Option Error} :
    Ascending ⟨e :: es, fault⟩ ↔ (∀ e' ∈ es, e.shard < e'.shard) ∧ Ascending ⟨es, fault⟩ :=
  List.pairwise_cons

theorem ascending_stop (fault : Option Error) : Ascending (stop fault) := .nil

theorem Ascending.tail (h : t.Ascending) : t.tail.Ascending := h.sublist (List.tail_sublist _)

theorem Ascending.seek (h : t.Ascending) (x : String) : (t.seek x).Ascending :=
  h.sublist (List.dropWhile_sublist _)

theorem leave_sublist (x : String) (t : Trace) : (t.leave x).entries.Sublist t.entries := by
  unfold Trace.leave
  split
  · exact List.tail_sublist _
  · exact List.Sublist.refl _

theorem Ascending.leave (h : t.Ascending) (x : String) : (t.leave x).Ascending :=
  h.sublist (leave_sublist x t)

theorem at?_eq_none_of_forall_lt (h : ∀ e ∈ t.entries, x < e.shard) : t.at? x = none := by
  rw [at?, Option.map_eq_none_iff, List.find?_eq_none]
  intro e he heq
  have hlt := h e he
  rw [of_decide_eq_true heq] at hlt
  exact String.lt_irrefl x hlt

/-- The sets of an ascending trace are those of its entries. -/
theorem at?_eq_some_iff (h : t.Ascending) {set : MatchSet} :
    t.at? x = some set ↔ ⟨x, set⟩ ∈ t.entries := by
  obtain ⟨es, fault⟩ := t
  induction es with
  | nil => simp [at?]
  | cons e es ih =>
    obtain ⟨hlt, hes⟩ := ascending_cons.1 h
    rw [at?_cons]
    split
    · next he =>
      subst he
      have hout : ∀ s, ¬ (⟨e.shard, s⟩ : Entry) ∈ es := by
        intro s hs
        exact String.lt_irrefl e.shard (hlt ⟨e.shard, s⟩ hs)
      obtain ⟨shard, s⟩ := e
      simp [hout, eq_comm]
    · next he =>
      rw [ih hes]
      obtain ⟨shard, s⟩ := e
      simp [Ne.symm he]

/-- Ascending traces that hold the same sets have the same entries. -/
theorem entries_ext {s t : Trace} (hs : s.Ascending) (ht : t.Ascending)
    (h : ∀ x, s.at? x = t.at? x) : s.entries = t.entries := by
  refine SortedMap.eq_of_ascending hs ht fun e => ?_
  rw [← at?_eq_some_iff hs, ← at?_eq_some_iff ht, h]

theorem at?_tail (h : t.Ascending) (hx : t.headShard? = some x) :
    t.tail.at? y = if y = x then none else t.at? y := by
  obtain ⟨_ | ⟨e, es⟩, fault⟩ := t
  · cases fault <;> cases hx
  · cases Option.some.inj hx
    obtain ⟨hlt, hes⟩ := ascending_cons.1 h
    by_cases hy : y = e.shard
    · subst hy
      rw [if_pos rfl]
      exact at?_eq_none_of_forall_lt hlt
    · rw [if_neg hy, at?_cons, if_neg (Ne.symm hy)]
      rfl

theorem at?_of_lt_head (h : t.Ascending) (hx : t.headShard? = some x) (hy : y < x) :
    t.at? y = none := by
  obtain ⟨_ | ⟨e, es⟩, fault⟩ := t
  · cases fault <;> cases hx
  · cases Option.some.inj hx
    obtain ⟨hlt, -⟩ := ascending_cons.1 h
    apply at?_eq_none_of_forall_lt
    intro e' he'
    rcases List.mem_cons.1 he' with rfl | he'
    · exact hy
    · exact String.lt_trans hy (hlt e' he')

/-- Seeking a shard loses what lies before it, and nothing else. -/
theorem at?_seek (h : t.Ascending) : (t.seek x).at? y = if y < x then none else t.at? y := by
  obtain ⟨es, fault⟩ := t
  induction es with
  | nil => simp [Trace.seek, at?]
  | cons e es ih =>
    obtain ⟨hlt, hes⟩ := ascending_cons.1 h
    by_cases he : e.shard < x
    · rw [seek_cons_of_lt he, ih hes, at?_cons]
      by_cases hy : y < x
      · simp [hy]
      · have hne : e.shard ≠ y := fun heq => hy (heq ▸ he)
        simp [hy, hne]
    · rw [seek_cons_of_not_lt he]
      split
      · next hy =>
        have hye : y < e.shard := by grind
        exact at?_of_lt_head h rfl hye
      · rfl

theorem headShard?_of_setAt? (h : (t.setAt? x).isSome) : t.headShard? = some x := by
  obtain ⟨_ | ⟨e, es⟩, fault⟩ := t
  · cases fault <;> cases h
  · rw [setAt?_cons] at h
    split at h
    · next he => rw [headShard?_cons, he]
    · cases h

/-- Where no first entry lies before a shard, the sets at that shard are at the heads. -/
theorem setAt?_eq_at? (h : t.Ascending) (hx : ∀ s, t.headShard? = some s → x ≤ s) :
    t.setAt? x = t.at? x := by
  obtain ⟨_ | ⟨e, es⟩, fault⟩ := t
  · cases fault <;> rfl
  · rw [setAt?_cons, at?_cons]
    split
    · rfl
    · next he =>
      have hlt : x < e.shard := by
        have := hx e.shard rfl
        grind
      obtain ⟨hes, -⟩ := ascending_cons.1 h
      exact (at?_eq_none_of_forall_lt fun e' he' => String.lt_trans hlt (hes e' he')).symm

/-! ## Intersections -/

theorem common_eq_none {held : List (Option MatchSet)} (h : none ∈ held) :
    common node x held = none := by
  apply if_neg
  intro hall
  have := List.all_eq_true.1 hall.2 none h
  cases this

theorem common_eq_none_of_mem (ht : t ∈ parts) (h : t.at? x = none) :
    common node x (parts.map (at? x)) = none :=
  common_eq_none (h ▸ List.mem_map_of_mem ht)

/-- The entries dropped on the way to the greatest shard at the heads are not common to all. -/
theorem common_seek (hasc : ∀ t ∈ parts, t.Ascending) (hx : Leads x parts) :
    common node y ((parts.map (Trace.seek x)).map (at? y)) = common node y (parts.map (at? y)) := by
  by_cases hlt : y < x
  · obtain ⟨t, ht, hhead⟩ := hx.held
    have hseek : (t.seek x).at? y = none := by rw [at?_seek (hasc t ht), if_pos hlt]
    rw [common_eq_none_of_mem ht (at?_of_lt_head (hasc t ht) hhead hlt),
      common_eq_none_of_mem (List.mem_map_of_mem ht) hseek]
  · refine congrArg (common node y) ?_
    rw [List.map_map]
    apply List.map_congr_left
    intro t ht
    rw [Function.comp, at?_seek (hasc t ht), if_neg hlt]

theorem ascending_map_seek (hasc : ∀ t ∈ parts, t.Ascending) (x : String) :
    ∀ t ∈ parts.map (Trace.seek x), t.Ascending := by
  intro t ht
  obtain ⟨s, hs, rfl⟩ := List.mem_map.1 ht
  exact (hasc s hs).seek x

theorem ascending_map_tail (hasc : ∀ t ∈ parts, t.Ascending) :
    ∀ t ∈ parts.map Trace.tail, t.Ascending := by
  intro t ht
  obtain ⟨s, hs, rfl⟩ := List.mem_map.1 ht
  exact (hasc s hs).tail

/-- Consuming a shard that lies at all heads. -/
theorem common_consume (hasc : ∀ t ∈ parts, t.Ascending) (hne : parts ≠ [])
    (haligned : ∀ t ∈ parts, (t.setAt? x).isSome) :
    common node y (parts.map (at? y)) =
      if x = y then (MatchSet.intersect x node (parts.filterMap (setAt? x))).kept
      else common node y ((parts.map Trace.tail).map (at? y)) := by
  have hset : ∀ t ∈ parts, t.setAt? x = t.at? x := by
    intro t ht
    apply setAt?_eq_at? (hasc t ht)
    intro s hs
    rw [headShard?_of_setAt? (haligned t ht)] at hs
    cases hs
    exact String.le_refl x
  by_cases hxy : x = y
  · subst hxy
    have hmap : parts.map (at? x) = parts.map (setAt? x) :=
      (List.map_congr_left hset).symm
    have hall : (parts.map (setAt? x)).all Option.isSome = true := by
      rw [List.all_map]
      exact List.all_eq_true.2 haligned
    rw [if_pos rfl, hmap, common, if_pos ⟨by simpa using hne, hall⟩, List.filterMap_map]
    rfl
  · rw [if_neg hxy, List.map_map]
    refine congrArg (common node y) (List.map_congr_left ?_)
    intro t ht
    rw [Function.comp, at?_tail (hasc t ht) (headShard?_of_setAt? (haligned t ht)),
      if_neg (Ne.symm hxy)]

/-- An intersection holds at each shard what is common to its parts there. -/
theorem at?_meet (hasc : ∀ t ∈ parts, t.Ascending) :
    (meet node parts).at? x = common node x (parts.map (at? x)) := by
  induction parts using (measure total).wf.induction generalizing x with
  | _ parts ih =>
    have hcase := meetCase_meetMove node parts
    have hlt := shrinks_meetMove node parts
    rw [meet_eq]
    generalize meetMove node parts = move at hcase hlt
    cases hcase with
    | bare hnil => rw [hnil]; rfl
    | empty t ht hempty => exact (common_eq_none_of_mem ht (at?_of_entries_eq_nil hempty)).symm
    | exhausted shard leads t ht hempty =>
      rw [← common_seek hasc leads]
      exact (common_eq_none_of_mem (List.mem_map_of_mem ht) (at?_of_entries_eq_nil hempty)).symm
    | passed shard leads t ht hrest hmissing =>
      rw [← common_seek hasc leads]
      exact ih _ (hlt _ _ rfl) (ascending_map_seek hasc shard)
    | consumed shard leads haligned =>
      obtain ⟨t, ht, -⟩ := leads.held
      have hasc' := ascending_map_seek hasc shard
      have hsought : ∀ t ∈ parts.map (Trace.seek shard), (t.setAt? shard).isSome := by
        simpa using haligned
      have hne : parts.map (Trace.seek shard) ≠ [] := by
        simpa using List.ne_nil_of_mem ht
      have hrec := fun y => ih _ (hlt _ _ rfl) (x := y) (ascending_map_tail hasc')
      have hleft :
          (meet node ((parts.map (Trace.seek shard)).map Trace.tail)).at? shard = none := by
        rw [hrec]
        refine common_eq_none_of_mem (List.mem_map_of_mem (List.mem_map_of_mem ht)) ?_
        rw [at?_tail (hasc t ht |>.seek shard) (headShard?_of_setAt? (haligned t ht)), if_pos rfl]
      rw [← common_seek hasc leads, common_consume hasc' hne hsought]
      simp only [at?_after_entryOf _ _ hleft, hrec]

/-- Every shard of an intersection is a shard of each of its parts. -/
theorem mem_meet {e : Entry} (he : e ∈ (meet node parts).entries) (ht : t ∈ parts) :
    ∃ e' ∈ t.entries, e'.shard = e.shard := by
  induction parts using (measure total).wf.induction generalizing t with
  | _ parts ih =>
    have hcase := meetCase_meetMove node parts
    have hlt := shrinks_meetMove node parts
    rw [meet_eq] at he
    generalize meetMove node parts = move at hcase hlt he
    have hseek : ∀ shard, ∀ e' ∈ (t.seek shard).entries, e' ∈ t.entries := by
      intro shard e' he'
      exact (List.dropWhile_sublist _).subset he'
    cases hcase with
    | bare hnil => cases he
    | empty s hs hempty => cases he
    | exhausted shard leads s hs hempty => cases he
    | passed shard leads s hs hrest hmissing =>
      obtain ⟨e', he', heq⟩ := ih _ (hlt _ _ rfl) he (List.mem_map_of_mem ht)
      exact ⟨e', hseek shard e' he', heq⟩
    | consumed shard leads haligned =>
      rcases mem_after_entryOf he with rfl | he
      · obtain ⟨e', he', heq⟩ :=
          exists_mem_of_headShard? (headShard?_of_setAt? (haligned t ht))
        exact ⟨e', hseek shard e' he', heq⟩
      · obtain ⟨e', he', heq⟩ :=
          ih _ (hlt _ _ rfl) he (List.mem_map_of_mem (List.mem_map_of_mem ht))
        exact ⟨e', hseek shard e' (List.mem_of_mem_tail he'), heq⟩

theorem lt_of_mem_tail {e : Entry} (h : t.Ascending) (hx : t.headShard? = some x)
    (he : e ∈ t.tail.entries) : x < e.shard := by
  obtain ⟨_ | ⟨e', es⟩, fault⟩ := t
  · cases he
  · cases Option.some.inj hx
    exact (ascending_cons.1 h).1 e he

theorem ascending_after_entryOf {set : MatchSet} (h : t.Ascending)
    (hx : ∀ e ∈ t.entries, x < e.shard) : (t.after (entryOf x set)).Ascending := by
  unfold entryOf
  split
  · exact h
  · exact ascending_cons.2 ⟨hx, h⟩

/-- An intersection ascends, and fails only if a part of it does. -/
theorem ascending_meet (node : Option NodeId) (hasc : ∀ t ∈ parts, t.Ascending) :
    (meet node parts).Ascending ∧
      ((∀ t ∈ parts, t.fault = none) → (meet node parts).fault = none) := by
  induction parts using (measure total).wf.induction with
  | _ parts ih =>
    have hcase := meetCase_meetMove node parts
    have hlt := shrinks_meetMove node parts
    rw [meet_eq]
    generalize meetMove node parts = move at hcase hlt
    cases hcase with
    | bare hnil => exact ⟨ascending_stop none, fun _ => rfl⟩
    | empty t ht hempty => exact ⟨ascending_stop _, fun hfault => hfault t ht⟩
    | exhausted shard leads t ht hempty => exact ⟨ascending_stop _, fun hfault => hfault t ht⟩
    | passed shard leads t ht hrest hmissing =>
      obtain ⟨hrec, hfault⟩ := ih _ (hlt _ _ rfl) (ascending_map_seek hasc shard)
      exact ⟨hrec, fun hnone => hfault (by simpa using hnone)⟩
    | consumed shard leads haligned =>
      obtain ⟨t, ht, -⟩ := leads.held
      obtain ⟨hrec, hfault⟩ :=
        ih _ (hlt _ _ rfl) (ascending_map_tail (ascending_map_seek hasc shard))
      refine ⟨ascending_after_entryOf hrec ?_, fun hnone => hfault (by simpa using hnone)⟩
      intro e he
      obtain ⟨e', he', heq⟩ := mem_meet he (List.mem_map_of_mem (List.mem_map_of_mem ht))
      rw [← heq]
      exact lt_of_mem_tail ((hasc t ht).seek shard) (headShard?_of_setAt? (haligned t ht)) he'

/-! ## Unions -/

/-- No first entry of a trace lies before `x`. -/
def Above (x : String) (t : Trace) : Prop := ∀ s, t.headShard? = some s → x ≤ s

theorem at?_leave (h : t.Ascending) (hx : Above x t) :
    (t.leave x).at? y = if y = x then none else t.at? y := by
  unfold Trace.leave
  split
  · next hset => exact at?_tail h (headShard?_of_setAt? hset)
  · next hset =>
    split
    · next hy =>
      rw [hy, ← setAt?_eq_at? h hx]
      simpa using hset
    · rfl

theorem lt_of_mem_leave {e : Entry} (h : t.Ascending) (hx : Above x t)
    (he : e ∈ (t.leave x).entries) : x < e.shard := by
  have hsome := (at?_eq_some_iff (h.leave x)).2 he
  rw [at?_leave h hx] at hsome
  have hmem : e ∈ t.entries := (leave_sublist x t).subset he
  split at hsome
  · cases hsome
  · next hne =>
    obtain ⟨_ | ⟨e', es⟩, fault⟩ := t
    · cases hmem
    · have hle := hx e'.shard rfl
      have := (ascending_cons.1 h).1
      rcases List.mem_cons.1 hmem with rfl | hmem
      · grind
      · have := this e hmem
        grind

theorem ascending_map_leave (hasc : ∀ t ∈ parts, t.Ascending) (x : String) :
    ∀ t ∈ parts.map (Trace.leave x), t.Ascending := by
  intro t ht
  obtain ⟨s, hs, rfl⟩ := List.mem_map.1 ht
  exact (hasc s hs).leave x

@[simp] theorem fault_leave (x : String) (t : Trace) : (t.leave x).fault = t.fault := by
  unfold Trace.leave
  split <;> rfl

theorem pooled_eq_none {held : List (Option MatchSet)} (h : ∀ set ∈ held, set = none) :
    pooled node x held = none := by
  have hnil : held.filterMap id = [] := List.filterMap_eq_nil_iff.2 h
  rw [pooled, hnil]
  rfl

/-- A union of traces that do not fail holds at each shard what its parts hold there together. -/
theorem at?_join (hasc : ∀ t ∈ parts, t.Ascending) (hfault : ∀ t ∈ parts, t.fault = none) :
    (join node parts).at? x = pooled node x (parts.map (at? x)) := by
  induction parts using (measure total).wf.induction generalizing x with
  | _ parts ih =>
    have hcase := joinCase_joinMove node parts
    have hlt := shrinks_joinMove node parts
    rw [join_eq]
    generalize joinMove node parts = move at hcase hlt
    cases hcase with
    | failed t ht error hempty herror =>
      rw [hfault t ht] at herror
      cases herror
    | ended hempty =>
      refine (pooled_eq_none ?_).symm
      intro set hset
      obtain ⟨t, ht, rfl⟩ := List.mem_map.1 hset
      rw [hempty t ht]
      rfl
    | consumed shard held bound sound =>
      have hrec := fun y => ih _ (hlt _ _ rfl) (x := y) (ascending_map_leave hasc shard)
        (by simpa using hfault)
      have hleave : ∀ y, (parts.map (Trace.leave shard)).map (at? y) =
          parts.map fun t => if y = shard then none else t.at? y := by
        intro y
        rw [List.map_map]
        exact List.map_congr_left fun t ht => at?_leave (hasc t ht) (bound t ht)
      have hleft : (join node (parts.map (Trace.leave shard))).at? shard = none := by
        rw [hrec, hleave]
        exact pooled_eq_none (by simp)
      simp only [at?_after_entryOf _ _ hleft, hrec, hleave]
      split
      · next hx =>
        subst hx
        have hheads : parts.map (at? shard) = parts.map (setAt? shard) :=
          List.map_congr_left fun t ht => (setAt?_eq_at? (hasc t ht) (bound t ht)).symm
        rw [hheads, pooled, List.filterMap_map]
        rfl
      · next hx => simp [Ne.symm hx]

/-- Every shard of a union is a shard of one of its parts. -/
theorem mem_join {e : Entry} (he : e ∈ (join node parts).entries) :
    ∃ t ∈ parts, ∃ e' ∈ t.entries, e'.shard = e.shard := by
  induction parts using (measure total).wf.induction with
  | _ parts ih =>
    have hcase := joinCase_joinMove node parts
    have hlt := shrinks_joinMove node parts
    rw [join_eq] at he
    generalize joinMove node parts = move at hcase hlt he
    cases hcase with
    | failed t ht error hempty herror => cases he
    | ended hempty => cases he
    | consumed shard held bound sound =>
      rcases mem_after_entryOf he with rfl | he
      · obtain ⟨t, ht, hhead⟩ := held
        exact ⟨t, ht, exists_mem_of_headShard? hhead⟩
      · obtain ⟨s, hs, e', he', heq⟩ := ih _ (hlt _ _ rfl) he
        obtain ⟨t, ht, rfl⟩ := List.mem_map.1 hs
        exact ⟨t, ht, e', (leave_sublist shard t).subset he', heq⟩

/-- A union ascends, and fails only if a part of it does. -/
theorem ascending_join (node : Option NodeId) (hasc : ∀ t ∈ parts, t.Ascending) :
    (join node parts).Ascending ∧
      ((∀ t ∈ parts, t.fault = none) → (join node parts).fault = none) := by
  induction parts using (measure total).wf.induction with
  | _ parts ih =>
    have hcase := joinCase_joinMove node parts
    have hlt := shrinks_joinMove node parts
    rw [join_eq]
    generalize joinMove node parts = move at hcase hlt
    cases hcase with
    | failed t ht error hempty herror =>
      exact ⟨ascending_stop _, fun hfault => by rw [hfault t ht] at herror; cases herror⟩
    | ended hempty => exact ⟨ascending_stop none, fun _ => rfl⟩
    | consumed shard held bound sound =>
      obtain ⟨hrec, hfault⟩ := ih _ (hlt _ _ rfl) (ascending_map_leave hasc shard)
      refine ⟨ascending_after_entryOf hrec ?_, fun hnone => hfault (by simpa using hnone)⟩
      intro e he
      obtain ⟨s, hs, e', he', heq⟩ := mem_join he
      obtain ⟨t, ht, rfl⟩ := List.mem_map.1 hs
      rw [← heq]
      exact lt_of_mem_leave (hasc t ht) (bound t ht) he'

/-! ## What composites let through -/

section Setwise

variable {held : List (Option MatchSet)} {set : MatchSet} {Q : MatchSet → Prop}

/-- What is common to some parts has a property of this kind if all of them hold sets that do. -/
theorem exists_common_iff (hQ : MatchSet.Setwise Q) :
    (∃ set, common node x held = some set ∧ Q set) ↔
      held ≠ [] ∧ ∀ part ∈ held, ∃ s, part = some s ∧ Q s := by
  constructor
  · rintro ⟨set, hset, hq⟩
    unfold common at hset
    split at hset
    · next hheld =>
      obtain ⟨rfl, -⟩ := MatchSet.kept_eq_some_iff.1 hset
      refine ⟨hheld.1, fun part hpart => ?_⟩
      obtain ⟨s, rfl⟩ := Option.isSome_iff_exists.1 (List.all_eq_true.1 hheld.2 part hpart)
      exact ⟨s, rfl, hQ.meet.1 hq s (List.mem_filterMap.2 ⟨some s, hpart, rfl⟩)⟩
    · cases hset
  · rintro ⟨hne, hall⟩
    have hsome : held.all Option.isSome = true := by
      apply List.all_eq_true.2
      intro part hpart
      obtain ⟨s, rfl, -⟩ := hall part hpart
      rfl
    have hq : Q (MatchSet.intersect x node (held.filterMap id)) := by
      apply hQ.meet.2
      intro s hs
      obtain ⟨part, hpart, rfl⟩ := List.mem_filterMap.1 hs
      obtain ⟨s', heq, hs'⟩ := hall _ hpart
      cases heq
      exact hs'
    exact ⟨_, by rw [common, if_pos ⟨hne, hsome⟩, hQ.kept hq], hq⟩

/-- What some parts hold together has a property of this kind if one of them holds a set that
    does. -/
theorem exists_pooled_iff (hQ : MatchSet.Setwise Q) :
    (∃ set, pooled node x held = some set ∧ Q set) ↔ ∃ s, some s ∈ held ∧ Q s := by
  constructor
  · rintro ⟨set, hset, hq⟩
    obtain ⟨rfl, -⟩ := MatchSet.kept_eq_some_iff.1 hset
    obtain ⟨s, hs, hq⟩ := hQ.join.1 hq
    obtain ⟨part, hpart, rfl⟩ := List.mem_filterMap.1 hs
    exact ⟨s, hpart, hq⟩
  · rintro ⟨s, hs, hq⟩
    have hunion : Q (MatchSet.unite x node (held.filterMap id)) :=
      hQ.join.2 ⟨s, List.mem_filterMap.2 ⟨some s, hs, rfl⟩, hq⟩
    exact ⟨_, hQ.kept hunion, hunion⟩

theorem eq_of_common (h : common node x held = some set) :
    held.all Option.isSome = true ∧ set = MatchSet.intersect x node (held.filterMap id) := by
  unfold common at h
  split at h
  · next hheld => exact ⟨hheld.2, (MatchSet.kept_eq_some_iff.1 h).1⟩
  · cases h

theorem eq_of_pooled (h : pooled node x held = some set) :
    set = MatchSet.unite x node (held.filterMap id) :=
  (MatchSet.kept_eq_some_iff.1 h).1

end Setwise

/-! ## Clean traces -/

/-- A trace that ascends and does not fail. -/
structure Clean (t : Trace) : Prop where
  ascending : t.Ascending
  sound : t.fault = none

/-- Clean traces that hold the same sets are the same. -/
theorem Clean.ext {s t : Trace} (hs : s.Clean) (ht : t.Clean) (h : ∀ x, s.at? x = t.at? x) :
    s = t := by
  have hentries := entries_ext hs.ascending ht.ascending h
  have hfault := hs.sound.trans ht.sound.symm
  cases s
  cases t
  cases hentries
  cases hfault
  rfl

theorem clean_stop : (stop none).Clean := ⟨ascending_stop none, rfl⟩

theorem clean_meet (h : ∀ t ∈ parts, t.Clean) : (meet node parts).Clean := by
  have hmeet := ascending_meet node fun t ht => (h t ht).ascending
  exact ⟨hmeet.1, hmeet.2 fun t ht => (h t ht).sound⟩

theorem clean_join (h : ∀ t ∈ parts, t.Clean) : (join node parts).Clean := by
  have hjoin := ascending_join node fun t ht => (h t ht).ascending
  exact ⟨hjoin.1, hjoin.2 fun t ht => (h t ht).sound⟩

theorem Clean.mapSets (h : t.Clean) (f : MatchSet → MatchSet) : (t.mapSets f).Clean :=
  ⟨List.pairwise_map.2 h.ascending, h.sound⟩

theorem at?_mapSets (f : MatchSet → MatchSet) (t : Trace) :
    (t.mapSets f).at? x = (t.at? x).map f := by
  simp only [at?, Trace.mapSets, List.find?_map, Option.map_map]
  rfl

end ShardSearch.Trace
