import Mathlib.Data.List.Fold
import Mathlib.Data.List.Forall2
import Mathlib.Data.List.Perm.Basic
import ShardSearch.Proofs.Shards
import ShardSearch.Proofs.StreamTrace

/-!
# What composites are made of

Each way of making an intersection or a union, with the trace, the context and the pruning of what
is made in terms of the children it is made of.
-/

namespace List.Forall₂

variable {α β γ : Type} {R : α → β → Prop} {xs : List α} {ys : List β}

theorem exists_of_mem_left (h : Forall₂ R xs ys) {x : α} (hx : x ∈ xs) : ∃ y ∈ ys, R x y := by
  induction h with
  | nil => cases hx
  | cons hhead _ ih =>
    rcases List.mem_cons.1 hx with rfl | hx
    · exact ⟨_, List.mem_cons_self, hhead⟩
    · obtain ⟨y, hy, hxy⟩ := ih hx
      exact ⟨y, List.mem_cons_of_mem _ hy, hxy⟩

theorem exists_of_mem_right (h : Forall₂ R xs ys) {y : β} (hy : y ∈ ys) : ∃ x ∈ xs, R x y :=
  h.flip.exists_of_mem_left hy

theorem map_congr (h : Forall₂ R xs ys) {f : α → γ} {g : β → γ} (hfg : ∀ x y, R x y → f x = g y) :
    xs.map f = ys.map g := by
  induction h with
  | nil => rfl
  | cons hhead _ ih => rw [List.map_cons, List.map_cons, hfg _ _ hhead, ih]

theorem any_congr (h : Forall₂ R xs ys) {p : α → Bool} {q : β → Bool}
    (hpq : ∀ x y, R x y → p x = q y) : xs.any p = ys.any q := by
  have hmap := congrArg (List.any · id) (h.map_congr hpq)
  simpa only [List.any_map, Function.id_comp] using hmap

theorem all_congr (h : Forall₂ R xs ys) {p : α → Bool} {q : β → Bool}
    (hpq : ∀ x y, R x y → p x = q y) : xs.all p = ys.all q := by
  have hmap := congrArg (List.all · id) (h.map_congr hpq)
  simpa only [List.all_map, Function.id_comp] using hmap

theorem filterMap_congr (h : Forall₂ R xs ys) {f : α → Option γ} {g : β → Option γ}
    (hfg : ∀ x y, R x y → f x = g y) : xs.filterMap f = ys.filterMap g := by
  have hmap := congrArg (List.filterMap id) (h.map_congr hfg)
  simpa only [List.filterMap_map, Function.id_comp] using hmap

theorem flatMap_congr (h : Forall₂ R xs ys) {f : α → List γ} {g : β → List γ}
    (hfg : ∀ x y, R x y → f x = g y) : xs.flatMap f = ys.flatMap g := by
  rw [List.flatMap_def, List.flatMap_def, h.map_congr hfg]

theorem isEmpty_congr (h : Forall₂ R xs ys) : xs.isEmpty = ys.isEmpty := by
  cases h <;> rfl

theorem filter_congr (h : Forall₂ R xs ys) {p : α → Bool} {q : β → Bool}
    (hpq : ∀ x y, R x y → p x = q y) : Forall₂ R (xs.filter p) (ys.filter q) :=
  List.rel_filter (fun x y hxy => by simp only [hpq x y hxy]) h

end List.Forall₂

namespace ShardSearch

namespace Context

theorem weaker_comm (a b : Context) : a.weaker b = b.weaker a := by
  cases a <;> cases b <;> rfl

theorem weaker_assoc (a b c : Context) : (a.weaker b).weaker c = a.weaker (b.weaker c) := by
  cases a <;> cases b <;> cases c <;> rfl

instance : Std.Commutative weaker := ⟨weaker_comm⟩

instance : Std.Associative weaker := ⟨weaker_assoc⟩

@[simp] theorem absent_weaker (c : Context) : absent.weaker c = c := rfl

theorem weaker_eq_absent_iff {a b : Context} : a.weaker b = absent ↔ a = absent ∧ b = absent := by
  cases a <;> cases b <;> decide

theorem foldr_weaker_filter (cs : List Context) :
    (cs.filter (· ≠ absent)).foldr weaker absent = cs.foldr weaker absent := by
  induction cs with
  | nil => rfl
  | cons c cs ih =>
    rw [List.filter_cons, List.foldr_cons, ← ih]
    by_cases hc : c = absent <;> simp [hc]

theorem foldr_weaker_append (cs cs' : List Context) :
    (cs ++ cs').foldr weaker absent =
      (cs.foldr weaker absent).weaker (cs'.foldr weaker absent) := by
  induction cs with
  | nil => rfl
  | cons c cs ih => rw [List.cons_append, List.foldr_cons, List.foldr_cons, ih, weaker_assoc]

theorem foldr_weaker_eq_absent_iff {cs : List Context} :
    cs.foldr weaker absent = absent ↔ ∀ c ∈ cs, c = absent := by
  induction cs with
  | nil => simp
  | cons c cs ih => rw [List.foldr_cons, weaker_eq_absent_iff, ih, List.forall_mem_cons]

/-- The weakest of some contexts, where `absent` is weaker than none. -/
theorem getD_weakest (cs : List Context) : (weakest cs).getD absent = cs.foldr weaker absent := by
  rw [← foldr_weaker_filter, weakest]
  cases cs.filter (· ≠ absent) with
  | nil => rfl
  | cons c rest =>
    show rest.foldl weaker c = (c :: rest).foldr weaker absent
    rw [← List.foldl_eq_foldr, List.foldl_cons, absent_weaker]

end Context

namespace Stream

variable {node : Option NodeId} {children : List Stream} {s : Stream}

theorem contextOf_eq_foldr (parts : List Stream) :
    contextOf parts = (parts.map context).foldr Context.weaker .absent :=
  Context.getD_weakest _

@[simp] theorem contextOf_nil : contextOf ([] : List Stream) = .absent := rfl

@[simp] theorem contextOf_cons (part : Stream) (parts : List Stream) :
    contextOf (part :: parts) = part.context.weaker (contextOf parts) := by
  simp [contextOf_eq_foldr]

theorem contextOf_append (parts parts' : List Stream) :
    contextOf (parts ++ parts') = (contextOf parts).weaker (contextOf parts') := by
  simp only [contextOf_eq_foldr, List.map_append, Context.foldr_weaker_append]

theorem contextOf_perm {parts parts' : List Stream} (h : parts.Perm parts') :
    contextOf parts = contextOf parts' := by
  rw [contextOf_eq_foldr, contextOf_eq_foldr, (h.map context).foldr_eq]

theorem contextOf_eq_absent_iff {parts : List Stream} :
    contextOf parts = .absent ↔ ∀ c ∈ parts, c.context = .absent := by
  rw [contextOf_eq_foldr, Context.foldr_weaker_eq_absent_iff, List.forall_mem_map]

/-- Absent parts have no say in the context of the others. -/
theorem contextOf_filter_present (parts : List Stream) :
    contextOf (parts.filter (·.context ≠ .absent)) = contextOf parts := by
  rw [contextOf_eq_foldr, contextOf_eq_foldr, ← Context.foldr_weaker_filter (parts.map context),
    List.filter_map]
  rfl

/-- The ways an intersection is made. -/
inductive IntersectCase (node : Option NodeId) (children : List Stream) : Stream → Prop where
  /-- An absent child leaves nothing. -/
  | absent (child : Stream) (mem : child ∈ children) (absent : child.context = .absent) :
      IntersectCase node children (intersection node .absent [] children .ended)
  /-- Children that can prune are read, the others put off. -/
  | present (present : ∀ child ∈ children, child.context ≠ .absent) :
      IntersectCase node children
        (intersection node
          (contextOf (children.filter canPrune ++ children.filter (!·.canPrune)))
          (children.filter canPrune) (children.filter (!·.canPrune))
          (firstHead (children.filter canPrune)))

theorem intersect_cases (h : intersect node children = .ok s) :
    2 ≤ children.length ∧ IntersectCase node children s := by
  unfold intersect at h
  split at h
  · cases h
  · next hlen =>
    refine ⟨Nat.le_of_not_lt hlen, ?_⟩
    split at h
    · next hany =>
      obtain ⟨child, hmem, habsent⟩ := List.any_eq_true.1 hany
      cases h
      exact .absent child hmem (of_decide_eq_true habsent)
    · next hany =>
      cases h
      refine .present fun child hmem habsent => hany ?_
      exact List.any_eq_true.2 ⟨child, hmem, decide_eq_true habsent⟩

theorem intersect_isOk (node : Option NodeId) (h : 2 ≤ children.length) :
    ∃ s, intersect node children = .ok s := by
  unfold intersect
  rw [if_neg (Nat.not_lt.2 h)]
  split <;> exact ⟨_, rfl⟩

theorem unite_eq (node : Option NodeId) (h : 2 ≤ children.length) :
    unite node children = .ok
      (union node (contextOf (children.filter (·.context ≠ .absent)))
        (!(children.filter (·.context ≠ .absent)).isEmpty &&
          (children.filter (·.context ≠ .absent)).all canPrune)
        (children.filter (·.context ≠ .absent))
        (firstHead (children.filter (·.context ≠ .absent)))) := by
  unfold unite
  rw [if_neg (Nat.not_lt.2 h)]

theorem unite_isOk (node : Option NodeId) (h : 2 ≤ children.length) :
    ∃ s, unite node children = .ok s :=
  ⟨_, unite_eq node h⟩

theorem unite_eq_ok (h : unite node children = .ok s) :
    2 ≤ children.length ∧
      s = union node (contextOf (children.filter (·.context ≠ .absent)))
        (!(children.filter (·.context ≠ .absent)).isEmpty &&
          (children.filter (·.context ≠ .absent)).all canPrune)
        (children.filter (·.context ≠ .absent))
        (firstHead (children.filter (·.context ≠ .absent))) := by
  by_cases hlen : children.length < 2
  · unfold unite at h
    rw [if_pos hlen] at h
    cases h
  · rw [unite_eq node (Nat.le_of_not_lt hlen)] at h
    cases h
    exact ⟨Nat.le_of_not_lt hlen, rfl⟩

/-! ## Traces -/

theorem before_firstHead {parts : List Stream} {t : Trace} (h : parts = [] → t = Trace.stop none) :
    (firstHead parts).before t = t := by
  cases parts with
  | nil => exact (h rfl).symm
  | cons c cs => rfl

theorem trace_intersection_firstHead (context : Context) (filters deferred : List Stream) :
    (intersection node context filters deferred (firstHead filters)).trace =
      Trace.meet node (filters.map trace) := by
  rw [trace, traceAll_eq_map]
  apply before_firstHead
  rintro rfl
  rfl

theorem trace_union_firstHead (context : Context) (prunes : Bool) (sources : List Stream) :
    (union node context prunes sources (firstHead sources)).trace =
      Trace.join node (sources.map trace) := by
  rw [trace, traceAll_eq_map]
  apply before_firstHead
  rintro rfl
  rfl

/-- An intersection with an absent child yields nothing, and any other what the children that can
    prune have in common. -/
theorem trace_intersect (h : intersect node children = .ok s) :
    s.trace =
      if children.any (·.context = .absent) then Trace.stop none
      else Trace.meet node ((children.filter canPrune).map trace) := by
  obtain ⟨-, hcase⟩ := intersect_cases h
  cases hcase with
  | absent child hmem habsent =>
    rw [if_pos (List.any_eq_true.2 ⟨child, hmem, decide_eq_true habsent⟩)]
    rfl
  | present hpresent =>
    have hany : ¬ children.any (·.context = .absent) = true := by
      intro hany
      obtain ⟨child, hmem, habsent⟩ := List.any_eq_true.1 hany
      exact hpresent child hmem (of_decide_eq_true habsent)
    rw [if_neg hany, trace_intersection_firstHead]

/-- A union yields what its children that are not absent hold together. -/
theorem trace_unite (h : unite node children = .ok s) :
    s.trace = Trace.join node ((children.filter (·.context ≠ .absent)).map trace) := by
  obtain ⟨-, rfl⟩ := unite_eq_ok h
  rw [trace_union_firstHead]

theorem clean_map_trace {p : Stream → Bool} (h : ∀ child ∈ children, child.trace.Clean) :
    ∀ t ∈ (children.filter p).map trace, t.Clean := by
  intro t ht
  obtain ⟨child, hchild, rfl⟩ := List.mem_map.1 ht
  exact h child (List.mem_of_mem_filter hchild)

theorem clean_of_forall₂ {α : Type} {R : α → Stream → Prop} {xs : List α}
    (h : List.Forall₂ R xs children) (hclean : ∀ x s, R x s → s.trace.Clean) :
    ∀ child ∈ children, child.trace.Clean := by
  intro child hchild
  obtain ⟨x, -, hx⟩ := h.exists_of_mem_right hchild
  exact hclean x child hx

theorem clean_intersect (h : intersect node children = .ok s)
    (hclean : ∀ child ∈ children, child.trace.Clean) : s.trace.Clean := by
  rw [trace_intersect h]
  split
  · exact Trace.clean_stop
  · exact Trace.clean_meet (clean_map_trace hclean)

theorem clean_unite (h : unite node children = .ok s)
    (hclean : ∀ child ∈ children, child.trace.Clean) : s.trace.Clean := by
  rw [trace_unite h]
  exact Trace.clean_join (clean_map_trace hclean)

/-- An intersection holds at a shard what the children that can prune have in common there. -/
theorem at?_intersect {x : String} (h : intersect node children = .ok s)
    (hclean : ∀ child ∈ children, child.trace.Clean) :
    s.trace.at? x =
      if children.any (·.context = .absent) then none
      else Trace.common node x ((children.filter canPrune).map (·.trace.at? x)) := by
  rw [trace_intersect h]
  split
  · rfl
  · rw [Trace.at?_meet fun t ht => (clean_map_trace hclean t ht).ascending, List.map_map]
    rfl

/-- A union holds at a shard what the children that are not absent hold there together. -/
theorem at?_unite {x : String} (h : unite node children = .ok s)
    (hclean : ∀ child ∈ children, child.trace.Clean) :
    s.trace.at? x =
      Trace.pooled node x ((children.filter (·.context ≠ .absent)).map (·.trace.at? x)) := by
  rw [trace_unite h, Trace.at?_join (fun t ht => (clean_map_trace hclean t ht).ascending)
    fun t ht => (clean_map_trace hclean t ht).sound, List.map_map]
  rfl

/-- What an intersection holds at a shard is made of sets of all the children that can prune. -/
theorem of_at?_intersect {x : String} {set : MatchSet} (h : intersect node children = .ok s)
    (hclean : ∀ child ∈ children, child.trace.Clean) (hset : s.trace.at? x = some set) :
    (∀ child ∈ children, child.context ≠ .absent) ∧
      (∀ child ∈ children, child.canPrune = true → (child.trace.at? x).isSome) ∧
        set = MatchSet.intersect x node
          ((children.filter canPrune).filterMap (·.trace.at? x)) := by
  rw [at?_intersect h hclean] at hset
  split at hset
  · cases hset
  · next hany =>
    obtain ⟨hall, hset⟩ := Trace.eq_of_common hset
    rw [List.filterMap_map] at hset
    refine ⟨by simpa using hany, ?_, hset⟩
    intro child hchild hprunes
    have hmem := List.mem_filter.2 ⟨hchild, hprunes⟩
    exact List.all_eq_true.1 hall _ (List.mem_map_of_mem hmem)

/-- What a union holds at a shard is made of the sets of the children that are not absent. -/
theorem of_at?_unite {x : String} {set : MatchSet} (h : unite node children = .ok s)
    (hclean : ∀ child ∈ children, child.trace.Clean) (hset : s.trace.at? x = some set) :
    set = MatchSet.unite x node
      ((children.filter (·.context ≠ .absent)).filterMap (·.trace.at? x)) := by
  rw [at?_unite h hclean] at hset
  rw [Trace.eq_of_pooled hset, List.filterMap_map]
  rfl

/-! ## Contexts and pruning -/

/-- The context of an intersection is absent if one of its children is, and otherwise the weakest
    among its children. -/
theorem context_intersect_eq (h : intersect node children = .ok s) :
    s.context =
      if children.any (·.context = .absent) then .absent else contextOf children := by
  obtain ⟨-, hcase⟩ := intersect_cases h
  cases hcase with
  | absent child hmem habsent =>
    rw [if_pos (List.any_eq_true.2 ⟨child, hmem, decide_eq_true habsent⟩)]
    rfl
  | present hpresent =>
    rw [if_neg (by simpa using hpresent)]
    exact contextOf_perm (List.filter_append_perm canPrune children)

theorem context_intersect (h : intersect node children = .ok s) :
    s.context = .absent ↔ ∃ child ∈ children, child.context = .absent := by
  have hlen := (intersect_cases h).1
  rw [context_intersect_eq h]
  by_cases hany : children.any (·.context = .absent) = true
  · rw [if_pos hany]
    exact ⟨fun _ => by simpa using hany, fun _ => rfl⟩
  · rw [if_neg hany, contextOf_eq_absent_iff]
    refine ⟨fun hall => ?_, fun hsome => absurd (by simpa using hsome) hany⟩
    obtain ⟨child, hmem⟩ := List.exists_mem_of_length_pos (Nat.lt_of_lt_of_le Nat.two_pos hlen)
    exact ⟨child, hmem, hall child hmem⟩

theorem canPrune_intersect (h : intersect node children = .ok s) :
    s.canPrune =
      (!children.any (·.context = .absent) && !(children.filter canPrune).isEmpty) := by
  obtain ⟨-, hcase⟩ := intersect_cases h
  cases hcase with
  | absent child hmem habsent =>
    rw [List.any_eq_true.2 ⟨child, hmem, decide_eq_true habsent⟩]
    rfl
  | present hpresent =>
    have hany : children.any (·.context = .absent) = false := by
      simpa using hpresent
    rw [hany]
    rfl

/-- The context of a union is the weakest among its children. -/
theorem context_unite_eq (h : unite node children = .ok s) : s.context = contextOf children := by
  obtain ⟨-, rfl⟩ := unite_eq_ok h
  exact contextOf_filter_present children

theorem context_unite (h : unite node children = .ok s) :
    s.context = .absent ↔ ∀ child ∈ children, child.context = .absent := by
  rw [context_unite_eq h, contextOf_eq_absent_iff]

theorem canPrune_unite (h : unite node children = .ok s) :
    s.canPrune = (!(children.filter (·.context ≠ .absent)).isEmpty &&
          (children.filter (·.context ≠ .absent)).all canPrune) := by
  obtain ⟨-, rfl⟩ := unite_eq_ok h
  rfl

/-- An intersection prunes if none of its children is absent and some child prunes. -/
theorem canPrune_intersect_iff (h : intersect node children = .ok s) :
    s.canPrune = true ↔
      (∀ child ∈ children, child.context ≠ .absent) ∧ ∃ child ∈ children, child.canPrune := by
  simp [canPrune_intersect h]

/-- A union prunes if all its children that are not absent do, and there are such. -/
theorem canPrune_unite_iff (h : unite node children = .ok s) :
    s.canPrune = true ↔
      (∃ child ∈ children, child.context ≠ .absent) ∧
        ∀ child ∈ children, child.context ≠ .absent → child.canPrune := by
  simp [canPrune_unite h, or_iff_not_imp_left]

/-! ## What is held at a shard -/

/-- The stream holds a set at a shard, and the set has a property. -/
def HoldsAt (Q : MatchSet → Prop) (x : String) (s : Stream) : Prop :=
  ∃ set, s.trace.at? x = some set ∧ Q set

/-- An intersection that prunes holds what all of its children that prune hold. -/
theorem holdsAt_intersect {x : String} {Q : MatchSet → Prop} (hQ : MatchSet.Setwise Q)
    (h : intersect node children = .ok s) (hclean : ∀ child ∈ children, child.trace.Clean) :
    s.HoldsAt Q x ↔
      s.canPrune = true ∧ ∀ child ∈ children, child.canPrune = true → child.HoldsAt Q x := by
  unfold HoldsAt
  rw [at?_intersect h hclean, canPrune_intersect h]
  by_cases hany : children.any (·.context = .absent) = true
  · simp [hany]
  · rw [if_neg hany, Trace.exists_common_iff hQ, List.forall_mem_map]
    simp [hany]

/-- A union holds what some child holds that is not absent. -/
theorem holdsAt_unite {x : String} {Q : MatchSet → Prop} (hQ : MatchSet.Setwise Q)
    (h : unite node children = .ok s) (hclean : ∀ child ∈ children, child.trace.Clean) :
    s.HoldsAt Q x ↔ ∃ child ∈ children, child.context ≠ .absent ∧ child.HoldsAt Q x := by
  unfold HoldsAt
  rw [at?_unite h hclean, Trace.exists_pooled_iff hQ]
  simp only [List.mem_map, List.mem_filter, decide_eq_true_iff]
  constructor
  · rintro ⟨set, ⟨child, ⟨hchild, hpresent⟩, hset⟩, hq⟩
    exact ⟨child, hchild, hpresent, set, hset, hq⟩
  · rintro ⟨child, hchild, hpresent, set, hset, hq⟩
    exact ⟨set, ⟨child, ⟨hchild, hpresent⟩, hset⟩, hq⟩

/-! ## Nodes put off -/

theorem node_intersect (h : intersect node children = .ok s) : s.node = node := by
  obtain ⟨-, hcase⟩ := intersect_cases h
  cases hcase <;> rfl

theorem node_unite (h : unite node children = .ok s) : s.node = node := by
  obtain ⟨-, rfl⟩ := unite_eq_ok h
  rfl

/-- An intersection puts off the children that cannot prune, and what the others put off. -/
theorem deferredNodes_intersect (h : intersect node children = .ok s)
    (hpresent : ∀ child ∈ children, child.context ≠ .absent) :
    s.deferredNodes = (children.filter (!·.canPrune)).filterMap Stream.node ++
      (children.filter canPrune).flatMap deferredNodes := by
  have hcontext : s.context ≠ .absent := by
    intro habsent
    obtain ⟨child, hchild, habsent'⟩ := (context_intersect h).1 habsent
    exact hpresent child hchild habsent'
  obtain ⟨-, hcase⟩ := intersect_cases h
  cases hcase with
  | absent child hchild habsent => exact absurd habsent (hpresent child hchild)
  | present =>
    rw [context] at hcontext
    rw [deferredNodes, if_neg hcontext, deferredNodesAll_eq_flatMap]

/-- An absent intersection puts nothing off. -/
theorem deferredNodes_of_absent (h : intersect node children = .ok s)
    (habsent : s.context = .absent) :
    s.deferredNodes = [] := by
  obtain ⟨-, hcase⟩ := intersect_cases h
  cases hcase <;>
  · rw [context] at habsent
    rw [deferredNodes, if_pos habsent]

theorem deferredNodes_unite (h : unite node children = .ok s) :
    s.deferredNodes = (children.filter (·.context ≠ .absent)).flatMap deferredNodes := by
  obtain ⟨-, rfl⟩ := unite_eq_ok h
  rw [deferredNodes, deferredNodesAll_eq_flatMap]

end Stream

end ShardSearch
