import Mathlib.Data.List.Chain
import Mathlib.Logic.Relation
import Mathlib.Order.Bounds.Defs
import ShardSearch.Predicate.View
import ShardSearch.Proofs.Meaning

/-!
# What lies below a node

A child comes before its parent, so going down from a node comes to an end.  Hence the depth and
the text of a node obey their recursions without any bound on the levels (`depth_of_node`,
`describe_of_node`), the search for fields ends, however often nodes are shared, and both results
are what can be said of the nodes below without any order of looking at them
(`fields_depth_below`).
-/

namespace ShardSearch.PredicateTree

variable {t : PredicateTree} {id : NodeId} {p : Predicate}

/-! ## Reading a tree from below -/

/-- A way of reading a tree from below: what is said of a name without a node, and what is said of
    a node, given what is said of its children. -/
structure Reading (β : Type) where
  missing : NodeId → β
  clause : Predicate → (NodeId → β) → β
  /-- Only the children matter. -/
  clause_congr : ∀ {p : Predicate} {below below' : NodeId → β},
    (∀ child ∈ p.children, below child = below' child) → clause p below = clause p below'

namespace Reading

variable {β : Type} (r : Reading β)

/-- What is said of a node, looking at `levels` levels at most. -/
def within (t : PredicateTree) : (levels : Nat) → NodeId → β
  | 0, id => r.missing id
  | n + 1, id =>
    match t.predicate? id with
    | none => r.missing id
    | some p => r.clause p (within t n)

/-- What is said of a node. -/
def of (t : PredicateTree) (id : NodeId) : β := r.within t t.size id

variable {r}

/-- Looking at more levels than there are below a node makes no difference. -/
theorem within_eq (ht : t.Ordered) {n m : Nat} (hn : id.index < n) (hm : id.index < m) :
    r.within t n id = r.within t m id := by
  induction n generalizing id m with
  | zero => omega
  | succ n ih =>
    cases m with
    | zero => omega
    | succ m =>
      rw [within, within]
      cases hp : t.predicate? id with
      | none => rfl
      | some p =>
        apply r.clause_congr
        intro child hchild
        have hbefore := ht id p hp child hchild
        exact ih (by omega) (by omega)

theorem of_missing (h : t.predicate? id = none) : r.of t id = r.missing id := by
  rw [of]
  cases t.size with
  | zero => rfl
  | succ n => rw [within, h]

/-- A node is read by its clause over its children, without a bound. -/
theorem of_node (ht : t.Ordered) (h : t.predicate? id = some p) :
    r.of t id = r.clause p (r.of t) := by
  have hlt := index_lt_size h
  have hstep : r.of t id = r.within t (t.size + 1) id := within_eq ht hlt (by omega)
  rw [hstep, within, h]
  rfl

end Reading

/-- The depth of a node is one more than the greatest depth of a child. -/
def depthReading : Reading Nat where
  missing := fun _ => 0
  clause := fun p below => 1 + (p.children.map below).foldl max 0
  clause_congr := fun h => by rw [List.map_congr_left h]

/-- The text of a node is put together from the texts of its children. -/
def describeReading : Reading String where
  missing := missingText
  clause := fun p below =>
    match p with
    | .term field value => termText field value
    | .and children => "(" ++ " && ".intercalate (children.map below) ++ ")"
    | .or children => "(" ++ " || ".intercalate (children.map below) ++ ")"
    | .not child => "!(" ++ below child ++ ")"
    | .delayed child => "delayed(" ++ below child ++ ")"
  clause_congr := by
    intro p below below' h
    cases p with
    | term field value => rfl
    | and children | or children =>
      have hmap : children.map below = children.map below' := List.map_congr_left h
      simp only [hmap]
    | not child | delayed child =>
      simp only [h child (List.mem_singleton.2 rfl)]

theorem depth_eq (t : PredicateTree) (id : NodeId) : t.depth id = depthReading.of t id := by
  have hwithin : ∀ n, t.depthWithin n = depthReading.within t n := by
    intro n
    induction n with
    | zero => rfl
    | succ n ih =>
      funext id
      rw [depthWithin, Reading.within, ih, predicate?]
      cases t.node? id <;> rfl
  rw [depth, hwithin, Reading.of]

theorem describe_eq (t : PredicateTree) (id : NodeId) :
    t.describe id = describeReading.of t id := by
  have hwithin : ∀ n, t.describeWithin n = describeReading.within t n := by
    intro n
    induction n with
    | zero => rfl
    | succ n ih =>
      funext id
      rw [describeWithin, Reading.within, ih, predicate?]
      cases t.node? id <;> rfl
  rw [describe, hwithin, Reading.of]

theorem depth_of_missing (h : t.predicate? id = none) : t.depth id = 0 := by
  rw [depth_eq, Reading.of_missing h]
  rfl

theorem depth_of_node (ht : t.Ordered) (h : t.predicate? id = some p) :
    t.depth id = 1 + (p.children.map t.depth).max?.getD 0 := by
  have hdepth : depthReading.of t = t.depth := funext fun child => (depth_eq t child).symm
  rw [depth_eq, Reading.of_node ht h, hdepth]
  show 1 + (p.children.map t.depth).foldl max 0 = _
  rw [List.foldl_max, Nat.zero_max]

/-- The text of a node obeys its recursion, however deep the tree is. -/
theorem describe_of_node (ht : t.Ordered) (h : t.predicate? id = some p) :
    t.describe id = describeReading.clause p t.describe := by
  have hdescribe : describeReading.of t = t.describe :=
    funext fun child => (describe_eq t child).symm
  rw [describe_eq, Reading.of_node ht h, hdescribe]

/-! ## Going down -/

/-- A node is made over another. -/
def Child (t : PredicateTree) (id child : NodeId) : Prop :=
  ∃ p, t.predicate? id = some p ∧ child ∈ p.children

/-- A node can be reached by going down, in any number of steps or none. -/
def Below (t : PredicateTree) : NodeId → NodeId → Prop := Relation.ReflTransGen t.Child

/-- Some term that asks for the field lies below. -/
def FieldBelow (t : PredicateTree) (id : NodeId) (field : String) : Prop :=
  ∃ below value, t.Below id below ∧ t.predicate? below = some (.term field value)

/-- A way down: nodes of the tree, each a child of the one before. -/
structure IsDescent (t : PredicateTree) (path : List NodeId) : Prop where
  known : ∀ id ∈ path, t.contains id = true
  steps : path.IsChain t.Child

theorem contains_eq_false_iff : t.contains id = false ↔ t.predicate? id = none := by
  rw [← Bool.not_eq_true, contains_iff_exists, Option.eq_none_iff_forall_ne_some]
  simp

theorem Ordered.contains_child (ht : t.Ordered) (h : t.predicate? id = some p) {child : NodeId}
    (hchild : child ∈ p.children) : t.contains child = true :=
  decide_eq_true (Nat.lt_trans (ht id p h child hchild) (index_lt_size h))

/-- What lies below a node is the node itself and what lies below its children. -/
theorem below_iff (h : t.predicate? id = some p) {id' : NodeId} :
    t.Below id id' ↔ id' = id ∨ ∃ child ∈ p.children, t.Below child id' := by
  rw [Below, Relation.ReflTransGen.cases_head_iff]
  constructor
  · rintro (rfl | ⟨child, ⟨p', hp', hchild⟩, hbelow⟩)
    · exact .inl rfl
    · rw [h] at hp'
      cases hp'
      exact .inr ⟨child, hchild, hbelow⟩
  · rintro (rfl | ⟨child, hchild, hbelow⟩)
    · exact .inl rfl
    · exact .inr ⟨child, ⟨p, h, hchild⟩, hbelow⟩

theorem below_iff_of_missing (h : t.predicate? id = none) {id' : NodeId} :
    t.Below id id' ↔ id' = id := by
  rw [Below, Relation.ReflTransGen.cases_head_iff]
  constructor
  · rintro (rfl | ⟨child, ⟨p, hp, -⟩, -⟩)
    · rfl
    · rw [h] at hp
      cases hp
  · rintro rfl
    exact .inl rfl

theorem fieldBelow_iff (h : t.predicate? id = some p) {field : String} :
    t.FieldBelow id field ↔
      p.field? = some field ∨ ∃ child ∈ p.children, t.FieldBelow child field := by
  constructor
  · rintro ⟨below, value, hbelow, hterm⟩
    rcases (below_iff h).1 hbelow with rfl | ⟨child, hchild, hbelow⟩
    · rw [h] at hterm
      cases hterm
      exact .inl rfl
    · exact .inr ⟨child, hchild, below, value, hbelow, hterm⟩
  · rintro (hfield | ⟨child, hchild, below, value, hbelow, hterm⟩)
    · cases p with
      | term field' value =>
        cases hfield
        exact ⟨id, value, .refl, h⟩
      | and | or | not | delayed => cases hfield
    · exact ⟨below, value, (below_iff h).2 (.inr ⟨child, hchild, hbelow⟩), hterm⟩

theorem not_fieldBelow_of_missing (h : t.predicate? id = none) (field : String) :
    ¬ t.FieldBelow id field := by
  rintro ⟨below, value, hbelow, hterm⟩
  rw [(below_iff_of_missing h).1 hbelow, h] at hterm
  cases hterm

/-! ## The longest way down -/

/-- No way down from a node has more nodes than its depth says. -/
theorem IsDescent.length_le (ht : t.Ordered) {path : List NodeId}
    (h : t.IsDescent (id :: path)) : (id :: path).length ≤ t.depth id := by
  induction path generalizing id with
  | nil =>
    obtain ⟨p, hp⟩ := contains_iff_exists.1 (h.known id List.mem_cons_self)
    rw [depth_of_node ht hp]
    exact Nat.le_add_right 1 _
  | cons child path ih =>
    obtain ⟨⟨p, hp, hchild⟩, hsteps⟩ := List.isChain_cons_cons.1 h.steps
    have hrest := ih ⟨fun n hn => h.known n (List.mem_cons_of_mem _ hn), hsteps⟩
    have hmax : t.depth child ≤ (p.children.map t.depth).max?.getD 0 :=
      List.le_max?_getD_of_mem (List.mem_map_of_mem hchild)
    rw [depth_of_node ht hp]
    simp only [List.length_cons] at hrest ⊢
    omega

/-- Some way down from a node has as many nodes as its depth says. -/
theorem exists_descent (ht : t.Ordered) (h : t.contains id = true) :
    ∃ path, t.IsDescent (id :: path) ∧ (id :: path).length = t.depth id := by
  induction hn : id.index using Nat.strongRecOn generalizing id with
  | ind n ih =>
    obtain ⟨p, hp⟩ := contains_iff_exists.1 h
    have hdepth := depth_of_node ht hp
    cases hmax : (p.children.map t.depth).max? with
    | none =>
      rw [hmax] at hdepth
      exact ⟨[], ⟨by simpa using h, .singleton id⟩, hdepth.symm⟩
    | some m =>
      obtain ⟨child, hchild, rfl⟩ := List.mem_map.1 (List.max?_mem hmax)
      obtain ⟨path, hpath, hlength⟩ :=
        ih child.index (hn ▸ ht id p hp child hchild) (ht.contains_child hp hchild) rfl
      refine ⟨child :: path, ⟨List.forall_mem_cons.2 ⟨h, hpath.known⟩, ?_⟩, ?_⟩
      · exact List.isChain_cons_cons.2 ⟨⟨p, hp, hchild⟩, hpath.steps⟩
      · rw [hdepth, hmax, List.length_cons, hlength]
        exact Nat.add_comm _ 1

/-! ## The search for fields -/

/-- A search takes up the nodes, and all that lies below them, before anything else that is
    pending, and has then found the fields below them in addition. -/
def TakesUp (t : PredicateTree) (ids : List NodeId) : Prop :=
  ∀ found pending, ∃ found', t.fieldsFrom found (ids ++ pending) = t.fieldsFrom found' pending ∧
    ∀ field, found'.contains field = true ↔
      found.contains field = true ∨ ∃ id ∈ ids, t.FieldBelow id field

theorem takesUp_of_forall {ids : List NodeId} (h : ∀ id ∈ ids, t.TakesUp [id]) :
    t.TakesUp ids := by
  induction ids with
  | nil => exact fun found pending => ⟨found, rfl, by simp⟩
  | cons id ids ih =>
    rw [List.forall_mem_cons] at h
    intro found pending
    obtain ⟨found₁, hfirst, hfound₁⟩ := h.1 found (ids ++ pending)
    obtain ⟨found₂, hrest, hfound₂⟩ := ih h.2 found₁ pending
    refine ⟨found₂, hfirst.trans hrest, fun field => ?_⟩
    rw [hfound₂, hfound₁]
    simp [or_assoc]

/-- A node that is taken up is done with in the end: its children come before it, so the search
    below each of them ends by induction, and there is nothing else to wait for. -/
theorem takesUp_node (ht : t.Ordered) (id : NodeId) : t.TakesUp [id] := by
  induction hn : id.index using Nat.strongRecOn generalizing id with
  | ind n ih =>
    intro found pending
    cases hnode : t.node? id with
    | none =>
      have hmissing : t.predicate? id = none := by rw [predicate?, hnode]; rfl
      refine ⟨found, ?_, fun field => ?_⟩
      · rw [List.singleton_append, fieldsFrom, hnode]
      · simp [not_fieldBelow_of_missing hmissing]
    | some node =>
      have hp : t.predicate? id = some node.predicate := by rw [predicate?, hnode]; rfl
      have hchildren : t.TakesUp node.predicate.children.reverse := by
        apply takesUp_of_forall
        intro child hchild
        have hbefore := ht id _ hp child (List.mem_reverse.1 hchild)
        exact ih child.index (hn ▸ hbefore) child rfl
      obtain ⟨found', hsearch, hfound'⟩ :=
        hchildren (node.predicate.field?.elim found (found.insert · ())) pending
      refine ⟨found', ?_, fun field => ?_⟩
      · rw [List.singleton_append, fieldsFrom, hnode]
        exact hsearch
      · rw [hfound']
        simp only [List.mem_reverse, List.mem_singleton, exists_eq_left, fieldBelow_iff hp]
        rw [← or_assoc]
        refine or_congr_left ?_
        cases node.predicate.field? with
        | none => simp
        | some field' =>
          rw [Option.elim_some, SortedMap.contains_insert, Bool.or_eq_true, beq_iff_eq, or_comm,
            Option.some.injEq]

/-- The search from a node ends and finds the fields of the terms below. -/
theorem exists_fieldsFrom (ht : t.Ordered) (id : NodeId) :
    ∃ found, t.fieldsFrom .empty [id] = some found ∧
      ∀ field, found.contains field = true ↔ t.FieldBelow id field := by
  obtain ⟨found, hsearch, hfound⟩ := takesUp_node ht id .empty []
  refine ⟨found, ?_, fun field => ?_⟩
  · rw [List.singleton_append] at hsearch
    rw [hsearch, fieldsFrom]
  · rw [hfound]
    simp [SortedMap.contains]

theorem mem_fields_iff (ht : t.Ordered) {field : String} :
    field ∈ t.fields id ↔ t.FieldBelow id field := by
  obtain ⟨found, hsearch, hfound⟩ := exists_fieldsFrom ht id
  rw [fields, hsearch, ← hfound]
  exact SortedMap.contains_iff_mem_keys.symm

/-- The search for the fields of a node ends.  Its answer lists, in ascending order, the fields of
    the terms that can be reached by going down from the node, and none for an unknown name.  The
    depth is the number of nodes on a longest way down, none for an unknown name and one for a
    composite of nothing. -/
theorem fields_depth_below (ht : t.Reachable) (id : NodeId) :
    (∃ found, t.fieldsFrom .empty [id] = some found ∧ t.fields id = found.keys) ∧
      (t.fields id).Pairwise (· < ·) ∧
      (∀ field, field ∈ t.fields id ↔
        ∃ below value, t.Below id below ∧ t.predicate? below = some (.term field value)) ∧
      (t.contains id = true →
        IsGreatest {n | ∃ path, t.IsDescent (id :: path) ∧ (id :: path).length = n}
          (t.depth id)) ∧
      (t.contains id = false → t.fields id = [] ∧ t.depth id = 0) ∧
      (t.predicate? id = some (.and []) ∨ t.predicate? id = some (.or []) → t.depth id = 1) := by
  refine ⟨?_, SortedMap.pairwise_keys _, fun field => mem_fields_iff ht.ordered, ?_, ?_, ?_⟩
  · obtain ⟨found, hsearch, -⟩ := exists_fieldsFrom ht.ordered id
    exact ⟨found, hsearch, by rw [fields, hsearch]; rfl⟩
  · intro h
    refine ⟨exists_descent ht.ordered h, ?_⟩
    rintro n ⟨path, hpath, rfl⟩
    exact hpath.length_le ht.ordered
  · intro h
    rw [contains_eq_false_iff] at h
    refine ⟨List.eq_nil_iff_forall_not_mem.2 fun field hfield => ?_, depth_of_missing h⟩
    exact not_fieldBelow_of_missing h field ((mem_fields_iff ht.ordered).1 hfield)
  · rintro (h | h) <;> rw [depth_of_node ht.ordered h] <;> rfl

/-- A tree in which nodes are shared and repeated, with a term below a negation and a delayed
part. -/
def sampleNested : PredicateTree :=
  let t := (PredicateTree.empty.add (.term "B" "1")).2
  let t := (t.add (.and [⟨0⟩, ⟨0⟩])).2
  let t := (t.add (.delayed ⟨1⟩)).2
  let t := (t.add (.not ⟨2⟩)).2
  let t := (t.add (.or [])).2
  (t.add (.or [⟨4⟩, ⟨3⟩, ⟨1⟩, ⟨3⟩])).2

theorem reachable_sampleNested : sampleNested.Reachable :=
  .add _ (.add _ (.add _ (.add _ (.add _ (.add _ .empty)))))

theorem fields_depth_below_sample :
    sampleNested.Reachable ∧
      (∃ found, sampleNested.fieldsFrom .empty [⟨5⟩] = some found) ∧
      "B" ∈ sampleNested.fields ⟨5⟩ ∧
      IsGreatest {n | ∃ path, sampleNested.IsDescent (⟨5⟩ :: path) ∧
        ((⟨5⟩ : NodeId) :: path).length = n} 5 ∧
      sampleNested.fields ⟨6⟩ = [] ∧ sampleNested.depth ⟨4⟩ = 1 := by
  obtain ⟨⟨found, hsearch, -⟩, -, hfields, hdepth, -, -⟩ :=
    fields_depth_below reachable_sampleNested ⟨5⟩
  obtain ⟨-, -, -, -, hmissing, -⟩ := fields_depth_below reachable_sampleNested ⟨6⟩
  obtain ⟨-, -, -, -, -, hchildless⟩ := fields_depth_below reachable_sampleNested ⟨4⟩
  have hnot : sampleNested.Child ⟨5⟩ ⟨3⟩ := ⟨.or [⟨4⟩, ⟨3⟩, ⟨1⟩, ⟨3⟩], rfl, by decide⟩
  have hdelayed : sampleNested.Child ⟨3⟩ ⟨2⟩ := ⟨.not ⟨2⟩, rfl, by decide⟩
  have hboth : sampleNested.Child ⟨2⟩ ⟨1⟩ := ⟨.delayed ⟨1⟩, rfl, by decide⟩
  have hterm : sampleNested.Child ⟨1⟩ ⟨0⟩ := ⟨.and [⟨0⟩, ⟨0⟩], rfl, by decide⟩
  have hbelow : sampleNested.Below ⟨5⟩ ⟨0⟩ :=
    .head hnot (.head hdelayed (.head hboth (.single hterm)))
  exact ⟨reachable_sampleNested, ⟨found, hsearch⟩, (hfields "B").2 ⟨⟨0⟩, "1", hbelow, rfl⟩,
    hdepth rfl, (hmissing rfl).1, hchildless (.inr rfl)⟩

end ShardSearch.PredicateTree
