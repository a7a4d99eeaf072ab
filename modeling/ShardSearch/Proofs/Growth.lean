import ShardSearch.Proofs.Below

/-!
# How trees grow

A tree is built by calls.  A call either adds one node at the end or chooses the root or is
refused, for a node that is not there or for want of names, and then it changes nothing (`took`).
So every node keeps its place and its name for good, and what lies below it is settled when it is
made: all that can be asked of a node is answered alike whatever calls are made later
(`after_wellBuilt`).
-/

namespace ShardSearch

/-- A call that builds on a tree. -/
inductive TreeCall where
  /-- Adds a node. -/
  | add (predicate : Predicate)
  /-- Chooses the root. -/
  | setRoot (id : NodeId)
  deriving DecidableEq, Inhabited

/-- The nodes that a call names, in order. -/
def TreeCall.named : TreeCall → List NodeId
  | add predicate => predicate.children
  | setRoot id => [id]

namespace PredicateTree

variable {t t' : PredicateTree} {id : NodeId} {p : Predicate} {c : TreeCall}

/-- Makes a call, and answers with the name of the node it has added, if it adds one. -/
def call (t : PredicateTree) : TreeCall → Except Error (Option NodeId) × PredicateTree
  | .add predicate => ((t.add predicate).1.map some, (t.add predicate).2)
  | .setRoot id => ((t.setRoot id).1.map fun _ => none, (t.setRoot id).2)

/-- The tree after some calls, whether they succeed or fail. -/
def after (t : PredicateTree) (calls : List TreeCall) : PredicateTree :=
  calls.foldl (fun t c => (t.call c).2) t

/-! ## One call -/

/-- All that a call can come to: its answer, and the tree after it. -/
inductive Took (t : PredicateTree) :
    TreeCall → Except Error (Option NodeId) × PredicateTree → Prop where
  | added (predicate : Predicate) (known : ∀ child ∈ predicate.children, t.contains child = true)
      (room : t.size < UInt32.size) :
      Took t (.add predicate)
        (.ok (some ⟨t.size⟩), ⟨t.nodes ++ [⟨⟨t.size⟩, predicate⟩], t.root⟩)
  | chosen (id : NodeId) (known : t.contains id = true) :
      Took t (.setRoot id) (.ok none, ⟨t.nodes, some id⟩)
  | refused (c : TreeCall) {unknown : NodeId}
      (first : c.named.find? (!t.contains ·) = some unknown) :
      Took t c (.error (.unknownNode unknown), t)
  | full (predicate : Predicate) (known : ∀ child ∈ predicate.children, t.contains child = true)
      (taken : UInt32.size ≤ t.size) :
      Took t (.add predicate) (.error (.treeFull t.size), t)

theorem took (t : PredicateTree) (c : TreeCall) : t.Took c (t.call c) := by
  cases c with
  | add predicate =>
    rw [call]
    obtain ⟨hknown, hroom, hadd⟩ | ⟨unknown, hfirst, hadd⟩ | ⟨hknown, htaken, hadd⟩ :=
      t.add_cases predicate <;> rw [hadd]
    · exact .added predicate hknown hroom
    · exact .refused (.add predicate) hfirst
    · exact .full predicate hknown htaken
  | setRoot id =>
    rw [call, PredicateTree.setRoot]
    by_cases hknown : t.contains id = true
    · rw [if_pos hknown]
      exact .chosen id hknown
    · rw [if_neg hknown]
      exact .refused (.setRoot id) (by simp [TreeCall.named, hknown])

/-- A call that names a node the tree does not have is refused. -/
theorem Took.refused_of_mem {made : Except Error (Option NodeId) × PredicateTree}
    (h : t.Took c made) (hnamed : id ∈ c.named) (hid : t.contains id = false) :
    ∃ unknown ∈ c.named, t.contains unknown = false ∧
      made = (.error (.unknownNode unknown), t) := by
  cases h with
  | added predicate known | full predicate known =>
    rw [known id hnamed] at hid
    cases hid
  | chosen id' known =>
    rw [List.mem_singleton.1 hnamed, known] at hid
    cases hid
  | @refused c unknown first =>
    have hmissing : t.contains unknown = false := by simpa using List.find?_some first
    exact ⟨unknown, List.mem_of_find?_eq_some first, hmissing, rfl⟩

/-- A call whose nodes are all there is refused only for want of names. -/
theorem Took.full_of_error {e : Error} (h : t.Took c (.error e, t'))
    (hnamed : ∀ id ∈ c.named, t.contains id = true) :
    ∃ predicate, c = .add predicate ∧ UInt32.size ≤ t.size ∧ e = .treeFull t.size ∧ t' = t := by
  cases h with
  | @refused c unknown first =>
    have hmissing : t.contains unknown = false := by simpa using List.find?_some first
    rw [hnamed unknown (List.mem_of_find?_eq_some first)] at hmissing
    cases hmissing
  | full predicate known taken => exact ⟨predicate, rfl, taken, rfl, rfl⟩

theorem nodes_prefix_call (t : PredicateTree) (c : TreeCall) : t.nodes <+: (t.call c).2.nodes := by
  have htook := t.took c
  generalize t.call c = made at htook ⊢
  cases htook with
  | added predicate known room => exact List.prefix_append _ _
  | chosen id known | refused c first | full predicate known taken => exact List.prefix_rfl

theorem Reachable.call (h : t.Reachable) (c : TreeCall) : (t.call c).2.Reachable := by
  cases c with
  | add predicate => exact .add predicate h
  | setRoot id => exact .setRoot id h

/-! ## Any number of calls -/

theorem nodes_prefix_after (t : PredicateTree) (calls : List TreeCall) :
    t.nodes <+: (t.after calls).nodes := by
  induction calls generalizing t with
  | nil => exact List.prefix_rfl
  | cons c calls ih => exact (t.nodes_prefix_call c).trans (ih (t.call c).2)

theorem Reachable.after (h : t.Reachable) (calls : List TreeCall) : (t.after calls).Reachable := by
  induction calls generalizing t with
  | nil => exact h
  | cons c calls ih => exact ih (h.call c)

theorem node?_concat (t : PredicateTree) (node : PredicateNode) (root : Option NodeId) :
    (PredicateTree.mk (t.nodes ++ [node]) root).node? id =
      if id.index = t.size then some node else t.node? id := by
  unfold node? size
  by_cases hplace : id.index = t.nodes.length
  · simp [hplace]
  · rw [if_neg hplace]
    rcases Nat.lt_or_gt_of_ne hplace with hlt | hgt
    · exact List.getElem?_append_left hlt
    · rw [List.getElem?_eq_none (Nat.le_of_lt hgt)]
      exact List.getElem?_eq_none (by simpa using Nat.succ_le_of_lt hgt)

/-- A node is named by its place. -/
theorem Reachable.id_eq (h : t.Reachable) {node : PredicateNode} (hnode : t.node? id = some node) :
    node.id = id := by
  induction h with
  | empty => cases hnode
  | @add t predicate before ih =>
    have htook := t.took (.add predicate)
    have hmade : (t.add predicate).2 = (t.call (.add predicate)).2 := rfl
    rw [hmade] at hnode
    generalize t.call (.add predicate) = made at htook hnode
    cases htook with
    | refused c first => exact ih hnode
    | full predicate known taken => exact ih hnode
    | added predicate known room =>
      rw [node?_concat] at hnode
      split at hnode
      · next hplace =>
        cases hnode
        exact congrArg NodeId.mk hplace.symm
      · exact ih hnode
  | @setRoot t id' before ih =>
    have hsame : (t.setRoot id').2.nodes = t.nodes := by
      unfold PredicateTree.setRoot
      split <;> rfl
    rw [node?, hsame] at hnode
    exact ih hnode

/-! ## What is said of a node -/

theorem node?_of_isPrefix (h : t.nodes <+: t'.nodes) (hid : t.contains id = true) :
    t'.node? id = t.node? id := by
  obtain ⟨rest, hrest⟩ := h
  rw [node?, node?, ← hrest]
  exact List.getElem?_append_left (of_decide_eq_true hid)

namespace Reading

variable {β : Type} {r : Reading β}

/-- What is said of the nodes of a tree obeys the clause of a reading. -/
def Obeyed (r : Reading β) (t : PredicateTree) (said : NodeId → β) : Prop :=
  ∀ id p, t.predicate? id = some p → said id = r.clause p said

/-- Nothing else is said of a node when further nodes are added, since its children were there
    before it. -/
theorem Obeyed.eq_of_isPrefix {said said' : NodeId → β} (h : r.Obeyed t said)
    (h' : r.Obeyed t' said') (ht : t.Ordered) (hkept : t.nodes <+: t'.nodes)
    (hid : t.contains id = true) : said' id = said id := by
  induction hn : id.index using Nat.strongRecOn generalizing id with
  | ind n ih =>
    obtain ⟨p, hp⟩ := contains_iff_exists.1 hid
    have hp' : t'.predicate? id = some p := by
      rw [predicate?, node?_of_isPrefix hkept hid]
      exact hp
    rw [h id p hp, h' id p hp']
    apply r.clause_congr
    intro child hchild
    exact ih child.index (hn ▸ ht id p hp child hchild) (ht.contains_child hp hchild) rfl

end Reading

/-- The fields below a node are its own and those below its children. -/
def fieldsReading : Reading (String → Prop) where
  missing := fun _ _ => False
  clause := fun p below field => p.field? = some field ∨ ∃ child ∈ p.children, below child field
  clause_congr := by
    intro p below below' h
    funext field
    refine propext (or_congr_right (exists_congr fun child => and_congr_right fun hchild => ?_))
    rw [h child hchild]

theorem depth_obeyed (ht : t.Ordered) : depthReading.Obeyed t t.depth := by
  intro id p hp
  rw [depth_of_node ht hp]
  show _ = 1 + (p.children.map t.depth).foldl max 0
  rw [List.foldl_max, Nat.zero_max]

theorem describe_obeyed (ht : t.Ordered) : describeReading.Obeyed t t.describe :=
  fun _ _ hp => describe_of_node ht hp

theorem fieldBelow_obeyed (t : PredicateTree) : fieldsReading.Obeyed t t.FieldBelow :=
  fun _ _ hp => funext fun _ => propext (fieldBelow_iff hp)

theorem fields_of_isPrefix (ht : t.Ordered) (ht' : t'.Ordered) (hkept : t.nodes <+: t'.nodes)
    (hid : t.contains id = true) : t'.fields id = t.fields id := by
  have hbelow : t'.FieldBelow id = t.FieldBelow id :=
    (fieldBelow_obeyed t).eq_of_isPrefix (fieldBelow_obeyed t') ht hkept hid
  refine SortedMap.eq_of_ascending (SortedMap.pairwise_keys _) (SortedMap.pairwise_keys _)
    fun field => ?_
  exact (mem_fields_iff ht').trans ((iff_of_eq (congrFun hbelow field)).trans
    (mem_fields_iff ht).symm)

/-! ## Trees that are built by calls -/

/-- What the next call on a tree comes to. -/
structure AnswersCalls (t : PredicateTree) : Prop where
  /-- A node that is added is named by the number of nodes before it, and nothing else changes. -/
  added : ∀ predicate id t', t.call (.add predicate) = (.ok id, t') →
    id = some ⟨t.size⟩ ∧ t' = ⟨t.nodes ++ [⟨⟨t.size⟩, predicate⟩], t.root⟩
  chosen : ∀ id answer t', t.call (.setRoot id) = (.ok answer, t') → t' = ⟨t.nodes, some id⟩
  /-- A call succeeds if all nodes it names are there and a node it adds can be named. -/
  accepted : ∀ c, (∀ id ∈ c.named, id.index < t.size) →
    (∀ predicate, c = .add predicate → t.size < UInt32.size) → ∃ answer, (t.call c).1 = .ok answer
  /-- A call that names an unknown node, after whatever others, is refused and changes nothing. -/
  refused : ∀ c, ∀ id ∈ c.named, t.size ≤ id.index → ∃ unknown ∈ c.named,
    t.size ≤ unknown.index ∧ t.call c =
      (.error (.invalidArgument ("unknown predicate node " ++ toString unknown)), t)
  /-- If all nodes it names are there, a node that cannot be named is refused, and nothing
      changes. -/
  full : ∀ predicate, (∀ id ∈ predicate.children, id.index < t.size) → UInt32.size ≤ t.size →
    t.call (.add predicate) =
      (.error (.invalidArgument ("predicate tree is full at " ++ toString t.size ++ " nodes")), t)

/-- Nodes are named by their places, with 32 bits, children come before their parents, and the root
    is a node. -/
structure WellBuilt (t : PredicateTree) : Prop where
  id_eq : ∀ id node, t.node? id = some node → node.id = id
  child_lt : ∀ id node, t.node? id = some node →
    ∀ child ∈ node.predicate.children, child.index < node.id.index
  root_lt : ∀ root, t.root = some root → root.index < t.size
  size_le : t.size ≤ UInt32.size

/-- A node is answered for alike in two trees. -/
structure SaysTheSame (t t' : PredicateTree) (id : NodeId) : Prop where
  node : t'.node? id = t.node? id
  depth : t'.depth id = t.depth id
  fields : t'.fields id = t.fields id
  describe : t'.describe id = t.describe id

theorem answersCalls (t : PredicateTree) : t.AnswersCalls := by
  refine ⟨?_, ?_, ?_, ?_, ?_⟩
  · intro predicate id t' hcall
    have htook := hcall ▸ t.took (.add predicate)
    cases htook with
    | added predicate known room => exact ⟨rfl, rfl⟩
  · intro id answer t' hcall
    have htook := hcall ▸ t.took (.setRoot id)
    cases htook with
    | chosen id known => rfl
  · intro c hnamed hroom
    have htook := t.took c
    have hknown : ∀ id ∈ c.named, t.contains id = true :=
      fun id hid => decide_eq_true (hnamed id hid)
    cases hcall : t.call c with
    | mk answer t' =>
      cases answer with
      | ok answer => exact ⟨answer, rfl⟩
      | error e =>
        obtain ⟨predicate, hadd, htaken, -⟩ := (hcall ▸ htook).full_of_error hknown
        exact absurd htaken (Nat.not_le.2 (hroom predicate hadd))
  · intro c id hid hsize
    have hmissing : t.contains id = false := decide_eq_false (Nat.not_lt.2 hsize)
    obtain ⟨unknown, hunknown, hnot, hcall⟩ := (t.took c).refused_of_mem hid hmissing
    exact ⟨unknown, hunknown, Nat.not_lt.1 (of_decide_eq_false hnot), hcall⟩
  · intro predicate hnamed htaken
    have htook := t.took (.add predicate)
    cases hcall : t.call (.add predicate) with
    | mk answer t' =>
      cases answer with
      | error e =>
        obtain ⟨-, -, -, rfl, rfl⟩ := (hcall ▸ htook).full_of_error
          fun id hid => decide_eq_true (hnamed id hid)
        rfl
      | ok answer =>
        cases hcall ▸ htook with
        | added predicate known room => exact absurd room (Nat.not_lt.2 htaken)

theorem Reachable.wellBuilt (h : t.Reachable) : t.WellBuilt := by
  refine ⟨fun id node => h.id_eq, ?_, fun root hroot => of_decide_eq_true (h.contains_root hroot),
    h.size_le⟩
  intro id node hnode child hchild
  rw [h.id_eq hnode]
  exact h.ordered id node.predicate (by rw [predicate?, hnode]; rfl) child hchild

theorem Reachable.saysTheSame_after (h : t.Reachable) (hid : t.contains id = true)
    (later : List TreeCall) : SaysTheSame t (t.after later) id := by
  have hkept := t.nodes_prefix_after later
  have ht := h.ordered
  have ht' := (h.after later).ordered
  exact {
    node := node?_of_isPrefix hkept hid
    depth := (depth_obeyed ht).eq_of_isPrefix (depth_obeyed ht') ht hkept hid
    fields := fields_of_isPrefix ht ht' hkept hid
    describe := (describe_obeyed ht).eq_of_isPrefix (describe_obeyed ht') ht hkept hid }

/-- Whatever calls have been made on an empty tree, failing ones included: the next call adds one
    node at the end, or chooses the root, or is refused and changes nothing, and as long as there
    are fewer than `2 ^ 32` nodes it is refused only if it names a node that is not there; nodes are
    named by their places and come after their children, and the root is a node; and all that can
    be asked of a node that is there is answered alike after any later calls. -/
theorem after_wellBuilt (calls : List TreeCall) :
    let t := empty.after calls
    t.AnswersCalls ∧ t.WellBuilt ∧
      ∀ id, id.index < t.size → ∀ later, SaysTheSame t (t.after later) id := by
  have hreachable : (empty.after calls).Reachable := Reachable.empty.after calls
  refine ⟨answersCalls _, hreachable.wellBuilt, ?_⟩
  intro id hid later
  exact hreachable.saysTheSame_after (decide_eq_true hid) later

/-- Calls of which the second and the third are refused. -/
def sampleCalls : List TreeCall :=
  [.add (.term "A" "1"), .add (.and [⟨0⟩, ⟨2⟩]), .setRoot ⟨1⟩, .add (.not ⟨0⟩), .setRoot ⟨1⟩]

theorem after_wellBuilt_sample :
    let t := empty.after sampleCalls
    t.size = 2 ∧ t.root = some ⟨1⟩ ∧
      (∃ answer, (t.call (.add (.or [⟨1⟩, ⟨0⟩, ⟨1⟩]))).1 = .ok answer) ∧
      (∃ e, t.call (.add (.or [⟨1⟩, ⟨5⟩, ⟨0⟩])) = (.error e, t)) ∧
      ∀ later, (t.after later).describe ⟨1⟩ = "!(A == '1')" := by
  obtain ⟨hcalls, -, hsame⟩ := after_wellBuilt sampleCalls
  obtain ⟨unknown, -, -, hrefused⟩ :=
    hcalls.refused (.add (.or [⟨1⟩, ⟨5⟩, ⟨0⟩])) ⟨5⟩ (by decide) (by decide)
  have haccepted := hcalls.accepted (.add (.or [⟨1⟩, ⟨0⟩, ⟨1⟩])) (by decide) fun _ _ => by decide
  refine ⟨by decide, by decide, haccepted, ⟨_, hrefused⟩, ?_⟩
  intro later
  rw [(hsame ⟨1⟩ (by decide) later).describe]
  decide

end PredicateTree

end ShardSearch
