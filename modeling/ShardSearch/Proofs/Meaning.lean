import ShardSearch.Index.Scan
import ShardSearch.Query.Basic

/-!
# What a predicate means

Whether a node of a tree holds for a document is a matter of the values the document has.  In a
tree whose children come before their parents, which is every tree that can be made, a node holds
if its clause does (`holds_iff`).
-/

namespace ShardSearch

/-- What holds for documents: the values of each field, by shard and uid. -/
abbrev Facts := (shard uid field value : String) → Prop

/-- The facts are those of the index, as far as fields are indexed. -/
def Facts.AgreesWith (facts : Facts) (ix : ShardIndex) : Prop :=
  ∀ shard uid field value, ix.isIndexed field = true →
    (facts shard uid field value ↔ ix.holds field value shard uid = true)

/-- The facts that an index states itself. -/
def ShardIndex.facts (ix : ShardIndex) : Facts :=
  fun shard uid field value => ix.holds field value shard uid = true

theorem ShardIndex.agreesWith_facts (ix : ShardIndex) : ix.facts.AgreesWith ix :=
  fun _ _ _ _ _ => Iff.rfl

/-- What scans take to hold for documents: what the index holds, and every term of a shard that
    has too many uids for it.  Nothing is known of fields without an index. -/
def Facts.relaxed (facts : Facts) (ix : ShardIndex) (o : ScanOptions) : Facts :=
  fun shard uid field value =>
    if ix.isIndexed field then
      ix.holds field value shard uid = true ∨
        o.isOverThreshold (ix.postingOf field value shard) = true
    else facts shard uid field value

theorem Facts.AgreesWith.relaxed_of_fact {facts : Facts} {ix : ShardIndex} {o : ScanOptions}
    {shard uid field value : String} (h : facts.AgreesWith ix)
    (hfact : facts shard uid field value) : facts.relaxed ix o shard uid field value := by
  unfold Facts.relaxed
  split
  · next hindexed => exact .inl ((h shard uid field value hindexed).1 hfact)
  · exact hfact

/-- What a predicate says, given the terms that hold and the nodes that hold. -/
def Predicate.Says (terms : String → String → Prop) (below : NodeId → Prop) : Predicate → Prop
  | term field value => terms field value
  | and children => ∀ child ∈ children, below child
  | or children => ∃ child ∈ children, below child
  | not child => ¬ below child
  | delayed child => below child

/-- What a predicate says if it is one that scans answer; what is put off to the reading of
    documents says whatever `whole` does. -/
def Predicate.SaysScanned (whole : Prop) (terms : String → String → Prop)
    (below : NodeId → Prop) : Predicate → Prop
  | not _ | delayed _ => whole
  | p => p.Says terms below

namespace PredicateTree

/-- What the node of a name says. -/
def predicate? (t : PredicateTree) (id : NodeId) : Option Predicate :=
  (t.node? id).map (·.predicate)

/-- Every child comes before its parent. -/
def Ordered (t : PredicateTree) : Prop :=
  ∀ id p, t.predicate? id = some p → ∀ child ∈ p.children, child.index < id.index

/-- Evaluates a node by a clause for each predicate, looking at `levels` levels at most. -/
def evalWithin (t : PredicateTree) (clause : NodeId → (NodeId → Prop) → Predicate → Prop) :
    (levels : Nat) → NodeId → Prop
  | 0, _ => False
  | n + 1, id =>
    match t.predicate? id with
    | none => False
    | some p => clause id (evalWithin t clause n) p

/-- Evaluates a node by a clause for each predicate. -/
def Eval (t : PredicateTree) (clause : NodeId → (NodeId → Prop) → Predicate → Prop)
    (id : NodeId) : Prop :=
  t.evalWithin clause t.size id

/-- Whether a node holds for a document for which the given terms hold. -/
def Holds (t : PredicateTree) (terms : String → String → Prop) : NodeId → Prop :=
  t.Eval fun _ below p => p.Says terms below

/-- Whether a node holds if terms may be taken to hold that do not.  What is put off to the
    reading of documents is left as it is. -/
def HoldsRelaxed (t : PredicateTree) (terms relaxed : String → String → Prop) : NodeId → Prop :=
  t.Eval fun id below p => p.SaysScanned (t.Holds terms id) relaxed below

/-! ## Trees that can be made -/

/-- The trees that can be made. -/
inductive Reachable : PredicateTree → Prop where
  | empty : Reachable .empty
  | add {t : PredicateTree} (predicate : Predicate) (before : Reachable t) :
      Reachable (t.add predicate).2
  | setRoot {t : PredicateTree} (id : NodeId) (before : Reachable t) : Reachable (t.setRoot id).2

/-- All that adding a node can come to. -/
theorem add_cases (t : PredicateTree) (predicate : Predicate) :
    ((∀ child ∈ predicate.children, t.contains child = true) ∧ t.size < UInt32.size ∧
      t.add predicate = (.ok ⟨t.size⟩, ⟨t.nodes ++ [⟨⟨t.size⟩, predicate⟩], t.root⟩)) ∨
    (∃ unknown, predicate.children.find? (!t.contains ·) = some unknown ∧
      t.add predicate = (.error (.unknownNode unknown), t)) ∨
    ((∀ child ∈ predicate.children, t.contains child = true) ∧ UInt32.size ≤ t.size ∧
      t.add predicate = (.error (.treeFull t.size), t)) := by
  cases hfind : predicate.children.find? (!t.contains ·) with
  | some unknown => exact .inr (.inl ⟨unknown, rfl, by rw [add, hfind]⟩)
  | none =>
    have hknown : ∀ child ∈ predicate.children, t.contains child = true :=
      fun child hchild => by simpa using List.find?_eq_none.1 hfind child hchild
    by_cases hroom : t.size < UInt32.size
    · exact .inl ⟨hknown, hroom, by rw [add, hfind, nextId, if_pos hroom]⟩
    · exact .inr (.inr ⟨hknown, Nat.not_lt.1 hroom, by rw [add, hfind, nextId, if_neg hroom]⟩)

theorem ordered_empty : empty.Ordered := by
  intro id p hp
  cases hp

/-- Whatever is added, and whether or not it can be, every child comes before its parent. -/
theorem Ordered.add {t : PredicateTree} (h : t.Ordered) (predicate : Predicate) :
    (t.add predicate).2.Ordered := by
  obtain ⟨hknown, -, hadd⟩ | ⟨unknown, -, hadd⟩ | ⟨-, -, hadd⟩ := t.add_cases predicate <;>
    rw [hadd]
  · intro id p hp child hchild
    simp only [predicate?, node?] at hp
    rcases Nat.lt_or_ge id.index t.nodes.length with hlt | hge
    · rw [List.getElem?_append_left hlt] at hp
      exact h id p hp child hchild
    · rw [List.getElem?_append_right hge] at hp
      obtain ⟨node, hnode, rfl⟩ := Option.map_eq_some_iff.1 hp
      obtain ⟨hid, hnode⟩ := List.getElem?_eq_some_iff.1 hnode
      obtain rfl : (⟨⟨t.size⟩, predicate⟩ : PredicateNode) = node := by simpa using hnode
      exact Nat.lt_of_lt_of_le (of_decide_eq_true (hknown child hchild)) hge
  · exact h
  · exact h

theorem Ordered.setRoot {t : PredicateTree} (h : t.Ordered) (id : NodeId) :
    (t.setRoot id).2.Ordered := by
  unfold PredicateTree.setRoot
  split <;> exact h

variable {t : PredicateTree} {id : NodeId} {p : Predicate}

theorem Reachable.ordered (h : t.Reachable) : t.Ordered := by
  induction h with
  | empty => exact ordered_empty
  | add predicate before ih => exact ih.add predicate
  | setRoot id before ih => exact ih.setRoot id

theorem size_le_size_add (t : PredicateTree) (predicate : Predicate) :
    t.size ≤ (t.add predicate).2.size := by
  obtain ⟨-, -, hadd⟩ | ⟨unknown, -, hadd⟩ | ⟨-, -, hadd⟩ := t.add_cases predicate <;>
    simp [hadd, size]

/-- There are no more nodes than names. -/
theorem Reachable.size_le (h : t.Reachable) : t.size ≤ UInt32.size := by
  induction h with
  | empty => exact Nat.zero_le _
  | @add t predicate before ih =>
    obtain ⟨-, hroom, hadd⟩ | ⟨unknown, -, hadd⟩ | ⟨-, -, hadd⟩ := t.add_cases predicate <;>
      rw [hadd]
    · simpa [size] using Nat.succ_le_of_lt hroom
    · exact ih
    · exact ih
  | setRoot id before ih =>
    unfold PredicateTree.setRoot
    split <;> exact ih

/-- The root is a node of the tree. -/
theorem Reachable.contains_root (h : t.Reachable) (hroot : t.root = some id) :
    t.contains id = true := by
  induction h with
  | empty => cases hroot
  | @add t predicate before ih =>
    have hsame : (t.add predicate).2.root = t.root := by
      obtain ⟨-, -, hadd⟩ | ⟨unknown, -, hadd⟩ | ⟨-, -, hadd⟩ := t.add_cases predicate <;> rw [hadd]
    have hlt : id.index < t.size := of_decide_eq_true (ih (hsame.symm.trans hroot))
    exact decide_eq_true (Nat.lt_of_lt_of_le hlt (size_le_size_add t predicate))
  | @setRoot t id' before ih =>
    unfold PredicateTree.setRoot at hroot ⊢
    by_cases hknown : t.contains id' = true
    · rw [if_pos hknown] at hroot ⊢
      cases hroot
      exact hknown
    · rw [if_neg hknown] at hroot ⊢
      exact ih hroot

theorem index_lt_size (h : t.predicate? id = some p) : id.index < t.size := by
  obtain ⟨node, hnode, -⟩ := Option.map_eq_some_iff.1 h
  exact (List.getElem?_eq_some_iff.1 hnode).1

theorem contains_iff_exists : t.contains id = true ↔ ∃ p, t.predicate? id = some p := by
  constructor
  · intro h
    have hlt : id.index < t.nodes.length := of_decide_eq_true h
    exact ⟨t.nodes[id.index].predicate, by simp [predicate?, node?, hlt]⟩
  · rintro ⟨p, hp⟩
    exact decide_eq_true (index_lt_size hp)

/-! ## Evaluation -/

section Eval

variable {clause : NodeId → (NodeId → Prop) → Predicate → Prop}

/-- A clause asks for the children of a predicate only. -/
def Local (clause : NodeId → (NodeId → Prop) → Predicate → Prop) : Prop :=
  ∀ id p below below', (∀ child ∈ p.children, below child ↔ below' child) →
    (clause id below p ↔ clause id below' p)

/-- Looking at more levels than there are below a node makes no difference. -/
theorem evalWithin_iff (ht : t.Ordered) (hclause : Local clause) {n m : Nat}
    (hn : id.index < n) (hm : id.index < m) :
    t.evalWithin clause n id ↔ t.evalWithin clause m id := by
  induction n generalizing id m with
  | zero => omega
  | succ n ih =>
    cases m with
    | zero => omega
    | succ m =>
      rw [evalWithin, evalWithin]
      cases hp : t.predicate? id with
      | none => exact Iff.rfl
      | some p =>
        apply hclause id p _ _
        intro child hchild
        have := ht id p hp child hchild
        exact ih (by omega) (by omega)

theorem exists_of_eval (h : t.Eval clause id) : ∃ p, t.predicate? id = some p := by
  rw [Eval] at h
  cases hsize : t.size with
  | zero => rw [hsize] at h; exact h.elim
  | succ n =>
    rw [hsize, evalWithin] at h
    cases hp : t.predicate? id with
    | none => rw [hp] at h; exact h.elim
    | some p => exact ⟨p, rfl⟩

/-- A node is evaluated by its clause over its children. -/
theorem eval_iff (ht : t.Ordered) (hclause : Local clause) (h : t.predicate? id = some p) :
    t.Eval clause id ↔ clause id (t.Eval clause) p := by
  have hsize := index_lt_size h
  have hstep : t.Eval clause id ↔ t.evalWithin clause (t.size + 1) id :=
    evalWithin_iff ht hclause hsize (by omega)
  rw [hstep, evalWithin, h]
  exact Iff.rfl

end Eval

theorem says_congr (terms : String → String → Prop) {below below' : NodeId → Prop}
    (h : ∀ child ∈ p.children, below child ↔ below' child) :
    p.Says terms below ↔ p.Says terms below' := by
  cases p with
  | term field value => exact Iff.rfl
  | and children => exact forall₂_congr h
  | or children => exact exists_congr fun child => and_congr_right (h child)
  | not child => exact not_congr (h child (List.mem_singleton.2 rfl))
  | delayed child => exact h child (List.mem_singleton.2 rfl)

/-- A node holds if what its predicate says of its children does. -/
theorem holds_iff {terms : String → String → Prop} (ht : t.Ordered) (h : t.predicate? id = some p) :
    t.Holds terms id ↔ p.Says terms (t.Holds terms) :=
  eval_iff ht (fun _ _ _ _ => says_congr terms) h

/-- A conjunction or a disjunction of a single part holds if that part does. -/
theorem holds_iff_of_single {terms : String → String → Prop} {child : NodeId} (ht : t.Ordered)
    (h : t.predicate? id = some (.and [child]) ∨ t.predicate? id = some (.or [child])) :
    t.Holds terms id ↔ t.Holds terms child := by
  rcases h with h | h <;> rw [holds_iff ht h] <;> simp [Predicate.Says]

theorem holdsRelaxed_iff {terms relaxed : String → String → Prop} (ht : t.Ordered)
    (h : t.predicate? id = some p) :
    t.HoldsRelaxed terms relaxed id ↔
      p.SaysScanned (t.Holds terms id) relaxed (t.HoldsRelaxed terms relaxed) := by
  refine eval_iff ht ?_ h
  intro id p below below' hbelow
  cases p with
  | not | delayed => exact Iff.rfl
  | term | and | or => exact says_congr relaxed hbelow

theorem holdsRelaxed_iff_of_single {terms relaxed : String → String → Prop} {child : NodeId}
    (ht : t.Ordered)
    (h : t.predicate? id = some (.and [child]) ∨ t.predicate? id = some (.or [child])) :
    t.HoldsRelaxed terms relaxed id ↔ t.HoldsRelaxed terms relaxed child := by
  rcases h with h | h <;> rw [holdsRelaxed_iff ht h] <;>
    simp [Predicate.SaysScanned, Predicate.Says]

/-- A node that holds does so too if more terms are taken to hold. -/
theorem holdsRelaxed_of_holds {terms relaxed : String → String → Prop} (ht : t.Ordered)
    (hterms : ∀ field value, terms field value → relaxed field value) (hid : t.Holds terms id) :
    t.HoldsRelaxed terms relaxed id := by
  induction hn : id.index using Nat.strongRecOn generalizing id with
  | ind n ih =>
    obtain ⟨p, hp⟩ := exists_of_eval hid
    rw [holdsRelaxed_iff ht hp]
    have hbelow : ∀ child ∈ p.children, t.Holds terms child → t.HoldsRelaxed terms relaxed child :=
      fun child hchild hholds => ih child.index (hn ▸ ht id p hp child hchild) hholds rfl
    have hclause := (holds_iff ht hp).1 hid
    cases p with
    | term field value => exact hterms field value hclause
    | and children => exact fun child hchild => hbelow child hchild (hclause child hchild)
    | or children =>
      obtain ⟨child, hchild, hholds⟩ := hclause
      exact ⟨child, hchild, hbelow child hchild hholds⟩
    | not | delayed => exact hid

end PredicateTree

/-- Whether a document is one that is asked for. -/
def Query.Matches (q : Query) (facts : Facts) (shard uid : String) : Prop :=
  ∃ root, q.tree.root = some root ∧ q.tree.Holds (facts shard uid) root

end ShardSearch
