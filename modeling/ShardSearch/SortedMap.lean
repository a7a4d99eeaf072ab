/-!
# Maps ordered by their keys

`SortedMap κ α` lists its bindings in strictly ascending key order, and the order is part of the
type.  Every update is one operation, `alter`, which changes the binding of one key and leaves the
others alone (`get?_alter`); two maps that answer every lookup alike are equal (`ext_get?`).
Text keys are compared by code point, which is also the order of their UTF-8 bytes.
-/

namespace ShardSearch

/-- Keys are in an order that tells any two of them apart. -/
class StrictOrder (κ : Type) [LT κ] : Prop where
  irrefl (a : κ) : ¬ a < a
  trans {a b c : κ} : a < b → b < c → a < c
  eq_of_not_lt {a b : κ} : ¬ a < b → ¬ b < a → a = b

instance : StrictOrder String where
  irrefl := String.lt_irrefl
  trans := String.lt_trans
  eq_of_not_lt := Std.Trichotomous.trichotomous _ _

/-- Bindings from keys to values, in strictly ascending key order. -/
structure SortedMap (κ α : Type) [LT κ] where
  entries : List (κ × α)
  ascending : entries.Pairwise (fun a b => a.1 < b.1)

namespace SortedMap

variable {κ α : Type}

/-- Puts a binding in front of a list of bindings, if there is a value to bind. -/
def bindFront (k : κ) (v : Option α) (rest : List (κ × α)) : List (κ × α) :=
  match v with
  | some v => (k, v) :: rest
  | none => rest

theorem mem_bindFront {k : κ} {v : Option α} {rest : List (κ × α)} {e : κ × α}
    (h : e ∈ bindFront k v rest) : e.1 = k ∨ e ∈ rest := by
  cases v with
  | none => exact .inr h
  | some v => exact (List.mem_cons.1 h).imp (congrArg Prod.fst) id

variable [LT κ]

/-- Two maps with the same bindings are the same map. -/
theorem ext_entries {m n : SortedMap κ α} (h : m.entries = n.entries) : m = n := by
  cases m; cases n; cases h; rfl

/-- The map without bindings. -/
def empty : SortedMap κ α := ⟨[], .nil⟩

instance : Inhabited (SortedMap κ α) := ⟨empty⟩

/-- The keys, in ascending order. -/
def keys (m : SortedMap κ α) : List κ := m.entries.map (·.1)

/-- The number of bindings. -/
def size (m : SortedMap κ α) : Nat := m.entries.length

/-- Whether nothing is bound. -/
def isEmpty (m : SortedMap κ α) : Bool := m.entries.isEmpty

/-- Keeps the bindings that satisfy `p`. -/
def filter (p : κ → α → Bool) (m : SortedMap κ α) : SortedMap κ α :=
  ⟨m.entries.filter (fun e => p e.1 e.2), m.ascending.sublist List.filter_sublist⟩

theorem pairwise_keys (m : SortedMap κ α) : m.keys.Pairwise (· < ·) :=
  List.pairwise_map.2 m.ascending

theorem pairwise_bindFront {k : κ} {v : Option α} {rest : List (κ × α)}
    (hlow : ∀ e ∈ rest, k < e.1) (h : rest.Pairwise (fun a b => a.1 < b.1)) :
    (bindFront k v rest).Pairwise (fun a b => a.1 < b.1) := by
  cases v with
  | none => exact h
  | some v => exact List.pairwise_cons.2 ⟨hlow, h⟩

theorem nodup_of_ascending [StrictOrder κ] {γ : Type} {key : γ → κ} {xs : List γ}
    (h : xs.Pairwise (key · < key ·)) : xs.Nodup := by
  refine h.imp ?_
  rintro a b hlt rfl
  exact StrictOrder.irrefl _ hlt

theorem nodup_keys [StrictOrder κ] (m : SortedMap κ α) : m.keys.Nodup :=
  nodup_of_ascending m.pairwise_keys

/-- Lists that ascend by the same key and have the same members are equal. -/
theorem eq_of_ascending [StrictOrder κ] {γ : Type} {key : γ → κ} {xs ys : List γ}
    (hxs : xs.Pairwise (key · < key ·)) (hys : ys.Pairwise (key · < key ·))
    (h : ∀ a, a ∈ xs ↔ a ∈ ys) : xs = ys := by
  have hperm := (List.perm_ext_iff_of_nodup (nodup_of_ascending hxs) (nodup_of_ascending hys)).2 h
  refine hperm.eq_of_pairwise (fun a b _ _ hab hba => ?_) hxs hys
  exact absurd (StrictOrder.trans hab hba) (StrictOrder.irrefl _)

variable [DecidableEq κ]

omit [LT κ] in
theorem lookup_bindFront {k q : κ} {v : Option α} {rest : List (κ × α)}
    (h : rest.lookup k = none) :
    (bindFront k v rest).lookup q = if k = q then v else rest.lookup q := by
  by_cases hq : k = q
  · subst hq
    cases v <;> simp [bindFront, h]
  · have hq' : (q == k) = false := beq_false_of_ne (Ne.symm hq)
    cases v <;> simp [bindFront, List.lookup_cons, hq, hq']

/-! ## Lookup -/

instance [DecidableEq α] : DecidableEq (SortedMap κ α) := fun m n =>
  if h : m.entries = n.entries then isTrue (ext_entries h)
  else isFalse (fun he => h (congrArg entries he))

/-- The value bound to `k`. -/
def get? (m : SortedMap κ α) (k : κ) : Option α := m.entries.lookup k

/-- Whether `k` is bound. -/
def contains (m : SortedMap κ α) (k : κ) : Bool := (m.get? k).isSome

@[simp] theorem get?_empty (k : κ) : (empty : SortedMap κ α).get? k = none := rfl

theorem isEmpty_eq_false_iff {m : SortedMap κ α} :
    m.isEmpty = false ↔ ∃ k, m.contains k = true := by
  obtain ⟨_ | ⟨e, es⟩, hes⟩ := m
  · refine ⟨fun h => (by cases h), ?_⟩
    rintro ⟨k, hk⟩
    cases hk
  · refine ⟨fun _ => ⟨e.1, ?_⟩, fun _ => rfl⟩
    simp [contains, get?]

theorem lookup_eq_none_of_forall_lt [StrictOrder κ] {k : κ} {es : List (κ × α)}
    (h : ∀ e ∈ es, k < e.1) : es.lookup k = none := by
  rw [List.lookup_eq_none_iff]
  intro e he
  have hlt := h e he
  simp only [bne_iff_ne, ne_eq]
  rintro rfl
  exact StrictOrder.irrefl _ hlt

theorem lookup_eq_some_iff [StrictOrder κ] {es : List (κ × α)}
    (h : es.Pairwise (fun a b => a.1 < b.1)) {k : κ} {v : α} :
    es.lookup k = some v ↔ (k, v) ∈ es := by
  induction es with
  | nil => simp
  | cons b rest ih =>
    obtain ⟨key, w⟩ := b
    have ⟨hlow, hrest⟩ := List.pairwise_cons.1 h
    by_cases hk : k = key
    · cases hk
      have hout : ¬ (k, v) ∈ rest := fun hm => StrictOrder.irrefl _ (hlow (k, v) hm)
      simp [hout, eq_comm]
    · have hk' : (k == key) = false := beq_false_of_ne hk
      simp [List.lookup_cons, hk', ih hrest, hk]

/-- The bindings are what lookup finds. -/
theorem get?_eq_some_iff [StrictOrder κ] {m : SortedMap κ α} {k : κ} {v : α} :
    m.get? k = some v ↔ (k, v) ∈ m.entries :=
  lookup_eq_some_iff m.ascending

theorem contains_iff_mem_keys [StrictOrder κ] {m : SortedMap κ α} {k : κ} :
    m.contains k = true ↔ k ∈ m.keys := by
  simp only [contains, Option.isSome_iff_exists, get?_eq_some_iff, keys, List.mem_map,
    Prod.exists, exists_and_right, exists_eq_right]

/-- Maps that bind the same keys list them alike. -/
theorem keys_ext [StrictOrder κ] {β : Type} {m : SortedMap κ α} {n : SortedMap κ β}
    (h : ∀ k, m.contains k = n.contains k) : m.keys = n.keys := by
  refine eq_of_ascending m.pairwise_keys n.pairwise_keys fun k => ?_
  rw [← contains_iff_mem_keys, ← contains_iff_mem_keys, h]

/-- Maps that answer every lookup alike are equal. -/
theorem ext_get? [StrictOrder κ] {m n : SortedMap κ α} (h : ∀ k, m.get? k = n.get? k) :
    m = n := by
  refine ext_entries (eq_of_ascending m.ascending n.ascending fun e => ?_)
  rw [← get?_eq_some_iff, ← get?_eq_some_iff, h]

/-! ## Updates -/

variable [DecidableLT κ]

/-- Changes the binding of `k` in an ascending list of bindings: `f` is given the value bound to
    `k` and answers the value to bind from now on, or `none` for no binding. -/
def alterEntries (k : κ) (f : Option α → Option α) : List (κ × α) → List (κ × α)
  | [] => bindFront k (f none) []
  | (key, v) :: rest =>
    if k < key then bindFront k (f none) ((key, v) :: rest)
    else if k = key then bindFront k (f (some v)) rest
    else (key, v) :: alterEntries k f rest

theorem mem_alterEntries {k : κ} {f : Option α → Option α} {es : List (κ × α)}
    {e : κ × α} (h : e ∈ alterEntries k f es) : e.1 = k ∨ e ∈ es := by
  induction es with
  | nil => exact mem_bindFront h
  | cons b rest ih =>
    simp only [alterEntries] at h
    split at h
    · exact mem_bindFront h
    · split at h
      · exact (mem_bindFront h).imp id (List.mem_cons_of_mem _)
      · rcases List.mem_cons.1 h with h | h
        · exact .inr (h ▸ List.mem_cons_self)
        · exact (ih h).imp id (List.mem_cons_of_mem _)

variable [StrictOrder κ]

theorem pairwise_alterEntries {k : κ} {f : Option α → Option α} {es : List (κ × α)}
    (h : es.Pairwise (fun a b => a.1 < b.1)) :
    (alterEntries k f es).Pairwise (fun a b => a.1 < b.1) := by
  induction es with
  | nil => exact pairwise_bindFront (fun _ h => absurd h List.not_mem_nil) .nil
  | cons b rest ih =>
    have ⟨hlow, hrest⟩ := List.pairwise_cons.1 h
    simp only [alterEntries]
    split
    · next hk =>
      refine pairwise_bindFront (fun e he => ?_) h
      rcases List.mem_cons.1 he with rfl | he
      · exact hk
      · exact StrictOrder.trans hk (hlow e he)
    · next hk =>
      split
      · next heq => exact pairwise_bindFront (heq ▸ hlow) hrest
      · next hne =>
        refine List.pairwise_cons.2 ⟨fun e he => ?_, ih hrest⟩
        rcases mem_alterEntries he with he | he
        · refine he ▸ Decidable.byContradiction fun hkey => hne ?_
          exact StrictOrder.eq_of_not_lt hk hkey
        · exact hlow e he

/-- Changes the binding of `k`: `f` is given the value bound to `k`, if any, and answers the
    value to bind from now on, if any. -/
def alter (m : SortedMap κ α) (k : κ) (f : Option α → Option α) : SortedMap κ α :=
  ⟨alterEntries k f m.entries, pairwise_alterEntries m.ascending⟩

/-- Binds `k` to `v`, in place of what was bound. -/
def insert (m : SortedMap κ α) (k : κ) (v : α) : SortedMap κ α := m.alter k (fun _ => some v)

/-- Binds `k` to `v` unless `k` is bound already. -/
def insertIfNew (m : SortedMap κ α) (k : κ) (v : α) : SortedMap κ α :=
  m.alter k (fun old => some (old.getD v))

/-- Drops the binding of `k`. -/
def erase (m : SortedMap κ α) (k : κ) : SortedMap κ α := m.alter k (fun _ => none)

/-- The bindings of a list; of several for one key the first wins. -/
def ofList (es : List (κ × α)) : SortedMap κ α :=
  es.foldl (fun acc e => acc.insertIfNew e.1 e.2) empty

/-! ## Lookup after an update -/

theorem lookup_alterEntries {k q : κ} {f : Option α → Option α} {es : List (κ × α)}
    (h : es.Pairwise (fun a b => a.1 < b.1)) :
    (alterEntries k f es).lookup q = if k = q then f (es.lookup k) else es.lookup q := by
  induction es with
  | nil => exact lookup_bindFront rfl
  | cons b rest ih =>
    obtain ⟨key, v⟩ := b
    have ⟨hlow, hrest⟩ := List.pairwise_cons.1 h
    simp only [alterEntries]
    split
    · next hk =>
      have hnone : ((key, v) :: rest).lookup k = none :=
        lookup_eq_none_of_forall_lt (fun e he => by
          rcases List.mem_cons.1 he with rfl | he
          · exact hk
          · exact StrictOrder.trans hk (hlow e he))
      rw [lookup_bindFront hnone, hnone]
    · split
      · next heq =>
        subst heq
        rw [lookup_bindFront (lookup_eq_none_of_forall_lt hlow)]
        by_cases hq : k = q
        · simp [hq]
        · have hq' : (q == k) = false := beq_false_of_ne (Ne.symm hq)
          simp [hq, List.lookup_cons, hq']
      · next hne =>
        have hne' : (k == key) = false := beq_false_of_ne hne
        simp only [List.lookup_cons, ih hrest, hne']
        by_cases hq : k = q
        · subst hq; simp [hne']
        · simp [hq]

/-- An update changes the binding of its own key only. -/
theorem get?_alter (m : SortedMap κ α) (k q : κ) (f : Option α → Option α) :
    (m.alter k f).get? q = if k = q then f (m.get? k) else m.get? q :=
  lookup_alterEntries m.ascending

theorem get?_insert (m : SortedMap κ α) (k q : κ) (v : α) :
    (m.insert k v).get? q = if k = q then some v else m.get? q :=
  get?_alter m k q _

theorem get?_insertIfNew (m : SortedMap κ α) (k q : κ) (v : α) :
    (m.insertIfNew k v).get? q = if k = q then some ((m.get? k).getD v) else m.get? q :=
  get?_alter m k q _

theorem get?_erase (m : SortedMap κ α) (k q : κ) :
    (m.erase k).get? q = if k = q then none else m.get? q :=
  get?_alter m k q _

theorem contains_insert (m : SortedMap κ α) (k q : κ) (v : α) :
    (m.insert k v).contains q = (k == q || m.contains q) := by
  by_cases h : k = q <;> simp [contains, get?_insert, h]

theorem contains_erase (m : SortedMap κ α) (k q : κ) :
    (m.erase k).contains q = (k != q && m.contains q) := by
  by_cases h : k = q <;> simp [contains, get?_erase, h]

/-- An update that keeps the binding of its key changes nothing. -/
theorem alter_eq_self {m : SortedMap κ α} {k : κ} {f : Option α → Option α}
    (h : f (m.get? k) = m.get? k) : m.alter k f = m := by
  apply ext_get?
  intro q
  rw [get?_alter]
  split
  · next hq => rw [h, hq]
  · rfl

end SortedMap

end ShardSearch
