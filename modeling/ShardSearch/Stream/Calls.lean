import ShardSearch.Stream.Classify

/-!
# Calls

The calls that a reader has, on whatever is read.  A stream that can make its head known answers
them from its head; a `Decorator` answers them by calls on what it decorates.
-/

namespace ShardSearch

/-- The calls a reader of `σ` has.  Each answers, and leaves what is read as it is after the
    call. -/
structure Calls (σ : Type) where
  /-- Whether there is a next entry. -/
  hasNext : σ → Except Error Bool × σ
  /-- The next entry, which stays the next. -/
  peek : σ → Except Error Entry × σ
  /-- The next entry, which is passed. -/
  next : σ → Except Error Entry × σ
  /-- Entries cannot be removed. -/
  remove : σ → Except Error Unit × σ

/-- The calls on streams whose head is made known by `fill`. -/
def Stream.callsBy {Slot : Type} (fill : Stream Slot → Stream Slot) : Calls (Stream Slot) where
  hasNext s :=
    let s := fill s
    match s.head with
    | .ready _ => (.ok true, s)
    | .failed e => (.error e, s)
    | _ => (.ok false, s)
  peek s :=
    let s := fill s
    match s.head with
    | .ready entry => (.ok entry, s)
    | .failed e => (.error e, s)
    | _ => (.error (.exhausted s.kindName), s)
  next s :=
    let s := fill s
    match s.head with
    | .ready entry => (.ok entry, s.pop)
    | .failed e => (.error e, s)
    | _ => (.error (.exhausted s.kindName), s)
  remove s := (.error .readOnly, s)

/-! ## A slot of its own -/

/-- A reader of `delegate` that hands out sets without descendants.  What it has shown of the next
    entry is kept in `pending`, as long as that entry is the next. -/
structure Decorator (σ : Type := Stream) where
  delegate : σ
  parent : Option NodeId
  pending : Option Entry

namespace Decorator

variable {σ : Type}

/-- A reader that has shown nothing yet. -/
def wrap (delegate : σ) (parent : Option NodeId) : Decorator σ := ⟨delegate, parent, none⟩

/-- What was wrapped, read as far as the reader has passed entries. -/
def unwrap (d : Decorator σ) : σ := d.delegate

/-- The calls on a decorator, by calls on its delegate. -/
def calls (below : Calls σ) : Calls (Decorator σ) where
  -- the delegate is asked unless the entry has been shown
  hasNext d :=
    if d.pending.isSome then (.ok true, d)
    else ((below.hasNext d.delegate).1, { d with delegate := (below.hasNext d.delegate).2 })
  -- the set of the entry is worked out when it is shown first
  peek d :=
    match d.pending with
    | some e => (.ok e, d)
    | none =>
      match below.peek d.delegate with
      | (.error error, s) => (.error error, { d with delegate := s })
      | (.ok e, s) =>
        let e := { e with set := e.set.removeOverlapping }
        (.ok e, { d with delegate := s, pending := some e })
  -- the delegate passes its own entry; if that has been shown, what was shown is handed out
  next d :=
    match below.next d.delegate with
    | (.error error, s) => (.error error, { d with delegate := s })
    | (.ok e, s) =>
      (.ok (d.pending.getD { e with set := e.set.removeOverlapping }),
        { d with delegate := s, pending := none })
  remove d := ((below.remove d.delegate).1, { d with delegate := (below.remove d.delegate).2 })

end Decorator

end ShardSearch
