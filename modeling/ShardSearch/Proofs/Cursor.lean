import ShardSearch.Proofs.Filling
import ShardSearch.Proofs.Shards

/-!
# Streams as cursors

A reader makes calls on a stream, one after the other, in any order it likes.  `run_eq_cursor`
says that the answers are those of a cursor over one fixed trace: only `next` moves it, it stays
where the trace ends, and what the stream has prepared inside is never seen.  Reading all entries
at once gives the trace as well (`drain_eq`).
-/

namespace ShardSearch

/-- The calls a reader can make. -/
inductive Call where
  | hasNext
  | peek
  | next
  | remove
  deriving DecidableEq

/-- What a call that succeeds answers. -/
inductive Answer where
  | flag (holds : Bool)
  | entry (e : Entry)
  | done
  deriving DecidableEq

namespace Calls

variable {σ : Type} (calls : Calls σ)

/-- Makes one call. -/
def call (s : σ) : Call → Except Error Answer × σ
  | .hasNext => ((calls.hasNext s).1.map .flag, (calls.hasNext s).2)
  | .peek => ((calls.peek s).1.map .entry, (calls.peek s).2)
  | .next => ((calls.next s).1.map .entry, (calls.next s).2)
  | .remove => ((calls.remove s).1.map fun _ => .done, (calls.remove s).2)

/-- Makes calls one after the other, and collects the answers. -/
def run (s : σ) : List Call → List (Except Error Answer) × σ
  | [] => ([], s)
  | c :: cs =>
    ((calls.call s c).1 :: (run (calls.call s c).2 cs).1, (run (calls.call s c).2 cs).2)

end Calls

namespace Stream

/-- Makes one call on a stream. -/
def call (s : Stream) (c : Call) : Except Error Answer × Stream := calls.call s c

/-- Makes calls on a stream one after the other, and collects the answers. -/
def run (s : Stream) (cs : List Call) : List (Except Error Answer) × Stream := calls.run s cs

theorem run_cons (s : Stream) (c : Call) (cs : List Call) :
    s.run (c :: cs) = ((s.call c).1 :: ((s.call c).2.run cs).1, ((s.call c).2.run cs).2) := rfl

end Stream

namespace Trace

/-- What a cursor at position `i` of a trace answers to a call.  At an entry it answers with the
    entry; past the last one it answers with the error of the trace, or that there is no entry. -/
def answer (t : Trace) (kind : String) (i : Nat) : Call → Except Error Answer
  | .remove => .error .readOnly
  | .hasNext =>
    match t.entries[i]?, t.fault with
    | some _, _ => .ok (.flag true)
    | none, some error => .error error
    | none, none => .ok (.flag false)
  | .peek | .next =>
    match t.entries[i]?, t.fault with
    | some e, _ => .ok (.entry e)
    | none, some error => .error error
    | none, none => .error (.exhausted kind)

/-- Where a cursor at position `i` of a trace is after a call. -/
def position (t : Trace) (i : Nat) : Call → Nat
  | .next => if i < t.entries.length then i + 1 else i
  | .hasNext | .peek | .remove => i

/-- The answers of a cursor at position `i` of a trace to calls made one after the other. -/
def answers (t : Trace) (kind : String) : Nat → List Call → List (Except Error Answer)
  | _, [] => []
  | i, c :: calls => t.answer kind i c :: t.answers kind (t.position i c) calls

/-- A trace without its first `i` entries. -/
def drop (i : Nat) (t : Trace) : Trace := { t with entries := t.entries.drop i }

theorem head_drop (t : Trace) (i : Nat) :
    (t.drop i).head =
      match t.entries[i]?, t.fault with
      | some e, _ => .ready e
      | none, some error => .failed error
      | none, none => .ended := by
  obtain ⟨es, fault⟩ := t
  cases hi : es[i]? with
  | none =>
    have hnil : es.drop i = [] := List.drop_eq_nil_of_le (List.getElem?_eq_none_iff.1 hi)
    cases fault <;> simp [drop, hnil, head]
  | some e =>
    obtain ⟨hlt, he⟩ := List.getElem?_eq_some_iff.1 hi
    simp [drop, List.drop_eq_getElem_cons hlt, he, head]

theorem tail_drop (t : Trace) (i : Nat) : (t.drop i).tail = t.drop (i + 1) := by
  simp [tail, drop]

end Trace

/-- The answers that calls of `next` got. -/
def nextAnswers (calls : List Call) (answers : List (Except Error Answer)) :
    List (Except Error Answer) :=
  ((calls.zip answers).filter (·.1 = .next)).map (·.2)

namespace Stream

/-! ## The kind of a stream -/

theorem kindName_pop : ∀ s : Stream, s.pop.kindName = s.kindName
  | leaf .. => rfl
  | scan _ _ _ head => by cases head <;> rfl
  | intersection _ _ _ _ head => by cases head <;> rfl
  | union _ _ _ _ head => by cases head <;> rfl
  | ancestor delegate _ _ => kindName_pop delegate

theorem kindName_fillAt (h : Nat) (s : Stream) : (fillAt h s).kindName = s.kindName := by
  induction h generalizing s with
  | zero => rfl
  | succ h ih =>
    cases s with
    | leaf node context label entries => rfl
    | scan node label scanner head => cases head <;> rfl
    | intersection node context filters deferred head => cases head <;> rfl
    | union node context prunes sources head => cases head <;> rfl
    | ancestor delegate parent slot => exact ih delegate

/-! ## One call -/

/-- A call is answered as a cursor answers it, and leaves the stream where the cursor is then. -/
theorem call_spec {s : Stream} {t : Trace} {i : Nat} (ht : s.trace = t.drop i) (c : Call) :
    (s.call c).1 = t.answer s.kindName i c ∧ (s.call c).2.trace = t.drop (t.position i c) ∧
      (s.call c).2.kindName = s.kindName := by
  obtain ⟨htrace, hhead, -⟩ := fill_readsTo s
  have hkind : s.fill.kindName = s.kindName := kindName_fillAt s.height s
  rw [ht] at htrace hhead
  rw [Trace.head_drop] at hhead
  cases c with
  | remove => exact ⟨rfl, ht, rfl⟩
  | hasNext =>
    simp only [call, calls, callsBy, Calls.call, Trace.answer, Trace.position]
    split at hhead <;> simp only [hhead] <;> exact ⟨rfl, htrace, hkind⟩
  | peek =>
    simp only [call, calls, callsBy, Calls.call, Trace.answer, Trace.position]
    split at hhead <;> simp only [hhead, hkind] <;> exact ⟨rfl, htrace, trivial⟩
  | next =>
    simp only [call, calls, callsBy, Calls.call, Trace.answer, Trace.position]
    split at hhead
    · next e hi =>
      have hlt : i < t.entries.length := (List.getElem?_eq_some_iff.1 hi).1
      simp only [hhead, if_pos hlt]
      refine ⟨rfl, ?_, (kindName_pop s.fill).trans hkind⟩
      rw [trace_pop hhead, htrace, Trace.tail_drop]
    · next error hi hfault =>
      have hlt : ¬ i < t.entries.length := Nat.not_lt.2 (List.getElem?_eq_none_iff.1 hi)
      simp only [hhead, if_neg hlt]
      exact ⟨rfl, htrace, hkind⟩
    · next hi hfault =>
      have hlt : ¬ i < t.entries.length := Nat.not_lt.2 (List.getElem?_eq_none_iff.1 hi)
      simp only [hhead, hkind, if_neg hlt]
      exact ⟨rfl, htrace, trivial⟩

/-! ## Any calls -/

theorem run_answers {s : Stream} {t : Trace} {i : Nat} (ht : s.trace = t.drop i)
    (calls : List Call) : (s.run calls).1 = t.answers s.kindName i calls := by
  induction calls generalizing s i with
  | nil => rfl
  | cons c calls ih =>
    obtain ⟨hanswer, htrace, hkind⟩ := call_spec ht c
    rw [run_cons, Trace.answers, hanswer, ih htrace, hkind]

/-- What calls of `next` are answered is what they would be answered without the other calls. -/
theorem nextAnswers_answers (t : Trace) (kind : String) (i : Nat) (calls : List Call) :
    nextAnswers calls (t.answers kind i calls) =
      t.answers kind i (List.replicate (calls.count .next) .next) := by
  induction calls generalizing i with
  | nil => rfl
  | cons c calls ih =>
    cases c with
    | next =>
      rw [List.count_cons_self, List.replicate_succ, Trace.answers, Trace.answers, ← ih]
      rfl
    | hasNext | peek | remove => exact ih i

/-- Every stream is a cursor over one trace, its entries and then its end or an error, whatever
    calls are made.  In particular what `next` answers does not depend on the other calls. -/
theorem run_eq_cursor (s : Stream) :
    ∃ t : Trace,
      (∀ calls, (s.run calls).1 = t.answers s.kindName 0 calls) ∧
      ∀ calls calls', calls.count .next = calls'.count .next →
        nextAnswers calls (s.run calls).1 = nextAnswers calls' (s.run calls').1 := by
  have hrun : ∀ calls, (s.run calls).1 = s.trace.answers s.kindName 0 calls :=
    fun calls => run_answers rfl calls
  refine ⟨s.trace, hrun, ?_⟩
  intro calls calls' hcount
  rw [hrun, hrun, nextAnswers_answers, nextAnswers_answers, hcount]

/-! ## Reading all entries -/

theorem drainWithin_eq (n : Nat) (s : Stream) (hn : s.held < n) :
    (drainWithin n s).1 =
      match s.trace.fault with
      | none => .ok s.trace.entries
      | some error => .error error := by
  induction n generalizing s with
  | zero => omega
  | succ n ih =>
    obtain ⟨htrace, hhead, hlater⟩ := fill_readsTo s
    have hheld := hlater.held
    rw [htrace] at hheld
    unfold drainWithin
    generalize s.trace = t at *
    obtain ⟨_ | ⟨e, es⟩, fault⟩ := t
    · cases fault <;> simp only [hhead, Trace.head]
    · rw [Trace.head] at hhead
      have hpop := (pop_spec hhead).2.1
      have hrest : s.fill.pop.trace = ⟨es, fault⟩ := by
        rw [trace_pop hhead, htrace]
        rfl
      have hrec := ih s.fill.pop (by omega)
      rw [hrest] at hrec
      simp only [hhead, hrec]
      cases fault <;> rfl

/-- Reading all entries gives those of the trace, or the error that ends it. -/
theorem drain_eq (s : Stream) :
    s.drain.1 =
      match s.trace.fault with
      | none => .ok s.trace.entries
      | some error => .error error :=
  drainWithin_eq (s.held + 1) s (Nat.lt_succ_self _)

theorem drain_of_clean {s : Stream} (h : s.trace.Clean) : s.drain.1 = .ok s.trace.entries := by
  rw [drain_eq, h.sound]

/-- A stream that is read to its end without failure has the trace that was read. -/
theorem trace_of_drain {s : Stream} {entries : List Entry} (h : s.drain.1 = .ok entries) :
    s.trace = ⟨entries, none⟩ := by
  rw [drain_eq] at h
  generalize s.trace = t at h ⊢
  obtain ⟨es, _ | error⟩ := t
  · cases h
    rfl
  · cases h

end Stream

end ShardSearch
