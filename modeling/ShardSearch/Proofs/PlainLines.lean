import ShardSearch.Config.Document

/-!
# Documents of plain lines

A plain line binds a key without quotes to an integer or a truth value.  `TomlLibrary.Lawful` says
what is relied on of a library: that it reads and writes plain lines as TOML 1.0 does, and that its
integers have 64 bits.  There are such libraries: `plainLines` reads plain lines and nothing else
(`plainLines_lawful`).
-/

namespace ShardSearch

/-! ## Plain lines -/

/-- Whether an integer has at most 64 bits with a sign. -/
def FitsInt64 (n : Int) : Prop := -9223372036854775808 ≤ n ∧ n ≤ 9223372036854775807

instance (n : Int) : Decidable (FitsInt64 n) := inferInstanceAs (Decidable (_ ∧ _))

namespace TomlValue

/-- Integers that fit and truth values. -/
def Plain : TomlValue → Prop
  | integer n => FitsInt64 n
  | boolean _ => True
  | other _ => False

/-- A value as it is written: integers in decimal. -/
def literal : TomlValue → String
  | integer n => toString n
  | boolean b => toString b
  | other literal => literal

end TomlValue

/-- Whether a character may stand in a key without quotes. -/
def isBareKeyChar (c : Char) : Bool := c.isAlphanum || c == '-' || c == '_'

/-- A key without quotes is bound to a plain value. -/
structure PlainBinding (b : String × TomlValue) : Prop where
  named : b.1 ≠ ""
  bare : ∀ c ∈ b.1.toList, isBareKeyChar c = true
  plain : b.2.Plain

theorem PlainBinding.of_all {key : String} {v : TomlValue} (named : key ≠ "")
    (bare : key.toList.all isBareKeyChar = true) (plain : v.Plain) : PlainBinding (key, v) :=
  ⟨named, List.all_eq_true.1 bare, plain⟩

/-- A line that binds a key. -/
def line (b : String × TomlValue) : String := b.1 ++ " = " ++ b.2.literal ++ "\n"

/-- A line for each key that is bound. -/
def lines : List (String × TomlValue) → String
  | [] => ""
  | b :: rest => line b ++ lines rest

/-- What is relied on of a library. -/
structure TomlLibrary.Lawful (toml : TomlLibrary) : Prop where
  /-- Plain lines for different keys bind each key to the value on its line, and no other key. -/
  read_lines : ∀ bindings, (∀ b ∈ bindings, PlainBinding b) → (bindings.map Prod.fst).Nodup →
    toml.read (lines bindings) = .ok (bindings.lookup ·)
  /-- Plain values are written on lines of their own. -/
  write_lines : ∀ bindings, (∀ b ∈ bindings, PlainBinding b) → (bindings.map Prod.fst).Nodup →
    toml.write bindings = .ok (lines bindings)
  /-- No document holds an integer of more than 64 bits. -/
  fitsInt64_of_read : ∀ source t key n, toml.read source = .ok t → t key = some (.integer n) →
    FitsInt64 n

/-! ## A library of plain lines -/

/-- The number that decimal digits are. -/
def natural? (ds : List Char) : Option Int :=
  if ds ≠ [] ∧ ds.all Char.isDigit then some (Nat.ofDigitChars 10 ds 0) else none

/-- The integer that is written so. -/
def integer? (cs : List Char) : Option Int :=
  if cs.head? = some '-' then (natural? cs.tail).map fun n => -n else natural? cs

/-- The plain value that is written so. -/
def plainValue? (cs : List Char) : Option TomlValue :=
  if cs = ['t', 'r', 'u', 'e'] then some (.boolean true)
  else if cs = ['f', 'a', 'l', 's', 'e'] then some (.boolean false)
  else ((integer? cs).filter fun n => FitsInt64 n).map .integer

/-- Reads a plain line without its end. -/
def readLine (cs : List Char) : Except String (String × TomlValue) :=
  let name := cs.takeWhile isBareKeyChar
  match name.isEmpty, cs.dropWhile isBareKeyChar with
  | false, ' ' :: '=' :: ' ' :: text =>
    match plainValue? text with
    | some v => .ok (String.ofList name, v)
    | none => .error "value expected"
  | _, _ => .error "key expected"

/-- Reads the lines that are not empty. -/
def readLines : List (List Char) → Except String (List (String × TomlValue))
  | [] => .ok []
  | [] :: rest => readLines rest
  | cs :: rest => do
    let b ← readLine cs
    return b :: (← readLines rest)

/-- What lines bind, if no key is bound twice. -/
def tableOf (bindings : List (String × TomlValue)) : Except String TomlTable :=
  if (bindings.map Prod.fst).Nodup then .ok (bindings.lookup ·) else .error "key bound twice"

/-- Reads plain lines and nothing else, and writes lines. -/
def plainLines : TomlLibrary where
  read source := (readLines (source.toList.splitOn '\n')).bind tableOf
  write bindings := .ok (lines bindings)

section Reading

variable {b : String × TomlValue} {bindings : List (String × TomlValue)} {cs : List Char}
  {v : TomlValue} {n : Int}

/-- What two steps come to, if neither fails. -/
theorem exists_of_bind {ε α β : Type} {x : Except ε α} {f : α → Except ε β} {y : β}
    (h : x.bind f = .ok y) : ∃ a, x = .ok a ∧ f a = .ok y := by
  cases x with
  | error e => cases h
  | ok a => exact ⟨a, rfl, h⟩

theorem natural?_toDigits (m : Nat) : natural? (Nat.toDigits 10 m) = some (m : Int) := by
  have hdigits : (Nat.toDigits 10 m).all Char.isDigit = true :=
    List.all_eq_true.2 fun c hc => Nat.isDigit_of_mem_toDigits (by decide) (by decide) hc
  rw [natural?, if_pos ⟨Nat.toDigits_ne_nil, hdigits⟩, Nat.ofDigitChars_ten_toDigits]

/-- The characters of an integer in decimal: its digits, after a sign if it is negative. -/
theorem toList_toString (n : Int) :
    (toString n).toList = (if n < 0 then ['-'] else []) ++ Nat.toDigits 10 n.natAbs := by
  cases n with
  | ofNat m => exact Nat.toList_repr
  | negSucc m =>
    show ("-" ++ m.succ.repr).toList = _
    simp [Int.negSucc_lt_zero]

theorem integer?_toString (n : Int) : integer? (toString n).toList = some n := by
  rw [toList_toString, integer?]
  by_cases hsign : n < 0
  · have habs : -(n.natAbs : Int) = n := by omega
    rw [if_pos hsign, List.singleton_append, if_pos List.head?_cons, List.tail_cons,
      natural?_toDigits]
    exact congrArg some habs
  · have habs : (n.natAbs : Int) = n := by omega
    have hhead : (Nat.toDigits 10 n.natAbs).head? ≠ some '-' := by
      intro hminus
      have hdigit := Nat.isDigit_of_mem_toDigits (by decide) (by decide)
        (List.mem_of_mem_head? hminus)
      exact absurd hdigit (by decide)
    rw [if_neg hsign, List.nil_append, if_neg hhead, natural?_toDigits, habs]

theorem not_mem_toString {c : Char} (hsign : c ≠ '-') (hdigit : c.isDigit = false) :
    c ∉ (toString n).toList := by
  rw [toList_toString]
  intro hmem
  rcases List.mem_append.1 hmem with hmem | hmem
  · split at hmem
    · exact hsign (List.mem_singleton.1 hmem)
    · cases hmem
  · rw [Nat.isDigit_of_mem_toDigits (by decide) (by decide) hmem] at hdigit
    cases hdigit

theorem lineEnd_not_mem_literal (h : v.Plain) : '\n' ∉ v.literal.toList := by
  cases v with
  | integer n => exact not_mem_toString (by decide) (by decide)
  | boolean x => cases x <;> decide
  | other literal => exact h.elim

/-- A plain value is read from what is written for it. -/
theorem plainValue?_literal (h : v.Plain) : plainValue? v.literal.toList = some v := by
  cases v with
  | integer n =>
    have htrue : (toString n).toList ≠ ['t', 'r', 'u', 'e'] :=
      fun heq => not_mem_toString (by decide) (by decide) (heq ▸ List.mem_cons_self)
    have hfalse : (toString n).toList ≠ ['f', 'a', 'l', 's', 'e'] :=
      fun heq => not_mem_toString (by decide) (by decide) (heq ▸ List.mem_cons_self)
    have hfits : FitsInt64 n := h
    rw [TomlValue.literal, plainValue?, if_neg htrue, if_neg hfalse, integer?_toString]
    simp [hfits]
  | boolean x => cases x <;> rfl
  | other literal => exact h.elim

/-- No integer is read that does not fit. -/
theorem fitsInt64_of_plainValue? (h : plainValue? cs = some (.integer n)) : FitsInt64 n := by
  unfold plainValue? at h
  split at h
  · cases h
  split at h
  · cases h
  · obtain ⟨m, hm, heq⟩ := Option.map_eq_some_iff.1 h
    cases heq
    exact of_decide_eq_true (Option.filter_eq_some_iff.1 hm).2

/-- The characters of a line without its end. -/
def lineChars (b : String × TomlValue) : List Char :=
  b.1.toList ++ ' ' :: '=' :: ' ' :: b.2.literal.toList

theorem toList_lines_cons (b : String × TomlValue) (rest : List (String × TomlValue)) :
    (lines (b :: rest)).toList = lineChars b ++ '\n' :: (lines rest).toList := by
  simp [lines, line, lineChars]

theorem lineEnd_not_mem_lineChars (h : PlainBinding b) : '\n' ∉ lineChars b := by
  have hkey : '\n' ∉ b.1.toList := fun hmem => absurd (h.bare _ hmem) (by decide)
  simp [lineChars, hkey, lineEnd_not_mem_literal h.plain]

theorem readLine_lineChars (h : PlainBinding b) : readLine (lineChars b) = .ok b := by
  have htake : (lineChars b).takeWhile isBareKeyChar = b.1.toList := by
    rw [lineChars, List.takeWhile_append_of_pos h.bare, List.takeWhile_cons_of_neg (by decide),
      List.append_nil]
  have hdrop : (lineChars b).dropWhile isBareKeyChar =
      ' ' :: '=' :: ' ' :: b.2.literal.toList := by
    rw [lineChars, List.dropWhile_append_of_pos h.bare, List.dropWhile_cons_of_neg (by decide)]
  have hnamed : b.1.toList.isEmpty = false := by simpa using h.named
  simp only [readLine, htake, hdrop, hnamed, plainValue?_literal h.plain, String.ofList_toList]

theorem fitsInt64_of_readLine (h : readLine cs = .ok b) (hvalue : b.2 = .integer n) :
    FitsInt64 n := by
  unfold readLine at h
  dsimp only at h
  split at h
  · split at h
    · next v hread =>
      cases h
      cases hvalue
      exact fitsInt64_of_plainValue? hread
    · cases h
  · cases h

theorem readLines_cons (hne : cs ≠ []) (rest : List (List Char)) :
    readLines (cs :: rest) =
      (readLine cs).bind fun b => (readLines rest).bind fun others => .ok (b :: others) := by
  cases cs with
  | nil => exact absurd rfl hne
  | cons c cs => rfl

/-- Split at their ends, plain lines are read as what they bind. -/
theorem readLines_lines (h : ∀ b ∈ bindings, PlainBinding b) :
    readLines ((lines bindings).toList.splitOn '\n') = .ok bindings := by
  induction bindings with
  | nil => rfl
  | cons b rest ih =>
    have hplain : PlainBinding b := h b (by simp)
    have hfirst : (lineChars b).splitOn '\n' = [lineChars b] :=
      List.splitOn_eq_singleton (lineEnd_not_mem_lineChars hplain)
    have hrest := ih fun b hb => h b (List.mem_cons_of_mem _ hb)
    rw [toList_lines_cons, List.splitOn_append_cons_self, hfirst, List.singleton_append,
      readLines_cons (by simp [lineChars]), readLine_lineChars hplain, hrest]
    rfl

theorem fitsInt64_of_readLines {ls : List (List Char)} (h : readLines ls = .ok bindings)
    (hb : b ∈ bindings) (hvalue : b.2 = .integer n) : FitsInt64 n := by
  induction ls generalizing bindings with
  | nil =>
    cases h
    cases hb
  | cons cs rest ih =>
    by_cases hne : cs = []
    · -- an empty line is passed over
      subst hne
      exact ih h hb
    · rw [readLines_cons hne] at h
      obtain ⟨first, hline, h⟩ := exists_of_bind h
      obtain ⟨others, hrest, heq⟩ := exists_of_bind h
      cases heq
      rcases List.mem_cons.1 hb with rfl | hb
      · exact fitsInt64_of_readLine hline hvalue
      · exact ih hrest hb

end Reading

theorem plainLines_lawful : plainLines.Lawful where
  read_lines bindings hplain hnodup := by
    show (readLines _).bind tableOf = _
    rw [readLines_lines hplain]
    exact if_pos hnodup
  write_lines _ _ _ := rfl
  fitsInt64_of_read source t key n hread hkey := by
    obtain ⟨bindings, hlines, htable⟩ := exists_of_bind hread
    unfold tableOf at htable
    split at htable
    · cases htable
      obtain ⟨before, after, hsplit, -⟩ := List.lookup_eq_some_iff.1 hkey
      have hmem : (key, .integer n) ∈ bindings := by simp [hsplit]
      exact fitsInt64_of_readLines hlines hmem rfl
    · cases htable

end ShardSearch
