import Mathlib.Logic.ExistsUnique
import ShardSearch.Proofs.ByteOrder
import ShardSearch.Proofs.DayOrder

/-!
# Days and bytes

The day of a shard can be read off the bytes of its name, for all of it is ASCII
(`shardDate_eq_some_iff`).  Every shard that has a day lies before a range of days, within it or
past its end, and the order of the bytes of names respects these sides
(`ShardRange.bounds_in_byte_order`).
-/

namespace ShardSearch

open String (utf8EncodeChar)

variable {c : Char} {shard day s t : String}

/-! ## The bytes of a day -/

/-- The byte of an ASCII digit. -/
def IsDigitByte (b : UInt8) : Prop := '0'.toUInt8 ≤ b ∧ b ≤ '9'.toUInt8

/-- The text takes eight bytes, all of them digits. -/
def EightDigits (day : String) : Prop :=
  (utf8Bytes day).length = 8 ∧ ∀ b ∈ utf8Bytes day, IsDigitByte b

theorem isDigitByte_ofNat_iff {n : Nat} (h : n < UInt8.size) :
    IsDigitByte (UInt8.ofNat n) ↔ '0'.toNat ≤ n ∧ n ≤ '9'.toNat := by
  have hzero : '0'.toUInt8 = UInt8.ofNat '0'.toNat := rfl
  have hnine : '9'.toUInt8 = UInt8.ofNat '9'.toNat := rfl
  rw [IsDigitByte, hzero, hnine, UInt8.ofNat_le_iff_le (by decide) h,
    UInt8.ofNat_le_iff_le h (by decide)]

theorem utf8EncodeChar_of_isDigit (h : c.isDigit = true) :
    utf8EncodeChar c = [UInt8.ofNat c.toNat] := by
  have hle : c.val.toNat ≤ 0x7f := Nat.le_trans (Char.isDigit_iff_toNat.1 h).2 (by decide)
  rw [utf8EncodeChar]
  exact if_pos hle

/-- Digits are the characters that are encoded in digit bytes only. -/
theorem forall_isDigitByte_iff : (∀ b ∈ utf8EncodeChar c, IsDigitByte b) ↔ c.isDigit = true := by
  constructor
  · intro h
    obtain ⟨k, htakes, hbytes⟩ := Utf8.exists_takes c
    rw [hbytes] at h
    have hlead := (isDigitByte_ofNat_iff htakes.lead_lt_size).1 (h _ List.mem_cons_self)
    have hnine : '9'.toNat < 0xc0 := by decide
    rw [Char.isDigit_iff_toNat]
    -- The first byte of what takes several bytes is no digit.
    cases htakes with
    | one => simpa [Utf8.leadMark, Utf8.front] using hlead
    | two | three | four =>
      simp only [Utf8.leadMark] at hlead
      omega
  · intro h
    have hdigit := Char.isDigit_iff_toNat.1 h
    have hsize : c.toNat < UInt8.size := Nat.lt_of_le_of_lt hdigit.2 (by decide)
    rw [utf8EncodeChar_of_isDigit h]
    simpa only [List.mem_singleton, forall_eq, isDigitByte_ofNat_iff hsize] using hdigit

theorem length_flatMap_of_isDigit {cs : List Char} (h : ∀ c ∈ cs, c.isDigit = true) :
    (cs.flatMap utf8EncodeChar).length = cs.length := by
  induction cs with
  | nil => rfl
  | cons c cs ih =>
    obtain ⟨hc, hcs⟩ := List.forall_mem_cons.1 h
    rw [List.flatMap_cons, List.length_append, utf8EncodeChar_of_isDigit hc, ih hcs,
      List.length_singleton, List.length_cons, Nat.add_comm]

theorem eightDigits_iff :
    EightDigits day ↔ day.toList.length = 8 ∧ ∀ c ∈ day.toList, c.isDigit = true := by
  have hdigits : (∀ b ∈ utf8Bytes day, IsDigitByte b) ↔ ∀ c ∈ day.toList, c.isDigit = true := by
    rw [utf8Bytes_eq, List.forall_mem_flatMap]
    simp only [forall_isDigitByte_iff]
  rw [EightDigits, hdigits]
  refine and_congr_left fun hall => ?_
  rw [utf8Bytes_eq, length_flatMap_of_isDigit hall]

/-- What may follow the day of a shard, as characters. -/
theorem eq_or_underscore_iff : (shard = day ∨ ∃ rest, shard = day ++ "_" ++ rest) ↔
    ∃ rest, shard.toList = day.toList ++ rest ∧ (rest = [] ∨ rest.head? = some '_') := by
  constructor
  · rintro (rfl | ⟨rest, rfl⟩)
    · exact ⟨[], by simp, .inl rfl⟩
    · exact ⟨'_' :: rest.toList, by simp, .inr rfl⟩
  · rintro ⟨rest, hshard, hrest | hrest⟩
    · left
      rw [← String.toList_inj, hshard, hrest, List.append_nil]
    · right
      obtain ⟨rest, rfl⟩ := List.head?_eq_some_iff.1 hrest
      refine ⟨String.ofList rest, ?_⟩
      rw [← String.toList_inj, hshard]
      simp

/-- The day of a shard: eight digits that are its name, or that an underscore follows. -/
theorem shardDate_eq_some_iff : shardDate shard = some day ↔
    EightDigits day ∧ (shard = day ∨ ∃ rest, shard = day ++ "_" ++ rest) := by
  rw [eightDigits_iff, eq_or_underscore_iff]
  constructor
  · intro h
    have htake := toList_of_shardDate h
    simp only [shardDate] at h
    split at h
    · next hday =>
      obtain ⟨hlen, hdigits, hrest⟩ := hday
      rw [htake]
      exact ⟨⟨hlen, List.all_eq_true.1 hdigits⟩, _, (List.take_append_drop 8 _).symm, hrest⟩
    · cases h
  · rintro ⟨⟨hlen, hdigits⟩, rest, hshard, hrest⟩
    have htake : shard.toList.take 8 = day.toList := by
      rw [hshard, List.take_left' hlen]
    have hdrop : shard.toList.drop 8 = rest := by
      rw [hshard, List.drop_left' hlen]
    simp only [shardDate, htake, hdrop]
    rw [if_pos ⟨hlen, List.all_eq_true.2 hdigits, hrest⟩, String.ofList_toList]

/-- The first nine bytes of a shard that has a day are ASCII. -/
theorem lt_of_mem_take_of_shardDate (h : shardDate shard = some day) {b : UInt8}
    (hb : b ∈ (utf8Bytes shard).take 9) : b < 0x80 := by
  obtain ⟨⟨hlen, hdigits⟩, hshape⟩ := shardDate_eq_some_iff.1 h
  have hmem : b ∈ utf8Bytes day ++ ['_'.toUInt8] := by
    rcases hshape with rfl | ⟨rest, rfl⟩
    · exact List.mem_append_left _ (List.mem_of_mem_take hb)
    · have hnine : (utf8Bytes day ++ ['_'.toUInt8]).length = 9 := by
        rw [List.length_append, hlen, List.length_singleton]
      have hunderscore : utf8Bytes "_" = ['_'.toUInt8] := by decide
      rwa [utf8Bytes_append, utf8Bytes_append, hunderscore, List.take_left' hnine] at hb
  rcases List.mem_append.1 hmem with hmem | hmem
  · exact UInt8.lt_of_le_of_lt (hdigits b hmem).2 (by decide)
  · rw [List.mem_singleton.1 hmem]
    decide

/-! ## Ranges -/

namespace ShardRange

variable {r : ShardRange}

/-- Where a day lies as seen from a range. -/
inductive Side where
  | before
  | within
  | pastEnd

/-- The shard has a day, which lies on the given side of the range. -/
def Lies (r : ShardRange) (shard : String) : Side → Prop
  | .before => ∃ day, shardDate shard = some day ∧ utf8Bytes day < utf8Bytes r.first
  | .within => r.contains shard = true
  | .pastEnd => r.isPastEnd shard = true

/-- Only shards that have a day lie on a side. -/
theorem Lies.exists_day {side : Side} (h : r.Lies shard side) :
    ∃ day, shardDate shard = some day := by
  cases side with
  | before => exact h.imp fun _ hday => hday.1
  | within => exact (contains_iff.1 h).imp fun _ hday => hday.1
  | pastEnd => exact (isPastEnd_iff.1 h).imp fun _ hday => hday.1

/-- A shard that has a day lies on one side. -/
theorem existsUnique_lies (h : shardDate shard = some day) : ∃! side, r.Lies shard side := by
  have hbefore : r.Lies shard .before ↔ day < r.first := by
    simp [Lies, h, utf8Bytes_lt_iff]
  have hwithin : r.Lies shard .within ↔ r.first ≤ day ∧ day ≤ r.last := by
    simp [Lies, contains_iff, h]
  have hpastEnd : r.Lies shard .pastEnd ↔ r.last < day := by
    simp [Lies, isPastEnd_iff, h]
  have hbounds := r.first_le_last
  by_cases hfirst : day < r.first
  · refine ⟨.before, hbefore.2 hfirst, fun side hside => ?_⟩
    cases side <;> grind
  by_cases hlast : r.last < day
  · refine ⟨.pastEnd, hpastEnd.2 hlast, fun side hside => ?_⟩
    cases side <;> grind
  · refine ⟨.within, hwithin.2 ⟨String.not_lt.1 hfirst, String.not_lt.1 hlast⟩,
      fun side hside => ?_⟩
    cases side <;> grind

/-- Ranges of days agree with the order of the bytes of shard names.  After a shard past the end of
    a range none is within it, and none within it comes before its first day; days come in the order
    of their shards.  A shard that has a day lies before the range, within it or past its end, and
    only one of these; a shard without a day lies nowhere.  A shard has a day if its name is eight
    digits, or if an underscore follows these, so no shard has one that takes a byte beyond ASCII
    among its first nine. -/
theorem bounds_in_byte_order (r : ShardRange) (hst : utf8Bytes s ≤ utf8Bytes t) :
    (r.isPastEnd s = true → r.contains t = false) ∧
      (r.contains t = true → utf8Bytes r.first ≤ utf8Bytes t) ∧
      (∀ day day', shardDate s = some day → shardDate t = some day' →
        utf8Bytes day ≤ utf8Bytes day') ∧
      ∀ shard : String,
        ((∃ day, shardDate shard = some day) → ∃! side, r.Lies shard side) ∧
        (shardDate shard = none → ∀ side, ¬ r.Lies shard side) ∧
        (∀ day, shardDate shard = some day ↔
          EightDigits day ∧ (shard = day ∨ ∃ rest, shard = day ++ "_" ++ rest)) ∧
        ((∃ b ∈ (utf8Bytes shard).take 9, 0x80 ≤ b) → shardDate shard = none) := by
  have hle : s ≤ t := utf8Bytes_le_iff.1 hst
  refine ⟨not_contains_of_isPastEnd hle, ?_, ?_, ?_⟩
  · intro h
    exact utf8Bytes_le_iff.2 (first_le_of_contains h)
  · intro day day' hs ht
    exact utf8Bytes_le_iff.2 (shardDate_le_shardDate hle hs ht)
  · intro shard
    refine ⟨fun ⟨day, hday⟩ => existsUnique_lies hday, ?_, fun day => shardDate_eq_some_iff, ?_⟩
    · intro hnone side hside
      obtain ⟨day, hday⟩ := hside.exists_day
      rw [hnone] at hday
      cases hday
    · rintro ⟨b, hb, hwide⟩
      apply Option.eq_none_iff_forall_ne_some.2
      intro day hday
      exact UInt8.not_lt.2 hwide (lt_of_mem_take_of_shardDate hday hb)

theorem bounds_in_byte_order_sample :
    ∃ r, ofBounds "20240101" "20240131" = .ok r ∧
      utf8Bytes "20240201_0" ≤ utf8Bytes "20240201_é" ∧
      r.isPastEnd "20240201_0" = true ∧ r.contains "20240201_é" = false := by
  obtain ⟨r, hr⟩ : ∃ r, ofBounds "20240101" "20240131" = .ok r := ⟨_, rfl⟩
  have hst : utf8Bytes "20240201_0" ≤ utf8Bytes "20240201_é" := by decide
  have hpast : r.isPastEnd "20240201_0" = true := by
    cases hr
    rfl
  exact ⟨r, hr, hst, hpast, (bounds_in_byte_order r hst).1 hpast⟩

end ShardRange

end ShardSearch
