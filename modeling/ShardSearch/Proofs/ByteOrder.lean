/-!
# The order of bytes

Texts are compared by code point.  That is how their UTF-8 bytes compare (`utf8Bytes_lt_iff`): the
first byte of a character tells how many others follow and begins with the front digits of the code
point in base 64, and the others carry the rest of the digits, front to back.
-/

namespace ShardSearch

open String (utf8EncodeChar)

/-- The bytes of a text in UTF-8. -/
def utf8Bytes (s : String) : List UInt8 := s.toUTF8.data.toList

theorem utf8Bytes_eq (s : String) : utf8Bytes s = s.toList.flatMap utf8EncodeChar := by
  rw [utf8Bytes, String.toUTF8, ← String.utf8Encode_toList, List.utf8Encode,
    List.toList_data_toByteArray]

theorem utf8Bytes_append (s t : String) : utf8Bytes (s ++ t) = utf8Bytes s ++ utf8Bytes t := by
  rw [utf8Bytes_eq, utf8Bytes_eq, utf8Bytes_eq, String.toList_append, List.flatMap_append]

/-! ## Single characters -/

namespace Utf8

variable {v w k l : Nat}

/-- What a first byte that `k` others follow is marked with. -/
def leadMark : Nat → Nat
  | 0 => 0
  | 1 => 0xc0
  | 2 => 0xe0
  | _ => 0xf0

/-- A code point without its last `k` digits in base 64. -/
def front : Nat → Nat → Nat
  | 0, v => v
  | k + 1, v => front k v / 64

/-- The last `k` digits of a code point in base 64, each in a byte of its own. -/
def trailing : Nat → Nat → List UInt8
  | 0, _ => []
  | k + 1, v => UInt8.ofNat (front k v % 64 + 0x80) :: trailing k v

theorem front_mono (h : v ≤ w) (k : Nat) : front k v ≤ front k w := by
  induction k with
  | zero => exact h
  | succ k ih => exact Nat.div_le_div_right ih

/-- The code point takes a first byte and `k` others. -/
inductive Takes (v : Nat) : Nat → Prop where
  | one (hlt : v < 0x80) : Takes v 0
  | two (hle : 0x80 ≤ v) (hlt : v < 0x800) : Takes v 1
  | three (hle : 0x800 ≤ v) (hlt : v < 0x10000) : Takes v 2
  | four (hle : 0x10000 ≤ v) (hlt : v < 0x110000) : Takes v 3

namespace Takes

theorem lead_lt_size (h : Takes v k) : leadMark k + front k v < UInt8.size := by
  cases h <;> simp only [leadMark, front, UInt8.size] <;> omega

/-- A greater code point does not take fewer bytes. -/
theorem mono (hv : Takes v k) (hw : Takes w l) (h : v ≤ w) : k ≤ l := by
  cases hv <;> cases hw <;> omega

/-- The first byte is greater if more bytes follow it. -/
theorem lead_lt_lead (hv : Takes v k) (hw : Takes w l) (h : k < l) :
    leadMark k + front k v < leadMark l + front l w := by
  cases hv <;> cases hw <;> simp only [leadMark, front] <;> omega

end Takes

theorem exists_takes (c : Char) : ∃ k, Takes c.toNat k ∧
    utf8EncodeChar c = UInt8.ofNat (leadMark k + front k c.toNat) :: trailing k c.toNat := by
  have hmax : c.toNat < 0x110000 := by
    rcases c.valid with hc | ⟨-, hc⟩
    · exact Nat.lt_trans hc (by decide)
    · exact hc
  have hval : c.val.toNat = c.toNat := rfl
  unfold utf8EncodeChar
  rw [hval]
  generalize c.toNat = v at hmax
  -- Where several digits are taken off at once, they may be taken off one by one.
  have htwo : v / 4096 = v / 64 / 64 := by omega
  have hthree : v / 262144 = v / 64 / 64 / 64 := by omega
  dsimp only
  rw [htwo, hthree]
  split
  · exact ⟨0, .one (by omega), by simp [leadMark, front, trailing]⟩
  split
  · have hlead : v / 64 % 0x20 + 0xc0 = leadMark 1 + front 1 v := by
      simp only [leadMark, front]
      omega
    exact ⟨1, .two (by omega) (by omega), by simp [hlead, front, trailing]⟩
  split
  · have hlead : v / 64 / 64 % 0x10 + 0xe0 = leadMark 2 + front 2 v := by
      simp only [leadMark, front]
      omega
    exact ⟨2, .three (by omega) (by omega), by simp [hlead, front, trailing]⟩
  · have hlead : v / 64 / 64 / 64 % 0x08 + 0xf0 = leadMark 3 + front 3 v := by
      simp only [leadMark, front]
      omega
    exact ⟨3, .four (by omega) hmax, by simp [hlead, front, trailing]⟩

/-- Where the front digits of two code points are the same, the others tell them apart. -/
theorem trailing_append_lt (h : v < w) (hfront : front k v = front k w)
    (xs ys : List UInt8) : trailing k v ++ xs < trailing k w ++ ys := by
  induction k with
  | zero =>
    rw [front, front] at hfront
    omega
  | succ k ih =>
    rw [front, front] at hfront
    rw [trailing, trailing, List.cons_append, List.cons_append, List.cons_lt_cons_iff]
    -- With the digits before it the same, the next digit decides, unless it is the same, too.
    rcases Nat.lt_or_eq_of_le (front_mono (Nat.le_of_lt h) k) with hlt | heq
    · left
      refine (UInt8.ofNat_lt_iff_lt ?_ ?_).2 ?_
      · simp only [UInt8.size]
        omega
      · simp only [UInt8.size]
        omega
      · omega
    · rw [heq]
      exact .inr ⟨rfl, ih heq⟩

/-- The bytes of a character come before those of a greater one, whatever follows either. -/
theorem utf8EncodeChar_append_lt {c d : Char} (h : c < d) (xs ys : List UInt8) :
    utf8EncodeChar c ++ xs < utf8EncodeChar d ++ ys := by
  have hlt : c.toNat < d.toNat := h
  obtain ⟨k, hc, hbytes⟩ := exists_takes c
  obtain ⟨l, hd, hbytes'⟩ := exists_takes d
  rw [hbytes, hbytes', List.cons_append, List.cons_append, List.cons_lt_cons_iff,
    UInt8.ofNat_lt_iff_lt hc.lead_lt_size hd.lead_lt_size]
  rcases Nat.lt_or_eq_of_le (hc.mono hd (Nat.le_of_lt hlt)) with hkl | rfl
  · exact .inl (hc.lead_lt_lead hd hkl)
  · rcases Nat.lt_or_eq_of_le (front_mono (Nat.le_of_lt hlt) k) with hfront | hfront
    · exact .inl (Nat.add_lt_add_left hfront _)
    · rw [hfront]
      exact .inr ⟨rfl, trailing_append_lt hlt hfront xs ys⟩

end Utf8

/-! ## Texts -/

theorem flatMap_utf8EncodeChar_lt {cs ds : List Char} (h : cs < ds) :
    cs.flatMap utf8EncodeChar < ds.flatMap utf8EncodeChar := by
  induction h with
  | @nil d ds =>
    rw [List.flatMap_cons, List.flatMap_nil]
    cases hd : utf8EncodeChar d with
    | nil => exact absurd hd String.utf8EncodeChar_ne_nil
    | cons b bs => exact List.nil_lt_cons _ _
  | rel hlt => exact Utf8.utf8EncodeChar_append_lt hlt _ _
  | cons _ ih => exact List.append_left_lt ih

/-- Texts compare as their bytes do. -/
theorem utf8Bytes_lt_iff {s t : String} : utf8Bytes s < utf8Bytes t ↔ s < t := by
  have hmono : ∀ {s t : String}, s < t → utf8Bytes s < utf8Bytes t := by
    intro s t h
    rw [utf8Bytes_eq, utf8Bytes_eq]
    exact flatMap_utf8EncodeChar_lt (String.lt_iff.1 h)
  refine ⟨fun h => ?_, hmono⟩
  apply Classical.byContradiction
  intro hnot
  have hle : t ≤ s := String.not_lt.1 hnot
  by_cases heq : t = s
  · rw [heq] at h
    exact List.lt_irrefl _ h
  · exact List.lt_asymm h (hmono (Std.lt_of_le_of_ne hle heq))

theorem utf8Bytes_le_iff {s t : String} : utf8Bytes s ≤ utf8Bytes t ↔ s ≤ t := by
  rw [← List.not_lt, ← String.not_lt, utf8Bytes_lt_iff]

end ShardSearch
