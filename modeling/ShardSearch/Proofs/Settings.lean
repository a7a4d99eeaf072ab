import ShardSearch.Proofs.PlainLines

/-!
# Settings are read back as written

Settings that can be written and pass their check are read back unchanged from their text, and the
check of settings that fail it is what reading their text fails with.  Settings that are read from
any document pass their check, can be written, and are read back from what is written
(`EngineConfig.document_read_back`).  All this holds for any library that reads and writes plain
lines and any codec that goes by the fields of the settings (`SettingsCodec.Lawful`).
-/

namespace ShardSearch

/-! ## What tables say of settings -/

namespace EngineConfig

/-- The key of the threshold. -/
def thresholdKey : String := "shard_uid_threshold"

/-- The key that says whether descendants are dropped. -/
def dedupKey : String := "ancestor_dedup"

/-- What the threshold is, given what its key is bound to. -/
inductive ReadsThreshold : Option TomlValue → Option Nat → Prop where
  | missing : ReadsThreshold none standard.uidThreshold
  | bound (n : Nat) : ReadsThreshold (some (.integer n)) (some n)

/-- Whether descendants are dropped, given what the key for it is bound to. -/
inductive ReadsDedup : Option TomlValue → Bool → Prop where
  | missing : ReadsDedup none standard.ancestorDedup
  | bound (b : Bool) : ReadsDedup (some (.boolean b)) b

/-- What the fields of settings are written as.  A threshold that is not set is left out. -/
def bindings (c : EngineConfig) : List (String × TomlValue) :=
  (match c.uidThreshold with
    | none => []
    | some n => [(thresholdKey, .integer n)]) ++
  [(dedupKey, .boolean c.ancestorDedup)]

end EngineConfig

open EngineConfig in
/-- What is relied on of a codec: it goes by the fields of the settings. -/
structure SettingsCodec.Lawful (codec : SettingsCodec) : Prop where
  /-- Each field is read from what its key is bound to, and has its standard value if the key is
      missing.  Other keys are passed over, and values of another kind are refused. -/
  decode_iff : ∀ t c, codec.decode t = .ok c ↔
    ReadsThreshold (t thresholdKey) c.uidThreshold ∧ ReadsDedup (t dedupKey) c.ancestorDedup
  /-- The fields are written in order. -/
  encode_eq : ∀ c, codec.encode c = c.bindings

namespace EngineConfig

/-- The lines that settings are written in. -/
def document (c : EngineConfig) : String :=
  (match c.uidThreshold with
    | none => ""
    | some n => "shard_uid_threshold = " ++ toString n ++ "\n") ++
  ("ancestor_dedup = " ++ (if c.ancestorDedup then "true" else "false") ++ "\n")

/-- The threshold, if there is one, is an integer that a document can hold. -/
def Writable (c : EngineConfig) : Prop := ∀ n, c.uidThreshold = some n → n ≤ 9223372036854775807

variable {toml : TomlLibrary} {codec : SettingsCodec} {c : EngineConfig} {source : String}

theorem validate_eq_ok_iff : c.validate = .ok () ↔ c.uidThreshold ≠ some 0 := by
  simp [validate]

/-! ## Settings that are written -/

theorem lines_bindings (c : EngineConfig) : lines c.bindings = c.document := by
  obtain ⟨threshold, dedup⟩ := c
  have hdedup : line (dedupKey, .boolean dedup) =
      "ancestor_dedup = " ++ (if dedup then "true" else "false") ++ "\n" := by
    cases dedup <;> rfl
  cases threshold with
  | none => simp [bindings, document, lines, hdedup]
  | some n =>
    have hthreshold : line (thresholdKey, .integer n) =
        "shard_uid_threshold = " ++ toString n ++ "\n" := rfl
    simp [bindings, document, lines, hdedup, hthreshold]

theorem Writable.plain (h : c.Writable) : ∀ b ∈ c.bindings, PlainBinding b := by
  have hdedup : PlainBinding (dedupKey, .boolean c.ancestorDedup) :=
    .of_all (by decide) (by decide) trivial
  obtain ⟨threshold, dedup⟩ := c
  cases threshold with
  | none => simpa [bindings] using hdedup
  | some n =>
    have hn : n ≤ 9223372036854775807 := h n rfl
    have hthreshold : PlainBinding (thresholdKey, .integer n) :=
      .of_all (by decide) (by decide) ⟨by omega, by omega⟩
    simpa [bindings] using ⟨hthreshold, hdedup⟩

theorem nodup_bindings (c : EngineConfig) : (c.bindings.map Prod.fst).Nodup := by
  obtain ⟨threshold, dedup⟩ := c
  cases threshold <;> simp [bindings, thresholdKey, dedupKey]

theorem toToml_eq (htoml : toml.Lawful) (hcodec : codec.Lawful) (h : c.Writable) :
    c.toToml toml codec = .ok c.document := by
  rw [toToml, hcodec.encode_eq, htoml.write_lines _ h.plain c.nodup_bindings, lines_bindings]

theorem decode_bindings (hcodec : codec.Lawful) (c : EngineConfig) :
    codec.decode (c.bindings.lookup ·) = .ok c := by
  rw [hcodec.decode_iff]
  obtain ⟨threshold, dedup⟩ := c
  cases threshold with
  | none => exact ⟨.missing, .bound dedup⟩
  | some n => exact ⟨.bound n, .bound dedup⟩

theorem ofToml_of_decode {t : TomlTable} (hread : toml.read source = .ok t)
    (hdecode : codec.decode t = .ok c) : ofToml toml codec source = c.validate.map fun _ => c := by
  have hbound : (toml.read source).bind codec.decode = .ok c := by rw [hread, Except.bind, hdecode]
  rw [ofToml, hbound]
  rfl

/-- The text of settings is read as the settings, if they pass their check. -/
theorem ofToml_document (htoml : toml.Lawful) (hcodec : codec.Lawful) (h : c.Writable) :
    ofToml toml codec c.document = c.validate.map fun _ => c := by
  have hread := htoml.read_lines c.bindings h.plain c.nodup_bindings
  rw [lines_bindings] at hread
  exact ofToml_of_decode hread (decode_bindings hcodec c)

theorem Writable.read_back (htoml : toml.Lawful) (hcodec : codec.Lawful) (h : c.Writable)
    (hvalid : c.validate = .ok ()) :
    c.toToml toml codec = .ok c.document ∧ ofToml toml codec c.document = .ok c := by
  have hread := ofToml_document htoml hcodec h
  rw [hvalid] at hread
  exact ⟨toToml_eq htoml hcodec h, hread⟩

/-! ## Settings that are read -/

theorem exists_of_ofToml (h : ofToml toml codec source = .ok c) :
    ∃ t, toml.read source = .ok t ∧ codec.decode t = .ok c ∧ c.validate = .ok () := by
  obtain ⟨c', hdecoded, h⟩ := exists_of_bind h
  obtain ⟨_, hvalid, heq⟩ := exists_of_bind h
  cases heq
  cases hread : (toml.read source).bind codec.decode with
  | error e =>
    rw [hread] at hdecoded
    cases hdecoded
  | ok c' =>
    rw [hread] at hdecoded
    cases hdecoded
    obtain ⟨t, ht, hdecode⟩ := exists_of_bind hread
    exact ⟨t, ht, hdecode, hvalid⟩

theorem writable_of_ofToml (htoml : toml.Lawful) (hcodec : codec.Lawful)
    (h : ofToml toml codec source = .ok c) : c.Writable := by
  obtain ⟨t, hread, hdecode, -⟩ := exists_of_ofToml h
  intro n hn
  obtain ⟨hthreshold, -⟩ := (hcodec.decode_iff t c).1 hdecode
  rw [hn] at hthreshold
  generalize hkey : t thresholdKey = v at hthreshold
  cases hthreshold with
  | bound n =>
    have hfits : FitsInt64 n := htoml.fitsInt64_of_read source t thresholdKey n hread hkey
    exact Int.ofNat_le.1 hfits.2

/-- Settings are read back from their text unless they fail their check, and then reading fails as
the check does.  What is read from any document passes the check and is read back from its own
text. -/
theorem document_read_back (htoml : toml.Lawful) (hcodec : codec.Lawful) :
    (∀ c : EngineConfig, (∀ n, c.uidThreshold = some n → 1 ≤ n ∧ n ≤ 9223372036854775807) →
      c.toToml toml codec = .ok c.document ∧ ofToml toml codec c.document = .ok c) ∧
    (∀ c : EngineConfig, c.uidThreshold = some 0 →
      c.toToml toml codec = .ok c.document ∧ c.validate = .error .zeroThreshold ∧
        ofToml toml codec c.document = .error .zeroThreshold) ∧
    ∀ source c, ofToml toml codec source = .ok c →
      c.validate = .ok () ∧ c.toToml toml codec = .ok c.document ∧
        ofToml toml codec c.document = .ok c := by
  refine ⟨?_, ?_, ?_⟩
  · intro c hrange
    have hwritable : c.Writable := fun n hn => (hrange n hn).2
    apply hwritable.read_back htoml hcodec
    rw [validate_eq_ok_iff]
    intro hzero
    exact absurd (hrange 0 hzero).1 (by decide)
  · intro c hzero
    have hwritable : c.Writable := by
      intro n hn
      rw [hzero] at hn
      cases hn
      exact Nat.zero_le _
    have hrefused : c.validate = .error .zeroThreshold := if_pos hzero
    have hread := ofToml_document htoml hcodec hwritable
    rw [hrefused] at hread
    exact ⟨toToml_eq htoml hcodec hwritable, hrefused, hread⟩
  · intro source c h
    obtain ⟨t, -, -, hvalid⟩ := exists_of_ofToml h
    exact ⟨hvalid, (writable_of_ofToml htoml hcodec h).read_back htoml hcodec hvalid⟩

/-! ## A codec -/

/-- Reads the threshold. -/
def thresholdIn : Option TomlValue → Except String (Option Nat)
  | none => .ok standard.uidThreshold
  | some (.integer (.ofNat n)) => .ok (some n)
  | some _ => .error "natural number expected"

/-- Reads whether descendants are dropped. -/
def dedupIn : Option TomlValue → Except String Bool
  | none => .ok standard.ancestorDedup
  | some (.boolean b) => .ok b
  | some _ => .error "truth value expected"

/-- Reads and writes settings field by field. -/
def fieldByField : SettingsCodec where
  decode t :=
    (thresholdIn (t thresholdKey)).bind fun threshold =>
      (dedupIn (t dedupKey)).bind fun dedup => .ok ⟨threshold, dedup⟩
  encode := bindings

theorem thresholdIn_eq_ok_iff {v : Option TomlValue} {threshold : Option Nat} :
    thresholdIn v = .ok threshold ↔ ReadsThreshold v threshold := by
  constructor
  · intro h
    unfold thresholdIn at h
    split at h <;> cases h
    · exact .missing
    · exact .bound _
  · rintro (_ | n) <;> rfl

theorem dedupIn_eq_ok_iff {v : Option TomlValue} {dedup : Bool} :
    dedupIn v = .ok dedup ↔ ReadsDedup v dedup := by
  constructor
  · intro h
    unfold dedupIn at h
    split at h <;> cases h
    · exact .missing
    · exact .bound _
  · rintro (_ | b) <;> rfl

theorem fieldByField_lawful : fieldByField.Lawful where
  decode_iff t c := by
    rw [← thresholdIn_eq_ok_iff, ← dedupIn_eq_ok_iff]
    constructor
    · intro h
      obtain ⟨threshold, hthreshold, h⟩ := exists_of_bind h
      obtain ⟨dedup, hdedup, heq⟩ := exists_of_bind h
      cases heq
      exact ⟨hthreshold, hdedup⟩
    · rintro ⟨hthreshold, hdedup⟩
      simp [fieldByField, hthreshold, hdedup, Except.bind]
  encode_eq _ := rfl

/-- The greatest threshold, a threshold of zero, and a document that is not written as settings
are. -/
theorem document_read_back_sample :
    (plainLines.Lawful ∧ fieldByField.Lawful) ∧
    (1 ≤ 9223372036854775807 ∧
      ofToml plainLines fieldByField
          "shard_uid_threshold = 9223372036854775807\nancestor_dedup = true\n" =
        .ok (hierarchical.withUidThreshold 9223372036854775807)) ∧
    ((standard.withUidThreshold 0).uidThreshold = some 0 ∧
      ofToml plainLines fieldByField "shard_uid_threshold = 0\nancestor_dedup = false\n" =
        .error .zeroThreshold) ∧
    ofToml plainLines fieldByField "retries = -3\n\nshard_uid_threshold = 250" =
        .ok (standard.withUidThreshold 250) ∧
      ofToml plainLines fieldByField "shard_uid_threshold = 250\nancestor_dedup = false\n" =
        .ok (standard.withUidThreshold 250) := by
  obtain ⟨hback, hzero, hany⟩ := document_read_back plainLines_lawful fieldByField_lawful
  have hgreatest : ∀ n, (hierarchical.withUidThreshold 9223372036854775807).uidThreshold = some n →
      1 ≤ n ∧ n ≤ 9223372036854775807 := by
    rintro n ⟨⟩
    decide
  have hread : ofToml plainLines fieldByField "retries = -3\n\nshard_uid_threshold = 250" =
      .ok (standard.withUidThreshold 250) := rfl
  exact ⟨⟨plainLines_lawful, fieldByField_lawful⟩, ⟨by decide, (hback _ hgreatest).2⟩,
    ⟨rfl, (hzero (standard.withUidThreshold 0) rfl).2.2⟩, hread, (hany _ _ hread).2.2⟩

end EngineConfig

end ShardSearch
