import ShardSearch.Config.Basic

/-!
# Settings as text

Settings are kept in documents of TOML 1.0.  How documents are read and written is left to a
`TomlLibrary`, and what the fields of the settings are in a table to a `SettingsCodec`; neither is
described here.  What has been read is checked before it is used.
-/

namespace ShardSearch

/-- What a key of a document is bound to. -/
inductive TomlValue where
  | integer (n : Int)
  | boolean (b : Bool)
  /-- A text, a number with a fraction, a time, an array or a table, as it was written. -/
  | other (literal : String)
  deriving DecidableEq, Inhabited

/-- What the outermost table of a document binds its keys to. -/
abbrev TomlTable := String → Option TomlValue

/-- What reads and writes documents.  Failures are put in words. -/
structure TomlLibrary where
  /-- The outermost table of a document. -/
  read : String → Except String TomlTable
  /-- A document that binds these keys, in this order. -/
  write : List (String × TomlValue) → Except String String

/-- How settings are turned into what a table binds, and back. -/
structure SettingsCodec where
  /-- The settings in a table.  Failures are put in words. -/
  decode : TomlTable → Except String EngineConfig
  /-- The keys that settings bind, in order. -/
  encode : EngineConfig → List (String × TomlValue)

namespace EngineConfig

variable (toml : TomlLibrary) (codec : SettingsCodec)

/-- The settings in a document.  They are checked once the document has been read in full. -/
def ofToml (source : String) : Except Error EngineConfig := do
  let c ← ((toml.read source).bind codec.decode).mapError .config
  c.validate
  return c

/-- The settings as a document. -/
def toToml (c : EngineConfig) : Except String String := toml.write (codec.encode c)

end EngineConfig

end ShardSearch
