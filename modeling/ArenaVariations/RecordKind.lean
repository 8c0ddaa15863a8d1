/-!
# Kinds of records

An arena is described by mappings with a fixed set of fields, each under its own tag. A
`RecordKind` names such a set. Fields are written in the order declared here, whatever the order
in which a template gives them.
-/

namespace ArenaVariations

/-- The field of an arena configuration that holds settings of the whole document. -/
def metaField : String := "proc_meta"

/-- The key of the document settings that lists the label rules. -/
def labelRulesKey : String := "proc_labels"

/-- The field that names a record, so that references can start from it. -/
def idField : String := "id"

/-- The mappings with a fixed set of fields. -/
inductive RecordKind where
  | arenaConfig
  | arena
  | item
  | vector3
  | rgb
deriving DecidableEq, Repr, Inhabited

namespace RecordKind

/-- Every kind, in the order in which tags are looked up. -/
def all : List RecordKind := [arenaConfig, arena, item, vector3, rgb]

/-- The tag of a kind, without the exclamation mark. -/
def tag : RecordKind → String
  | arenaConfig => "ArenaConfig"
  | arena => "Arena"
  | item => "Item"
  | vector3 => "Vector3"
  | rgb => "RGB"

/-- The kind that a tag stands for. -/
def ofTag? (tag : String) : Option RecordKind :=
  all.find? fun kind => kind.tag == tag

@[simp] theorem ofTag?_tag (kind : RecordKind) : ofTag? kind.tag = some kind := by
  cases kind <;> rfl

/-- The fields that a record of this kind may have, in the order in which they are written. -/
def fields : RecordKind → List String
  | arenaConfig =>
    ["arenas", "randomizeArenas", "showNotification", "canResetEpisode", "canChangePerspective",
      metaField]
  | arena => ["pass_mark", "t", "items"]
  | item => ["name", "positions", "rotations", "colors", "sizes"]
  | vector3 => ["x", "y", "z"]
  | rgb => ["r", "g", "b"]

/-- Vectors and colors are always written on one line. -/
def isFlow : RecordKind → Bool
  | vector3 | rgb => true
  | _ => false

end RecordKind

end ArenaVariations
