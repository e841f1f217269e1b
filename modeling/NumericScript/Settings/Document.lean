import NumericScript.Settings
import NumericScript.Yaml.Node.Read
import NumericScript.Yaml.Word

/-! # Settings documents

Settings are written as a YAML document: a mapping from keys to values, some of which are
mappings again.

* What a document does not mention keeps its default.
* A key that is not known, or that is there twice, makes the document invalid.
* A tag does not change what a plain text means, and lets a literal block be a truth value or
  a number.  Only an optional number and a unit of angles look at tags of plain texts. -/

namespace NumericScript

namespace SettingsDocument

open Yaml (Node Style)

/-- The node of the whole document, which tells what aliases stand for. -/
abbrev Root := Node

/-- Entries of a mapping with the texts of their keys. -/
abbrev Fields := List (String × Node)

/-! ### Tags -/

/-- The tag of truth values. -/
def boolTag : String := "tag:yaml.org,2002:bool"

/-- The tag of whole numbers. -/
def intTag : String := "tag:yaml.org,2002:int"

/-- The tag of what is left out. -/
def nullTag : String := "tag:yaml.org,2002:null"

/-- Whether a text may be a value of the type with the tag `expected`. -/
def mayBe (expected : String) (style : Style) (tag : Option String) : Bool :=
  style = .plain || (style = .literal && tag = some expected)

/-! ### Mappings -/

/-- The text of a key. -/
def keyText? (root : Root) (key : Node) : Option String :=
  match root.resolve key with
  | .scalar _ _ text => some text
  | _ => none

/-- The entries of a section, which have only the given keys, and each at most once.  A section
without content has no entries. -/
def fields? (root : Root) (keys : List String) (part : Node) : Option Fields :=
  match root.resolve part with
  | .mapping _ entries => do
    let fs ← entries.mapM fun (key, value) => do return (← keyText? root key, value)
    if fs.all (fun f => f.1 ∈ keys) ∧ (fs.map Prod.fst).Nodup then some fs else none
  | .scalar _ style text => if style = .plain && text.isEmpty then some [] else none
  | .aliasOf _ => none

/-- The value written for a key, or the default. -/
def valueOr {α : Type} (default : α) (read : Node → Option α) (key : String) (fs : Fields) :
    Option α :=
  match fs.lookup key with
  | none => some default
  | some value => read value

/-! ### Values -/

/-- Reads a truth value. -/
def readBool (root : Root) (value : Node) : Option Bool :=
  match root.resolve value with
  | .scalar props style text =>
    if mayBe boolTag style props.tag then Yaml.boolOf? text else none
  | _ => none

/-- Numbers have at most 64 binary digits. -/
def bounded (n : Option Nat) : Option Nat := n.filter (· < UInt64.size)

/-- The number without sign that a text stands for: in base ten without leading zeros, or in
another base behind a mark of that base. -/
def natOf? (text : String) : Option Nat :=
  let digits := match text.toList with
    | '+' :: cs => cs
    | cs => cs
  match digits with
  | '0' :: 'x' :: cs => bounded (Text.natOfBase? 16 cs)
  | '0' :: 'o' :: cs => bounded (Text.natOfBase? 8 cs)
  | '0' :: 'b' :: cs => bounded (Text.natOfBase? 2 cs)
  | ['0'] => some 0
  | '0' :: _ => none
  | cs => bounded (Text.natOfBase? 10 cs)

/-- Reads a number. -/
def readNat (root : Root) (value : Node) : Option Nat :=
  match root.resolve value with
  | .scalar props style text => if mayBe intTag style props.tag then natOf? text else none
  | _ => none

/-- Whether a text with a tag says that there is no value, if that can be told. -/
def isNull? (tag : Option String) (text : String) : Option Bool :=
  match tag with
  | none => some (text.isEmpty || Yaml.isNull text)
  | some tag =>
    if tag ≠ nullTag then some false
    else if Yaml.isNull text then some true
    else none

/-- Reads a number that may be left out. -/
def readLimit (root : Root) (value : Node) : Option (Option Nat) :=
  match root.resolve value with
  | .scalar props .plain text => do
    if (← isNull? props.tag text) then return none
    else return some (← readNat root value)
  | _ => return some (← readNat root value)

/-- The unit of angles with a name. -/
def angleModeOf? : String → Option AngleMode
  | "radians" => some .radians
  | "degrees" => some .degrees
  | _ => none

/-- The name in a tag of the document's own. -/
def ownTag? (tag : String) : Option String :=
  match tag.toList with
  | '!' :: name => some (if name.isEmpty then "!" else String.ofList name)
  | _ => none

/-- Reads a unit of angles: a text, or a tag before nothing. -/
def readAngleMode (root : Root) (value : Node) : Option AngleMode :=
  match root.resolve value with
  | .scalar props style text =>
    match props.tag.bind ownTag? with
    | some name =>
      if style = .plain && (text.isEmpty || Yaml.isNull text) then angleModeOf? name else none
    | none => angleModeOf? text
  | _ => none

/-! ### Sections -/

/-- Reads the settings of suggestions. -/
def readSuggestions (root : Root) (value : Node) : Option SuggestionSettings := do
  let d : SuggestionSettings := {}
  let fs ← fields? root ["max_candidates", "max_distance"] value
  return ⟨← valueOr d.maxCandidates (readNat root) "max_candidates" fs,
    ← valueOr d.maxDistance (readNat root) "max_distance" fs⟩

/-- Reads the settings of the optimizer. -/
def readOptimizer (root : Root) (value : Node) : Option OptimizerSettings := do
  let d : OptimizerSettings := {}
  let fs ← fields? root ["max_rounds"] value
  return ⟨← valueOr d.maxRounds (readNat root) "max_rounds" fs⟩

/-- Reads the settings of the machine. -/
def readMachine (root : Root) (value : Node) : Option MachineSettings := do
  let d : MachineSettings := {}
  let fs ← fields? root ["max_call_depth", "max_steps", "angle_mode"] value
  return ⟨← valueOr d.maxCallDepth (readNat root) "max_call_depth" fs,
    ← valueOr d.maxSteps (readLimit root) "max_steps" fs,
    ← valueOr d.angleMode (readAngleMode root) "angle_mode" fs⟩

/-- Reads all settings. -/
def readSettings (root : Root) : Option Settings := do
  let d : Settings := {}
  let fs ← fields? root ["optimize", "suggestions", "optimizer", "vm"] root
  return ⟨← valueOr d.optimize (readBool root) "optimize" fs,
    ← valueOr d.suggestions (readSuggestions root) "suggestions" fs,
    ← valueOr d.optimizer (readOptimizer root) "optimizer" fs,
    ← valueOr d.machine (readMachine root) "vm" fs⟩

end SettingsDocument

/-- The settings written in a document, if it is valid. -/
def Settings.ofDocument? (text : String) : Option Settings :=
  Yaml.Node.ofText? text >>= SettingsDocument.readSettings

end NumericScript
