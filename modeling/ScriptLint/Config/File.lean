/-
Configuration files.

A project keeps its configuration in a file of a fixed name, which counts for
the directory of the file and everything below:

* **`Config.load`** — the configuration that a file holds;
* **`Config.locate`** — the nearest configuration file.
-/
import ScriptLint.Config
import ScriptLint.Disk

namespace ScriptLint

/-- The path, the path above it, and so on up to the root.  The number bounds
the number of paths. -/
def Path.ancestors : Nat → Path → List Path
  | 0, p => [p]
  | n + 1, p => if p.isRoot ∨ p.parent.same p then [p] else p :: ancestors n p.parent

namespace Config

/-- The name of configuration files. -/
def fileName : Path := ".modlintrc.json"

/-- The configuration of a file.  The failure names the file. -/
def load (d : Disk) (p : Path) : Outcome Config :=
  if !d.isFile p then .error ⟨.config, "Configuration file not found", some p.text⟩
  else do
    let text ← d.read p
    (parse text).mapError fun fault => fault.error.inContext p.text

/-- The configuration file in the directory of a path or in the nearest
directory above that has one. -/
def locate (d : Disk) (start : Path) : Option Path :=
  if start.isEmpty then none
  else
    let p := d.directory / start
    let directory := if d.isFile p then p.parent else p
    ((directory.ancestors directory.text.length).map (· / fileName)).find? d.isFile

end Config

end ScriptLint
