/-
Which files can be loaded.

The extension of a file decides whether it can be loaded and how scripts are
kept in it.
-/
import ScriptLint.Segment
import ScriptLint.Table

namespace ScriptLint

/-- The forms of files by extension. -/
abbrev Loaders := Table FileForm

namespace Loaders

/-- The extensions that are known from the start. -/
def standard : Loaders :=
  Table.ofList <|
    ([".js", ".mjs", ".cjs", ".jsx", ".ts", ".mts", ".cts", ".tsx"] : List Bytes).map (·, .script) ++
    ([".vue", ".svelte", ".astro", ".html"] : List Bytes).map (·, .markup)

/-- The entries whose extension is listed. -/
def retain (extensions : List Bytes) (loaders : Loaders) : Loaders :=
  loaders.filter fun entry => entry.1 ∈ extensions

/-- Files of an extension can be loaded. -/
def supports (extension : Bytes) (loaders : Loaders) : Bool :=
  (loaders.find? extension).isSome

end Loaders

end ScriptLint
