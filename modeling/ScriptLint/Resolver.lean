/-
From import specifiers to files.

A specifier that is a path is looked up next to the importing file: as it
stands, with each known extension, and as a directory with an index file, in
this order.  Any other specifier names a package.
-/
import ScriptLint.Error
import ScriptLint.Path

namespace ScriptLint

/-- How specifiers are looked up. -/
structure Resolver where
  /-- The extensions that are tried, in this order. -/
  extensions : List Bytes := List.map Bytes.ofString
    [".js", ".mjs", ".cjs", ".jsx", ".ts", ".mts", ".cts", ".tsx", ".vue", ".svelte", ".astro"]
  /-- Packages are reported as unresolved rather than ignored. -/
  reportsPackages : Bool := false
  deriving DecidableEq, Inhabited, Repr

/-- Why a specifier leads to no file. -/
inductive Unresolved where
  | package (specifier : Bytes)
  | missing (specifier : Bytes)
  deriving DecidableEq, Inhabited, Repr

/-- The failure to resolve a specifier from a directory. -/
def Unresolved.error (directory : Path) : Unresolved → Error
  | .package specifier =>
    ⟨.resolve, "Cannot resolve package '" ++ specifier ++ "'", some directory.text⟩
  | .missing specifier =>
    ⟨.resolve, "Cannot find module '" ++ specifier ++ "'", some directory.text⟩

namespace Resolver

/-- The resolver is concerned with the specifier. -/
def handles (r : Resolver) (specifier : Bytes) : Bool :=
  specifier ≠ [] && (r.reportsPackages || isPathSpecifier specifier)

/-- The paths that a specifier may stand for, in the order in which they are
tried. -/
def candidates (r : Resolver) (directory : Path) (specifier : Bytes) : List Path :=
  let target := Path.absoluteFrom ⟨specifier⟩ directory
  target :: r.extensions.map (fun e => ⟨target.text ++ e⟩) ++
    r.extensions.map fun e => target / (⟨"index" ++ e⟩ : Path)

/-- The file that a specifier stands for in a directory. -/
def resolve (r : Resolver) (isFile : Path → Bool) (directory : Path) (specifier : Bytes) :
    Except Unresolved Path :=
  if !isPathSpecifier specifier then .error (.package specifier)
  else match (r.candidates directory specifier).find? isFile with
    | some p => .ok p
    | none => .error (.missing specifier)

end Resolver

end ScriptLint
