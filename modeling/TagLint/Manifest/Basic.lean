import TagLint.Lint.Walk
import TagLint.Span

/-!
# Manifests

A manifest lists the declarations of one source file. Where it carries the source, every
tag must lie inside it; in any case a tag must end at an offset that can be reported.
`Manifest.fault?` gives the first tag that breaks one of these rules.
-/

namespace TagLint

/-- The declarations of one source file. -/
structure Manifest where
  /-- How the source file is named in reports. -/
  path : String
  /-- The text of the source file, if it is at hand. -/
  source? : Option String
  decls : List TypeDecl
deriving DecidableEq, Repr

/-- Why a manifest cannot be used. Each case names the file that was to be loaded. -/
inductive LoadError where
  | unreadable (file : String)
  | malformed (file : String)
  /-- A tag reaches past the largest offset. -/
  | overflow (file decl field : String) (cause : RangeError)
  /-- A tag ends past the end of the source. -/
  | outOfRange (file decl field : String) (stop sourceLength : Nat)
deriving DecidableEq, Repr

/-- What the error tells a reader. -/
def LoadError.message : LoadError → String
  | .unreadable file => "cannot read '" ++ file ++ "'"
  | .malformed file => "invalid manifest '" ++ file ++ "'"
  | .overflow file decl field cause =>
    file ++ ": tag of " ++ decl ++ "." ++ field ++ " does not fit in a 32-bit span: " ++
      cause.message
  | .outOfRange file decl field stop sourceLength =>
    file ++ ": tag of " ++ decl ++ "." ++ field ++ " ends at byte " ++ Nat.repr stop ++
      ", past the end of the " ++ Nat.repr sourceLength ++ "-byte source"

/-- The range of a tag in its source, or the error that it does not fit. -/
def TagLiteral.span (tag : TagLiteral) : Except RangeError Span :=
  Span.ofRange tag.offset (tag.offset + tag.text.utf8ByteSize)

/-- What is wrong with the place of a tag in a source. -/
def TaggedField.fault? (file : String) (source? : Option String) (place : TaggedField) :
    Option LoadError :=
  match place.tag.span with
  | .error cause =>
    some (.overflow file place.decl.displayName place.field.displayName cause)
  | .ok span => do
    let source ← source?
    if source.utf8ByteSize < span.stop then
      some (.outOfRange file place.decl.displayName place.field.displayName span.stop
        source.utf8ByteSize)
    else none

/-- The first fault of a manifest, in the order of declarations and fields. -/
def Manifest.fault? (file : String) (manifest : Manifest) : Option LoadError :=
  (taggedFields manifest.decls).findSome? (TaggedField.fault? file manifest.source?)

end TagLint
