import TagLint.Json.Decode
import TagLint.Manifest.Basic

/-!
# Loading manifests

A manifest is a JSON document: a record of path, source and declarations, nested records
for declarations, fields and tags. Only the path of a manifest and the text and offset of a
tag must be given. Loading reads a file, decodes it and checks the place of every tag, and a
list of manifests is loaded completely or not at all.
-/

namespace TagLint

/-- A span as a record of its two ends. -/
def Span.ofJson? (value : Json) : Option Span :=
  match Json.fields? ["start", "end"] value with
  | some [start, stop] => do
    return ⟨← Json.required? Json.offset? start, ← Json.required? Json.offset? stop⟩
  | _ => none

/-- A tag as a record. -/
def TagLiteral.ofJson? (value : Json) : Option TagLiteral :=
  match Json.fields? ["text", "offset"] value with
  | some [text, offset] => do
    return ⟨← Json.required? Json.text? text, ← Json.required? Json.offset? offset⟩
  | _ => none

/-- A field as a record. -/
def FieldDecl.ofJson? (value : Json) : Option FieldDecl :=
  match Json.fields? ["name", "offset", "tag"] value with
  | some [name, offset, tag] => do
    return ⟨← Json.defaulting? none (Json.nullable? Json.text?) name,
      ← Json.defaulting? 0 Json.offset? offset,
      ← Json.defaulting? none (Json.nullable? TagLiteral.ofJson?) tag⟩
  | _ => none

/-- A declaration as a record. -/
def TypeDecl.ofJson? (value : Json) : Option TypeDecl :=
  match Json.fields? ["name", "offset", "fields"] value with
  | some [name, offset, fields] => do
    return ⟨← Json.defaulting? none (Json.nullable? Json.text?) name,
      ← Json.defaulting? 0 Json.offset? offset,
      ← Json.defaulting? [] (Json.list? FieldDecl.ofJson?) fields⟩
  | _ => none

namespace Manifest

/-- A manifest as a record. -/
def ofJson? (value : Json) : Option Manifest :=
  match Json.fields? ["path", "source", "decls"] value with
  | some [path, source, decls] => do
    return ⟨← Json.required? Json.text? path,
      ← Json.defaulting? none (Json.nullable? Json.text?) source,
      ← Json.defaulting? [] (Json.list? TypeDecl.ofJson?) decls⟩
  | _ => none

/-- The manifest that a text spells, with every tag in its place. Errors name `file`. -/
def parse (file text : String) : Except LoadError Manifest :=
  match (Json.parse? text.toList).bind ofJson? with
  | none => .error (.malformed file)
  | some manifest =>
    match manifest.fault? file with
    | some error => .error error
    | none => .ok manifest

/-- The manifest in a file of the given content; there may be no content to read, or it may
not be text. -/
def ofFile (file : String) (content? : Option ByteArray) : Except LoadError Manifest :=
  match content?.bind String.fromUTF8? with
  | none => .error (.unreadable file)
  | some text => parse file text

/-- The manifests in some files, or the error of the first that cannot be used. -/
def loadAll (read : String → Option ByteArray) (files : List String) :
    Except LoadError (List Manifest) :=
  files.mapM fun file => ofFile file (read file)

end Manifest

end TagLint
