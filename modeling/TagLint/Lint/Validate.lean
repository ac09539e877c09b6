import TagLint.Lint.AllowList
import TagLint.Tag.Scan

/-!
# Validating entries

Every rule that an entry breaks is reported: first what is wrong with the key, then with
the value, then with the separator. An empty value is reported as such and nothing more is
asked of it.
-/

namespace TagLint

namespace Entry

/-- The key must be present and allowed. -/
def keyProblems (allowed : AllowList) (entry : Entry) : List Problem :=
  if entry.key.isEmpty then [⟨.emptyKey, entry.keyOffset⟩]
  else if allowed.contains entry.key then []
  else [⟨.unknownKey entry.key, entry.keyOffset⟩]

/-- A value must be quoted, and its quote closed. -/
def quoteProblems (entry : Entry) : List Problem :=
  if !entry.quoted then [⟨.unquotedValue, entry.valueOffset⟩]
  else if entry.unterminated then [⟨.unterminatedQuote, entry.valueEnd⟩]
  else []

/-- A colon must stand before the value; it is missed one byte before it. -/
def separatorProblems (entry : Entry) : List Problem :=
  if entry.separated then [] else [⟨.missingSeparator, entry.valueOffset - 1⟩]

/-- The value must be present, quoted and separated from its key. -/
def valueProblems (entry : Entry) : List Problem :=
  if entry.value.isEmpty then [⟨.emptyValue, entry.valueOffset⟩]
  else entry.quoteProblems ++ entry.separatorProblems

/-- The rules that an entry breaks. -/
def problems (allowed : AllowList) (entry : Entry) : List Problem :=
  entry.keyProblems allowed ++ entry.valueProblems

end Entry

/-- The problems of all entries, in their order. -/
def validate (allowed : AllowList) (entries : List Entry) : List Problem :=
  entries.flatMap (Entry.problems allowed)

namespace ScanResult

/-- What scanning found followed by what validation finds. -/
def check (allowed : AllowList) (found : ScanResult) : List Problem :=
  found.problems ++ validate allowed found.entries

end ScanResult

/-- The problems of a tag literal: those of scanning, then those of validation. -/
def TagLiteral.check (allowed : AllowList) (literal : TagLiteral) : List Problem :=
  literal.scan.check allowed

/-- The problems of a bare tag content at the start of its source. -/
def checkContent (allowed : AllowList) (content : List Char) : List Problem :=
  (scan content 0).check allowed

end TagLint
