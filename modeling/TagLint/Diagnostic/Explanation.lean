import TagLint.Diagnostic.Code

/-!
# Explanations of the codes

The page that the `explain` command prints for each code: what is wrong, an example, and
how to put it right.
-/

namespace TagLint

/-- A page of lines, each ended by a newline. -/
def page (lines : List String) : String := lines.foldr (fun line rest => line ++ "\n" ++ rest) ""

namespace Code

/-- The explanation of a code. -/
def explanation : Code → String
  | .malformedLiteral => page [
      "# T0001: Tag Is Not a String Literal",
      "",
      "A struct tag must be written as a string literal, either raw (backquoted)",
      "or interpreted (double-quoted). The tag text could not be unquoted.",
      "",
      "Scanning continues on the text with any leading and trailing quote",
      "characters removed, so further problems may be reported for the same tag.",
      "",
      "## Example",
      "",
      "```go",
      "type A struct \x7b",
      "    ID int `json:\"id\"",
      "\x7d",
      "```",
      "",
      "The raw literal is never closed.",
      "",
      "## Solution",
      "",
      "Close the literal with the same delimiter that opens it:",
      "",
      "```go",
      "type A struct \x7b",
      "    ID int `json:\"id\"`",
      "\x7d",
      "```"]
  | .invalidKeyChar => page [
      "# T0002: Invalid Tag Key Character",
      "",
      "A tag key contains a character keys may not hold. Keys must not contain",
      "spaces, double quotes, colons or control characters, and a control",
      "character (tab, newline) is never allowed between pairs.",
      "",
      "The character is reported where it appears. It stays part of the key, so",
      "the key may also be reported as unknown.",
      "",
      "## Example",
      "",
      "```go",
      "type A struct \x7b",
      "    ID int `json :\"id\"`",
      "\x7d",
      "```",
      "",
      "## Solution",
      "",
      "Remove the character, and separate pairs with a single space:",
      "",
      "```go",
      "type A struct \x7b",
      "    ID int `json:\"id\"`",
      "\x7d",
      "```"]
  | .emptyKey => page [
      "# T0003: Empty Tag Key",
      "",
      "A `:` separator appears with no key before it.",
      "",
      "## Example",
      "",
      "```go",
      "type A struct \x7b",
      "    ID int `:\"id\"`",
      "\x7d",
      "```",
      "",
      "## Solution",
      "",
      "Name the key:",
      "",
      "```go",
      "type A struct \x7b",
      "    ID int `json:\"id\"`",
      "\x7d",
      "```"]
  | .unknownKey => page [
      "# T0004: Unknown Tag Key",
      "",
      "The tag key is not in the allow-list of this run. Keys are compared",
      "exactly: no trimming, no case folding.",
      "",
      "## Example",
      "",
      "With `--allow-key json`:",
      "",
      "```go",
      "type A struct \x7b",
      "    ID int `json:\"id\" xml:\"id\"`",
      "\x7d",
      "```",
      "",
      "## Solution",
      "",
      "Remove the pair, fix a misspelled key, or allow the key. `--allow-key`",
      "may be repeated and each value may list several comma-separated keys:",
      "",
      "```sh",
      "allowtags check --allow-key json,xml manifest.json",
      "```"]
  | .emptyValue => page [
      "# T0005: Empty Tag Value",
      "",
      "A key has no value: `key:\"\"`, `key:` followed by a space or the end of",
      "the tag, or a bare `key`.",
      "",
      "## Example",
      "",
      "```go",
      "type A struct \x7b",
      "    ID int `json:\"\" xml:\"id\"`",
      "\x7d",
      "```",
      "",
      "## Solution",
      "",
      "Give the key a value, or remove the pair:",
      "",
      "```go",
      "type A struct \x7b",
      "    ID int `json:\"id\" xml:\"id\"`",
      "\x7d",
      "```"]
  | .unquotedValue => page [
      "# T0006: Unquoted Tag Value",
      "",
      "Tag values must be wrapped in double quotes. An unquoted value runs until",
      "the next space.",
      "",
      "## Example",
      "",
      "```go",
      "type A struct \x7b",
      "    ID int `json:id,omitempty`",
      "\x7d",
      "```",
      "",
      "## Solution",
      "",
      "```go",
      "type A struct \x7b",
      "    ID int `json:\"id,omitempty\"`",
      "\x7d",
      "```"]
  | .unterminatedQuote => page [
      "# T0007: Unterminated Value Quote",
      "",
      "A value opened with `\"` reached the end of the tag without a closing `\"`.",
      "The problem is reported just past the last value character.",
      "",
      "A `\"` preceded by an odd number of backslashes is escaped and does not",
      "close the value.",
      "",
      "## Example",
      "",
      "```go",
      "type A struct \x7b",
      "    ID int `json:\"id,omitempty`",
      "\x7d",
      "```",
      "",
      "## Solution",
      "",
      "```go",
      "type A struct \x7b",
      "    ID int `json:\"id,omitempty\"`",
      "\x7d",
      "```"]
  | .missingSeparator => page [
      "# T0008: Missing Key-Value Separator",
      "",
      "A key is directly followed by a quoted value, with no `:` between them.",
      "The problem is reported just before the value.",
      "",
      "## Example",
      "",
      "```go",
      "type A struct \x7b",
      "    ID int `json\"id\"`",
      "\x7d",
      "```",
      "",
      "## Solution",
      "",
      "```go",
      "type A struct \x7b",
      "    ID int `json:\"id\"`",
      "\x7d",
      "```"]

end Code

end TagLint
