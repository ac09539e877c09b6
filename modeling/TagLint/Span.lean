import TagLint.Offset

/-!
# Spans

A span is a half-open range of byte offsets. Spans are reported, so both ends must be
offsets that can be reported: `Span.ofRange` refuses a range that reaches past the limit
and says which end is at fault.
-/

namespace TagLint

/-- The bytes from `start` up to, but not including, `stop`. -/
structure Span where
  start : Offset
  /-- Just past the last byte. -/
  stop : Offset
deriving DecidableEq, Repr

/-- Why a range is no span. -/
inductive RangeError where
  /-- The range starts past the limit. -/
  | startTooLarge (start : Nat)
  /-- The range starts within the limit and ends past it. -/
  | endTooLarge (stop : Nat)
deriving DecidableEq, Repr

namespace Span

/-- The empty span at an offset. -/
def point (offset : Offset) : Span := ⟨offset, offset⟩

/-- The span of a range, if both ends can be reported. -/
def ofRange (start stop : Nat) : Except RangeError Span :=
  if Offset.limit < start then .error (.startTooLarge start)
  else if Offset.limit < stop then .error (.endTooLarge stop)
  else .ok ⟨start, stop⟩

/-- A span is written as its two ends around two dots. -/
def toText (span : Span) : String :=
  Nat.repr span.start ++ ".." ++ Nat.repr span.stop

end Span

/-- A number in base sixteen, with digits in upper case. -/
def upperHex (n : Nat) : String :=
  String.ofList ((Nat.toDigits 16 n).map Char.toUpper)

/-- Names the end at fault in both bases, beside the limit it exceeds. -/
def RangeError.message : RangeError → String
  | .startTooLarge start => excess "start" start
  | .endTooLarge stop => excess "end" stop
where
  excess (which : String) (value : Nat) : String :=
    "span " ++ which ++ " " ++ Nat.repr value ++ " (0x" ++ upperHex value ++
      ") exceeds u32::MAX (0x" ++ upperHex Offset.limit ++ ")"

end TagLint
