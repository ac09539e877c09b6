import TagLint.Tag.Entry

/-!
# The scanner's state machine

A tag is a sequence of `key:"value"` pairs separated by spaces. `State.step` consumes one
character at a content offset and gives the next state, at most one finished entry, and
whether the character may not stand where it does. The entry under construction travels
inside the state, so there is never more than one. `State.finish?` gives the entry that is
still open when the content ends.

Two rules deserve notice:

* the character after a closing quote is skipped, whatever it is, unless it is a control
  character, which is reported and leaves the next character to be skipped;
* a space or a control character inside a key is reported and stays part of the key.
-/

namespace TagLint

/-- A pair whose key is closed and whose value is not. -/
structure Pending where
  /-- The key; a point span for an empty one. -/
  key : Span
  /-- A colon followed the key. -/
  separated : Bool
deriving DecidableEq, Repr

/-- The entry that a pair becomes with its value. -/
def Pending.close (pair : Pending) (value : Span) (quoted unterminated : Bool) : RawEntry :=
  ⟨pair.key, value, quoted, unterminated, pair.separated⟩

/-- Where in a tag the scanner stands. Offsets are relative to the content. -/
inductive State where
  /-- Between pairs. -/
  | between
  /-- Inside a key that began at `start`. -/
  | key (start : Offset)
  /-- Just after a colon. -/
  | separated (pair : Pending)
  /-- Just after an opening quote. -/
  | opened (pair : Pending)
  /-- Inside a value that began at `start`; `escapes` counts the backslashes of the run
  that ends here. Only its parity matters, so it may wrap. -/
  | value (pair : Pending) (start : Offset) (quoted : Bool) (escapes : UInt32)
  /-- Just after a closing quote. -/
  | closed
deriving DecidableEq, Repr

/-- What one character leads to. -/
structure Step where
  /-- The state after the character. -/
  next : State
  /-- The entry that the character finishes. -/
  entry? : Option RawEntry
  /-- Whether the character may not stand where it does. -/
  invalid : Bool
deriving DecidableEq, Repr

namespace Step

/-- A character that only moves the scanner on. -/
def advance (next : State) : Step := ⟨next, none, false⟩

/-- A character that finishes an entry. -/
def finish (next : State) (entry : RawEntry) : Step := ⟨next, some entry, false⟩

/-- A character that is reported and changes nothing. -/
def reject (state : State) : Step := ⟨state, none, true⟩

end Step

namespace State

/-- Whether the scanner is inside a value, the one place where control characters may
stand. -/
def inValue : State → Bool
  | .value .. => true
  | _ => false

/-- The first character of a value. -/
def startValue (pair : Pending) (offset : Offset) (quoted : Bool) (c : Char) : State :=
  .value pair offset quoted (if c = '\\' then 1 else 0)

/-- Consumes character `c` at content offset `offset`, outside the rule on control
characters. -/
def advance (offset : Offset) (c : Char) : State → Step
  | .between =>
    if c = ' ' then .advance .between
    else if c = ':' then .advance (.separated ⟨.point offset, true⟩)
    else if c = '"' then .reject .between
    else .advance (.key offset)
  | .key start =>
    if c = ':' then .advance (.separated ⟨⟨start, offset⟩, true⟩)
    else if c = '"' then .advance (.opened ⟨⟨start, offset⟩, false⟩)
    else if c = ' ' then .reject (.key start)
    else .advance (.key start)
  | .separated pair =>
    if c = ' ' then .finish .between (pair.close (.point (offset - 1)) false false)
    else if c = '"' then .advance (.opened pair)
    else .advance (startValue pair offset false c)
  | .opened pair =>
    if c = '"' then .finish .closed (pair.close (.point (offset - 1)) true false)
    else .advance (startValue pair offset true c)
  | .value pair start quoted escapes =>
    if c = '\\' then .advance (.value pair start quoted (escapes + 1))
    else if quoted && c == '"' && escapes % 2 == 0 then
      .finish .closed (pair.close ⟨start, offset⟩ true false)
    else if !quoted && c == ' ' then
      .finish .between (pair.close ⟨start, offset⟩ false false)
    else .advance (.value pair start quoted 0)
  | .closed => .advance .between

/-- Consumes character `c` at content offset `offset`. A control character outside a value
is reported and changes nothing. -/
def step (offset : Offset) (c : Char) (state : State) : Step :=
  if Text.isControl c && !state.inValue then .reject state else state.advance offset c

/-- The entry that is still open when the content ends at `stop`. -/
def finish? (stop : Offset) : State → Option RawEntry
  | .between => none
  | .closed => none
  | .key start => some ⟨⟨start, stop⟩, .point stop, false, false, false⟩
  | .separated pair => some (pair.close (.point stop) false false)
  | .opened pair => some (pair.close (.point stop) true false)
  | .value pair start quoted _ => some (pair.close ⟨start, stop⟩ quoted quoted)

end State

end TagLint
