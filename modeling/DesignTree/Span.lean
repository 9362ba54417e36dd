/-!
# DesignTree.Span

Source positions. A span is a half-open byte interval `[start, stop)` in one source buffer, and
every later layer copies spans without looking into them.

Design points:

* The offsets are 32-bit words, the width in which a buffer is addressed. No operation wraps:
  spans are compared, cut and joined, and never moved.
* `Span.tryNew` and `Span.tryFromRange` are the constructors for untrusted offsets; they refuse
  an end before the start. A span read back from storage is taken as it is, so `length` has to
  be defined on inverted spans too: it is zero there.
* Every query about two spans looks at the buffer first. Joining spans of different buffers
  keeps the first one, for there is no interval that covers both.
-/

namespace DesignTree

/-- Names one source buffer. The buffers are numbered by the front end; number zero is the
buffer of nodes that come from no text. -/
structure SourceId where
  raw : UInt32
  deriving DecidableEq, Inhabited

namespace SourceId

/-- The buffer of nodes that come from no text. -/
def dummy : SourceId := ⟨0⟩

/-- Buffers are ordered by number. -/
instance : Ord SourceId := ⟨fun a b => compare a.raw b.raw⟩

/-- The form in which diagnostics name a buffer. -/
def text (source : SourceId) : String := s!"SourceId({source.raw})"

end SourceId

/-- A half-open byte interval `[start, stop)` in the buffer `source`. -/
structure Span where
  source : SourceId
  start : UInt32
  stop : UInt32
  deriving DecidableEq, Inhabited

/-- Why two offsets do not make a span. -/
inductive SpanError
  /-- The first offset does not fit a 32-bit word. -/
  | startTooLarge (offset : Nat)
  /-- The second offset does not fit a 32-bit word. -/
  | endTooLarge (offset : Nat)
  /-- The end lies before the start. -/
  | inverted (start stop : UInt32)
  deriving DecidableEq

namespace SpanError

/-- A number in hexadecimal, with capital letters and no leading zeros. -/
def hexText (n : Nat) : String :=
  String.ofList ((Nat.toDigits 16 n).map Char.toUpper)

/-- The diagnostic for a pair of offsets that make no span. -/
def message : SpanError → String
  | startTooLarge offset =>
    s!"span start {offset} (0x{hexText offset}) exceeds u32::MAX (0x{hexText 4294967295})"
  | endTooLarge offset =>
    s!"span end {offset} (0x{hexText offset}) exceeds u32::MAX (0x{hexText 4294967295})"
  | inverted start stop => s!"span end {stop} lies before start {start}"

end SpanError

namespace Span

/-! ## Construction -/

/-- The span of nodes that come from no text. -/
def dummy : Span := ⟨SourceId.dummy, 0, 0⟩

/-- The empty span in front of one offset. -/
def point (source : SourceId) (offset : UInt32) : Span := ⟨source, offset, offset⟩

/-- The span between two offsets, which must not be inverted. -/
def tryNew (source : SourceId) (start stop : UInt32) : Except SpanError Span :=
  if stop < start then .error (.inverted start stop) else .ok ⟨source, start, stop⟩

/-- The word that holds an offset, if there is one. -/
def word? (offset : Nat) : Option UInt32 :=
  if offset < UInt32.size then some (UInt32.ofNat offset) else none

/-- The span between two unbounded offsets. The start is checked first, then the end, then
their order. -/
def tryFromRange (source : SourceId) (start stop : Nat) : Except SpanError Span :=
  match word? start with
  | none => .error (.startTooLarge start)
  | some first =>
    match word? stop with
    | none => .error (.endTooLarge stop)
    | some last => tryNew source first last

/-! ## Queries -/

/-- How many bytes the span covers; zero for an inverted span. -/
def length (s : Span) : Nat := s.stop.toNat - s.start.toNat

/-- Whether the span starts where it ends. -/
def isEmpty (s : Span) : Bool := s.start == s.stop

/-- Whether the byte at an offset lies in the span. -/
def contains (s : Span) (offset : UInt32) : Bool := s.start ≤ offset && offset < s.stop

/-- Whether the first span reaches at least as far as the second on both sides. An empty span
inside the bounds, or on them, counts as contained. -/
def containsSpan (s t : Span) : Bool :=
  s.source == t.source && s.start ≤ t.start && t.stop ≤ s.stop

/-- Whether the spans share a byte; an empty span shares none. -/
def overlaps (s t : Span) : Bool :=
  s.source == t.source && !s.isEmpty && !t.isEmpty && s.start < t.stop && t.start < s.stop

/-- The smallest span around both, if they lie in one buffer, and else the first. -/
def merge (s t : Span) : Span :=
  if s.source = t.source then
    { source := s.source, start := min s.start t.start, stop := max s.stop t.stop }
  else
    s

/-! ## Text -/

/-- The interval, without its buffer: the form diagnostics for users have. -/
def text (s : Span) : String := s!"{s.start}..{s.stop}"

/-- The interval with its buffer's number in front. -/
def qualifiedText (s : Span) : String := s!"{s.source.raw}:{s.start}..{s.stop}"

end Span

end DesignTree
