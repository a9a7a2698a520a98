/-
**The byte stream of a parse.**

Tokenizers read a document byte by byte through a stream.  The stream steps over the gaps between
the ranges that are parsed, and notes one past the furthest byte that was looked at, so that a later
parse knows which tokens an edit can affect.  It holds two windows of the document: the one that it
reads from, and one that looking around has opened.

Main definitions:

* `Token` — what is known of the token being read;
* `Stream`, `Stream.start` — the stream and its beginning;
* `Stream.peek`, `Stream.advance`, `Stream.accept`, `Stream.acceptTo`, `Stream.reset`,
  `Stream.read` — its operations;
* `Stream.clip`, `Stream.charEnd` — positions moved out of gaps, and the end of a character.

Main results:

* `Stream.accept_zero` — a token that ends where the stream stands is accepted unless it starts
  later.
-/

import IncrementalLR.Error
import IncrementalLR.Input.Document
import IncrementalLR.Input.Ranges

set_option relaxedAutoImplicit false
set_option autoImplicit false

namespace IncrementalLR

/-- What is known of a token. -/
structure Token where
  /-- Where it starts; none before anything was read. -/
  start : Option Nat := none
  /-- The accepted term. -/
  value : Option Nat := none
  stop : Nat := 0
  /-- A further term for the same text. -/
  extended : Option Nat := none
  /-- One past the furthest byte that was looked at. -/
  lookAhead : Nat := 0
  /-- The tokenizer mask of the state for which the token was read. -/
  mask : Nat := 0
  /-- The context hash for which the token was read. -/
  context : Nat := 0
deriving Repr, DecidableEq, Inhabited

/-- The token to read at a position instead of an older one. -/
def Token.restart (t : Token) (pos : Nat) : Token :=
  { t with start := some pos, lookAhead := pos + 1, value := none, extended := none }

/-- The token with a byte at `pos` looked at. -/
def Token.look (t : Token) (pos : Nat) : Token :=
  if t.lookAhead ≤ pos then { t with lookAhead := pos + 1 } else t

/-- The stream of bytes of a parse. -/
structure Stream where
  doc : Document
  ranges : Ranges
  /-- The window that is read from, and the place in it. -/
  window : Window
  offset : Nat := 0
  /-- The window that looking around has opened. -/
  spare : Window := ⟨0, 0⟩
  /-- The byte at the position; none at the end. -/
  next : Option UInt8 := none
  token : Token := {}
  pos : Nat
  /-- The end of the last range. -/
  stop : Nat

namespace Stream

/-! ### Windows -/

/-- Opens the window at the position: the spare one if the position lies in it, else a new one
that ends with the range. -/
def openWindow (s : Stream) : Stream :=
  if s.spare.contains s.pos then
    { s with window := s.spare, spare := s.window, offset := s.pos - s.spare.pos }
  else
    { s with
      spare := s.window, offset := 0,
      window := (s.doc.window s.pos).cut (s.ranges.current.stop - s.pos) }

/-- Reads the byte at the position. -/
def fetch (s : Stream) : Stream :=
  let s := if s.window.size ≤ s.offset then s.openWindow else s
  { s with next := s.doc.byteIn? s.window s.offset }

/-- The stream at the start of its ranges. -/
def start (doc : Document) (ranges : List Span) : Stream :=
  let r := Ranges.ofList ranges
  fetch
    { doc, ranges := r, window := ⟨r.current.start, 0⟩, pos := r.current.start,
      stop := r.toLast.current.stop }

/-- The stream at its end. -/
def finished (s : Stream) : Stream :=
  { s with
    pos := s.stop, ranges := s.ranges.toLast, window := ⟨s.stop, 0⟩, offset := 0, next := none }

/-! ### Looking and moving -/

/-- The start of the token being read. -/
def tokenStart (s : Stream) : Nat := s.token.start.getD s.pos

/-- Looks at the byte at an offset from the position. -/
def peek (s : Stream) (offset : Int) : Option UInt8 × Stream :=
  let i := (s.offset : Int) + offset
  if 0 ≤ i && i < s.window.size then
    (s.doc.byteIn? s.window i.toNat, { s with token := s.token.look (s.pos + offset).toNat })
  else
    match s.ranges.resolve s.pos offset false with
    | none => (none, s)
    | some pos =>
        if s.spare.contains pos then
          (s.doc.byteIn? s.spare (pos - s.spare.pos), { s with token := s.token.look pos })
        else
          let w := (s.doc.window pos).cut ((s.ranges.onward pos).current.stop - pos)
          (s.doc.byteIn? w 0, { s with spare := w, token := s.token.look pos })

/-- Moves `n` bytes on; at the end of the last range it stops. -/
def advance (s : Stream) (n : Nat) : Stream :=
  let s := { s with offset := s.offset + n }
  match Ranges.advance s.ranges.before s.ranges.current s.ranges.after s.pos n with
  | none => s.finished
  | some (pos, ranges) => fetch { s with pos, ranges, token := s.token.look pos }

/-- Moves on while the byte at the position lies between two codes, -1 standing for the end. -/
def skipWhileF (lo hi : Int) : Nat → Stream → Stream
  | 0, s => s
  | fuel + 1, s =>
      let code : Int := match s.next with
        | some b => b.toNat
        | none => -1
      if lo ≤ code && code ≤ hi then skipWhileF lo hi fuel (s.advance 1) else s

/-- Moves on while the byte at the position lies between two codes. -/
def skipWhile (s : Stream) (lo hi : Int) : Stream := skipWhileF lo hi (s.stop - s.pos + 1) s

/-- Starts over at a position, for a token to be read there if one is given. -/
def reset (s : Stream) (pos : Nat) (token : Option Token) : Stream :=
  let s := { s with token := (token.map (·.restart pos)).getD {} }
  if s.pos = pos then s
  else if s.stop ≤ pos then finished { s with pos }
  else
    fetch <|
      if s.window.contains pos then
        { s with pos, ranges := s.ranges.seek pos, offset := pos - s.window.pos }
      else
        { s with
          pos, ranges := s.ranges.seek pos, window := { s.window with size := 0 }, offset := 0 }

/-! ### Accepting tokens -/

/-- Accepts a token that ends at an offset from the position; its end has to lie in the ranges and
not before its start. -/
def accept (s : Stream) (term : Nat) (offset : Int) : Except ParseError Stream :=
  let stop := if offset = 0 then some s.pos else s.ranges.resolve s.pos offset true
  match stop with
  | some stop =>
      if s.token.start.all (· ≤ stop) then
        .ok { s with token := { s.token with value := some term, stop } }
      else .error (.tokenOutOfBounds s.tokenStart (some stop))
  | none => .error (.tokenOutOfBounds s.tokenStart none)

/-- Accepts a token that ends at a position, whatever it is. -/
def acceptTo (s : Stream) (term stop : Nat) : Stream :=
  { s with token := { s.token with value := some term, stop } }

/-- A token is refused for its bounds only. -/
theorem accept_error {s : Stream} {term : Nat} {offset : Int} {e : ParseError}
    (h : s.accept term offset = .error e) : ∃ start stop, e = .tokenOutOfBounds start stop := by
  unfold accept at h
  dsimp only at h
  split at h
  · split at h
    · cases h
    · exact ⟨_, _, (Except.error.inj h).symm⟩
  · exact ⟨_, _, (Except.error.inj h).symm⟩

theorem accept_zero {s : Stream} {term : Nat} (h : s.token.start.all (· ≤ s.pos) = true) :
    s.accept term 0 = .ok (s.acceptTo term s.pos) := by
  simp [accept, acceptTo, h]

/-! ### Positions and text -/

/-- A position moved out of a gap to the start of the next range. -/
def clip (s : Stream) (pos : Nat) : Nat :=
  if s.ranges.current.start ≤ pos && pos < s.ranges.current.stop then pos
  else
    match s.ranges.toList.find? fun r => pos < r.stop with
    | some r => max pos r.start
    | none => s.stop

/-- Moves a position on while a character continues there. -/
def charEndF (s : Stream) : Nat → Nat → Nat
  | 0, pos => pos
  | fuel + 1, pos =>
      if pos < s.stop && (s.doc.byteIn? (s.doc.window pos) 0).any Text.isContinuation then
        charEndF s fuel (s.clip (pos + 1))
      else pos

/-- The end of the character that starts at a position. -/
def charEnd (s : Stream) (pos : Nat) : Nat := charEndF s (s.stop - pos) (s.clip (pos + 1))

/-- The text between two positions, gaps left out. -/
def read (s : Stream) (start stop : Nat) : String :=
  if s.window.pos ≤ start && stop ≤ s.window.pos + s.window.size then s.doc.read start stop
  else if s.spare.pos ≤ start && stop ≤ s.spare.pos + s.spare.size then s.doc.read start stop
  else if s.ranges.current.start ≤ start && stop ≤ s.ranges.current.stop then s.doc.read start stop
  else
    let begun := s.ranges.toList.takeWhile fun r => r.start < stop
    let touched := begun.filter fun r => start < r.stop
    String.join (touched.map fun r => s.doc.read (max r.start start) (min r.stop stop))

end Stream

end IncrementalLR
