/-
**Documents.**

A document is a sequence of bytes that is handed out in windows.  How much of the rest a window holds
is up to the document and may differ from position to position, but a window that starts inside of
the document is not to be empty.

Main definitions:

* `Document`, `Document.window` — documents and their windows;
* `Document.HandsOut` — a document without empty windows;
* `Window`, `Document.byteIn?` — a window and the bytes in it;
* `Document.read` — the text of a range.

Main results:

* `Document.byteIn?_window` — where no window is empty, the first byte of a window is the byte at its
  position.
-/

import IncrementalLR.Text.Utf8

set_option relaxedAutoImplicit false
set_option autoImplicit false

namespace IncrementalLR

/-- A sequence of bytes. -/
structure Document where
  bytes : Array UInt8
  /-- The largest number of bytes in the window that starts at a position; usually all the rest. -/
  windowSize : Nat → Nat := fun pos => bytes.size - pos

/-- The bytes of a document from `pos` on, `size` of them. -/
structure Window where
  pos : Nat
  size : Nat
deriving Repr, DecidableEq, Inhabited

/-- Whether a position lies inside a window. -/
def Window.contains (w : Window) (pos : Nat) : Bool := w.pos ≤ pos && pos < w.pos + w.size

/-- The window with at most `limit` bytes. -/
def Window.cut (w : Window) (limit : Nat) : Window := { w with size := min w.size limit }

namespace Document

/-- The document of a text. -/
def ofText (s : String) : Document := { bytes := Text.toBytes s }

/-- The number of bytes. -/
def size (d : Document) : Nat := d.bytes.size

/-- The window from a position on; empty past the end. -/
def window (d : Document) (pos : Nat) : Window := ⟨pos, min (d.windowSize pos) (d.size - pos)⟩

/-- Every window that starts inside of the document has a byte. -/
def HandsOut (d : Document) : Prop := ∀ pos < d.size, 0 < d.windowSize pos

instance (d : Document) : Decidable d.HandsOut :=
  inferInstanceAs (Decidable (∀ pos < d.size, 0 < d.windowSize pos))

theorem handsOut_ofText (s : String) : (ofText s).HandsOut := fun _ => Nat.sub_pos_of_lt

/-- The byte at a place in a window. -/
def byteIn? (d : Document) (w : Window) (i : Nat) : Option UInt8 :=
  if i < w.size then d.bytes[w.pos + i]? else none

/-- The first byte of the window that is opened at a position. -/
theorem byteIn?_window (d : Document) (h : d.HandsOut) {pos limit : Nat}
    (hlimit : 0 < limit) : d.byteIn? ((d.window pos).cut limit) 0 = d.bytes[pos]? := by
  rcases Nat.lt_or_ge pos d.bytes.size with hlt | hge
  · have hsize : 0 < ((d.window pos).cut limit).size := by
      have hopen : 0 < d.windowSize pos := h pos hlt
      simp only [Window.cut, window, size]
      omega
    rw [byteIn?, if_pos hsize]
    rfl
  · rw [Array.getElem?_eq_none hge, byteIn?]
    split
    · exact Array.getElem?_eq_none hge
    · rfl

/-- The text of a range. -/
def read (d : Document) (start stop : Nat) : String := Text.ofSlice d.bytes start stop

end Document

end IncrementalLR
