import DelayLine.Saturating

/-!
# Clocks moved by hand

A clock shows milliseconds since some moment and moves only when it is told to, around `2 ^ 64`.
Main statement: `advance_ofMillis`, a span of whole milliseconds moves it by as many.
-/

namespace DelayLine

structure Span where
  seconds : UInt64
  nanoseconds : Nat
deriving DecidableEq, Repr

namespace Span

def millis (s : Span) : Nat := s.seconds.toNat * 1000 + s.nanoseconds / 1000000

def ofMillis (ms : Millis) : Span := ⟨ms / 1000, ms.toNat % 1000 * 1000000⟩

@[simp] theorem millis_ofMillis (ms : Millis) : (ofMillis ms).millis = ms.toNat := by
  simp only [millis, ofMillis, UInt64.toNat_div, UInt64.reduceToNat]
  omega

end Span

structure Clock where
  now : Millis
deriving DecidableEq, Repr

namespace Clock

def set (_ : Clock) (now : Millis) : Clock := ⟨now⟩

/-- Moves the clock forward by the whole milliseconds of a span. -/
def advance (c : Clock) (s : Span) : Clock := ⟨c.now + .ofNat s.millis⟩

def advanceMillis (c : Clock) (ms : Millis) : Clock := ⟨c.now + ms⟩

theorem advance_ofMillis (c : Clock) (ms : Millis) :
    c.advance (.ofMillis ms) = c.advanceMillis ms := by
  rw [advance, advanceMillis, Span.millis_ofMillis, UInt64.ofNat_toNat]

end Clock

end DelayLine
