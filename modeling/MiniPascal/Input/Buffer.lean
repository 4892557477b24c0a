/-!
The buffer between an input and the reader of its words. It is filled whenever it lacks what is
asked of it, as far as there is room, so that it may hold more than was asked for. It counts bytes
only; what they are is known from the input.
-/

namespace MiniPascal

namespace Input

/-- The most bytes that a word may have together with the blank behind it. -/
def window : Nat := 65536

structure Buffer where
  /-- The bytes there is room for. -/
  capacity : Nat := 0
  /-- The bytes at the front of the input that the buffer holds. -/
  held : Nat := 0
  /-- The bytes behind those it holds. -/
  waiting : Nat := 0
  deriving DecidableEq

namespace Buffer

/-- The room of a buffer that was full: 4096 bytes at first, then twice as much, up to the window. -/
def grown (capacity : Nat) : Nat := if capacity = 0 then 4096 else min (2 * capacity) window

/-- Fetches as much as there is room for. A full buffer grows before. -/
def refill (b : Buffer) : Buffer :=
  let capacity := if b.held = b.capacity then grown b.capacity else b.capacity
  let fetched := min (capacity - b.held) b.waiting
  { capacity, held := b.held + fetched, waiting := b.waiting - fetched }

/-- Refills at most `tries` times, as long as fewer than `n` bytes are held and more can come. -/
def demandWithin (n : Nat) : Nat → Buffer → Buffer
  | 0, b => b
  | tries + 1, b =>
    if n ≤ b.held ∨ b.waiting = 0 then b else demandWithin n tries b.refill

/-- Makes the buffer hold `n` bytes. Every refill brings at least one. -/
def demand (n : Nat) (b : Buffer) : Buffer := demandWithin n n b

/-- Takes `n` bytes from the front. -/
def take (n : Nat) (b : Buffer) : Buffer :=
  let b := b.demand n
  { b with held := b.held - n }

/-- Takes everything, what is waiting included. -/
def drain (b : Buffer) : Buffer := { b with held := 0, waiting := 0 }

end Buffer

end Input

end MiniPascal
