import MiniPascal.Text.Utf8

/-!
Output. A sink keeps what was written to it. It may take a limited number of writes and refuse every
one after them.
-/

namespace MiniPascal

structure Sink where
  /-- The bytes of each write, the latest first. -/
  writes : List (List UInt8) := []
  /-- The number of writes still accepted, if there is a limit. -/
  room : Option Nat := none
  /-- The reason for refusing a write. -/
  reason : Text := []

namespace Sink

/-- All bytes written, in order. -/
def written (s : Sink) : List UInt8 := s.writes.reverse.flatten

/-- Adds some bytes, or refuses them with a reason. -/
def write (s : Sink) (bs : List UInt8) : Except Text Sink :=
  match s.room with
  | none => .ok { s with writes := bs :: s.writes }
  | some 0 => .error s.reason
  | some (n + 1) => .ok { s with writes := bs :: s.writes, room := some n }

/-- The sink that goes on after its bytes have been taken away. -/
def flush (s : Sink) : Sink := { s with writes := [] }

theorem written_write {s t : Sink} {bs : List UInt8} (h : s.write bs = .ok t) :
    t.written = s.written ++ bs := by
  unfold write at h
  split at h
  · cases h
    simp [written]
  · cases h
  · cases h
    simp [written]

end Sink

end MiniPascal
