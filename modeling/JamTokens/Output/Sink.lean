import JamTokens.Source.Failure

/-!
# Sinks

A sink takes bytes.  It may have room for a limited number of them: then it
takes what fits and refuses the rest of the write with a failure of its own.
It may also fail whenever it is asked to pass on what it holds.
-/

set_option autoImplicit false

namespace JamTokens

structure Sink where
  taken : ByteArray
  /-- How many bytes can still be taken, if there is a limit. -/
  room : Option Nat
  /-- The failure that meets a write for which there is no room. -/
  refusal : Failure
  /-- The failure that meets every flush, if one does. -/
  flushFailure : Option Failure
  flushed : Bool

namespace Sink

def full : Failure := ⟨.other, "sink full"⟩

def flushRefused : Failure := ⟨.brokenPipe, "flush failed"⟩

def empty (room : Option Nat) (flushFailure : Option Failure) : Sink :=
  ⟨.empty, room, full, flushFailure, true⟩

def unlimited : Sink := empty none none

def write (s : Sink) (bytes : ByteArray) : Except Failure Unit × Sink :=
  match s.room with
  | none => (.ok (), { s with taken := s.taken ++ bytes, flushed := false })
  | some n =>
    let s := { s with
      taken := s.taken ++ bytes.extract 0 n
      room := some (n - bytes.size)
      flushed := false }
    if bytes.size ≤ n then (.ok (), s) else (.error s.refusal, s)

def flush (s : Sink) : Except Failure Unit × Sink :=
  match s.flushFailure with
  | some f => (.error f, s)
  | none => (.ok (), { s with flushed := true })

end Sink

end JamTokens
