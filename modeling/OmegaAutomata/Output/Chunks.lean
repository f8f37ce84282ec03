/-
# Texts in chunks

An output is produced chunk by chunk, and producing a chunk may fail.  `text` puts
the chunks together.  `writeWithin` writes them to a place with room for a number
of bytes: the chunk that does not fit is cut, and nothing after it is produced, so a
fault that would arise later does not.
-/

import OmegaAutomata.Fault

namespace OmegaAutomata

/-- Why an output could not be written. -/
inductive WriteError where
  /-- There was no room for a text. -/
  | output
  /-- There was no room for a document in JSON. -/
  | serialization
deriving DecidableEq, Repr

/-- The sentence that reports the error. -/
def WriteError.message : WriteError → String
  | .output => "export failed: full"
  | .serialization => "JSON serialization failed: full"

/-- The outcome of writing to a place with limited room. -/
structure Written where
  /-- The number of bytes that were written. -/
  bytes : Nat
  error : Option WriteError
deriving DecidableEq, Repr

/-- A text in pieces, each of which may fail to be produced. -/
abbrev Chunks := List (Except Fault String)

namespace Chunks

/-- The whole text. -/
def text (cs : Chunks) : Except Fault String :=
  (cs.mapM id).map String.join

/-- Writes chunks until `room` bytes are used, of which `used` are used already. -/
def writeFrom (room : Nat) : (used : Nat) → Chunks → Except Fault Written
  | used, [] => .ok ⟨used, none⟩
  | _, .error f :: _ => .error f
  | used, .ok s :: cs =>
    if used + s.utf8ByteSize ≤ room then writeFrom room (used + s.utf8ByteSize) cs
    else .ok ⟨room, some .output⟩

/-- Writes chunks to a place with room for a number of bytes. -/
def writeWithin (room : Nat) (cs : Chunks) : Except Fault Written :=
  writeFrom room 0 cs

theorem writeFrom_bytes_le {room used : Nat} {cs : Chunks} {w : Written} (hu : used ≤ room)
    (h : writeFrom room used cs = .ok w) : w.bytes ≤ room := by
  induction cs generalizing used with
  | nil =>
    rw [writeFrom, Except.ok.injEq] at h
    exact h ▸ hu
  | cons c cs ih =>
    match c with
    | .error f =>
      rw [writeFrom] at h
      cases h
    | .ok s =>
      rw [writeFrom] at h
      split at h
      · rename_i hs
        exact ih hs h
      · rw [Except.ok.injEq] at h
        exact h ▸ Nat.le_refl room

/-- No more is written than there is room for. -/
theorem writeWithin_bytes_le {room : Nat} {cs : Chunks} {w : Written}
    (h : writeWithin room cs = .ok w) : w.bytes ≤ room :=
  writeFrom_bytes_le (Nat.zero_le room) h

end Chunks

end OmegaAutomata
