/-
Sinks: where written text ends up.

A sink collects bytes. It may have a capacity, and then a write that does not fit
keeps what fits and fails, and it may refuse to be flushed. Because a capacity
can cut a character, a sink holds bytes and not text.
-/
import Jack.Error

set_option autoImplicit false

namespace Jack.Vm

/-- A destination of text. -/
structure Sink where
  /-- The bytes taken so far. -/
  bytes : ByteArray := .empty
  /-- How many bytes the sink takes, if there is a limit. -/
  capacity : Option Nat := none
  /-- Whether flushing fails. -/
  flushFails : Bool := false
  /-- How often the sink was asked to flush. -/
  flushes : Nat := 0

namespace Sink

/-- Writes a text, or as much of it as fits. -/
def write (text : String) : EStateM Error Sink Unit := fun ⟨bytes, capacity, flushFails, flushes⟩ =>
  let added := text.toUTF8
  match capacity with
  | none => .ok () ⟨bytes ++ added, capacity, flushFails, flushes⟩
  | some limit =>
    let room := limit - bytes.size
    if added.size ≤ room then .ok () ⟨bytes ++ added, capacity, flushFails, flushes⟩
    else .error (.io .sinkFull) ⟨bytes ++ added.extract 0 room, capacity, flushFails, flushes⟩

/-- Flushes the sink; the attempt counts also when it fails. -/
def flush : EStateM Error Sink Unit := fun sink =>
  let sink := { sink with flushes := sink.flushes + 1 }
  if sink.flushFails then .error (.io .flushFailed) sink else .ok () sink

/-! ## Reading a sink

A text that was cut inside a character ends in one to three bytes that cannot be
read; they are shown as one replacement character. -/

/-- The character that stands for bytes that cannot be read. -/
def replacement : String := "\uFFFD"

/-- The text of bytes that become readable when at most `cut` bytes are taken
off their end, with the mark for what was taken off. -/
def textBeforeCut (bytes : ByteArray) : Nat → String
  | 0 => replacement
  | cut + 1 =>
    let shorter := bytes.extract 0 (bytes.size - 1)
    match String.fromUTF8? shorter with
    | some text => text ++ replacement
    | none => textBeforeCut shorter cut

/-- The text that reached a sink. -/
def text (sink : Sink) : String :=
  match String.fromUTF8? sink.bytes with
  | some text => text
  | none => textBeforeCut sink.bytes 3

end Sink

end Jack.Vm
