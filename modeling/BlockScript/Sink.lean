/-!
# Output sinks

A sink collects the bytes that a program writes. It may have a limit on the total; what still
fits of a text beyond it is written, and the write fails.
-/

namespace BlockScript

/-- The bytes written so far, and how many there may be in total. -/
structure Sink where
  written : ByteArray
  limit : Option Nat

namespace Sink

/-- A sink that nothing was written to. -/
def empty (limit : Option Nat) : Sink := ⟨.empty, limit⟩

/-- The number of bytes of `bytes` that the sink still takes. -/
def taken (sink : Sink) (bytes : ByteArray) : Nat :=
  match sink.limit with
  | none => bytes.size
  | some limit => min bytes.size (limit - sink.written.size)

/-- Whether the sink takes all of the text. -/
def fits (sink : Sink) (text : String) : Bool := sink.taken text.toUTF8 = text.toUTF8.size

/-- Writes what the sink takes of the text. -/
def write (sink : Sink) (text : String) : Sink :=
  { sink with written := sink.written ++ text.toUTF8.extract 0 (sink.taken text.toUTF8) }

/-- The text that the bytes encode. A limit that falls inside a character leaves up to three bytes
of it at the end, and one replacement mark stands for them. -/
def decode (bytes : ByteArray) : String :=
  match String.fromUTF8? bytes with
  | some text => text
  | none =>
    let cut (n : Nat) := String.fromUTF8? (bytes.extract 0 (bytes.size - n))
    (((cut 1).or (cut 2)).or (cut 3)).getD "" ++ "�"

/-- The text that was written after the first `start` bytes. -/
def textFrom (sink : Sink) (start : Nat) : String :=
  decode (sink.written.extract start sink.written.size)

end Sink

end BlockScript
