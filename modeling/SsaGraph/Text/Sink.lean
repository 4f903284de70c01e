/-!
# Sinks

A sink takes bytes up to a limit, if it has one. It takes what fits of the bytes offered and refuses
the rest, so a full sink holds exactly the first bytes of all that was offered.
-/
namespace SsaGraph.Text

structure Sink where
  limit : Option Nat := none
  bytes : ByteArray := .empty

namespace Sink

/-- Takes the data, or the part of it that fits; says whether all of it did. -/
def put (s : Sink) (data : ByteArray) : Bool × Sink :=
  match s.limit with
  | none => (true, { s with bytes := s.bytes ++ data })
  | some limit =>
    let room := limit - s.bytes.size
    if data.size ≤ room then
      (true, { s with bytes := s.bytes ++ data })
    else
      (false, { s with bytes := s.bytes ++ data.extract 0 room })

/-- The content as text. When the limit split a character, its first bytes read as one replacement
character. -/
def text (s : Sink) : String :=
  match String.fromUTF8? s.bytes with
  | some text => text
  | none =>
    let whole := [1, 2, 3].findSome? fun k => String.fromUTF8? (s.bytes.extract 0 (s.bytes.size - k))
    whole.getD "" ++ "\ufffd"

end Sink

end SsaGraph.Text
