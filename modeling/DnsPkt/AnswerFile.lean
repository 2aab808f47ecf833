import DnsPkt.EncodedReport
import DnsPkt.FuzzMessages
import DnsPkt.NumberText
import DnsPkt.OptionOrder

/-!
# The file of the answers

`run_resp` of `dns_gen.c` writes the message of its options to a capture file. When
`dns-insp readpcap` opens that file, it puts out the answers that were asked for, one
by one, or refuses the packet, and then because the report on it is too long.
-/

set_option autoImplicit false

namespace DnsPkt.AnswerFile
open DnsPkt.CheckedRun.Run DnsPkt.Octets DnsPkt.Protocol DnsPkt.MessageStore
open DnsPkt.MessageBuild DnsPkt.MessageEncoder DnsPkt.MessageHistory
open DnsPkt.EncodedFrames DnsPkt.ReportText DnsPkt.RecordDecoder DnsPkt.MessageDecoder
open DnsPkt.RecordView DnsPkt.RecordText DnsPkt.EntryReport
open DnsPkt.EncodedReport DnsPkt.Inspector DnsPkt.CaptureFile
open DnsPkt.GeneratedFrame hiding dnsMaxPdusize DnsGen
open DnsPkt.CaptureReplay DnsPkt.AlikeMessages DnsPkt.AnswerRecords DnsPkt.ApartRecords
open DnsPkt.AnswerArguments DnsPkt.AnswerBytes DnsPkt.LoadedMessage DnsPkt.ValidatedMessage
open DnsPkt.QueryTool DnsPkt.ResponseOptions DnsPkt.ParsedOptions DnsPkt.SentRecords
open DnsPkt.OptionOrder DnsPkt.ReportedRecord DnsPkt.SelfDelimiting DnsPkt.AcceptedRun
open DnsPkt.ReadPcap
open DnsPkt.FuzzMessages hiding Plain

section Frame

variable {gen t : QueryFlags.DnsGen} {id : UInt16}

/-- What an encoding leaves in the generator. -/
theorem encodeAt_ok {start : ℕ} {n : ℤ} (h : encodeAt start gen = .ok n t) : ∃ e,
    dnsMsgEncode gen.msg (gen.pktBuf.drop start) = .ok n e ∧ t.pktLen = gen.pktLen ∧
      t.pktBuf = patch gen.pktBuf start e.pktBuf := by
  rw [encodeAt] at h
  cases henc : dnsMsgEncode gen.msg (gen.pktBuf.drop start) with
  | ok k e =>
    simp only [henc] at h
    obtain ⟨u, g, hg, h⟩ := (bind_ok _ _ _ _ _).mp h
    rw [QueryTool.store] at hg
    split_ifs at hg
    cases hg
    cases h
    exact ⟨e, rfl, rfl, rfl⟩
  | exit k e => exact absurd henc (call_ne_exit _ _ _ _)
  | fault c =>
    simp only [henc] at h
    cases h

theorem genEncDnsmsg_ok (hlen : gen.pktLen = ethipudpLen) (htcp : gen.useTcp = false)
    (h : genEncDnsmsg gen = .ok () t) : ∃ n e, 0 < n ∧
      dnsMsgEncode gen.msg (gen.pktBuf.drop ethipudpLen) = .ok n e ∧
      t.pktLen = ethipudpLen+n.toNat ∧ t.pktBuf = patch gen.pktBuf ethipudpLen e.pktBuf := by
  have hrun := h
  rw [genEncDnsmsg_from hlen htcp] at hrun
  obtain ⟨n, g, hg, -⟩ := (bind_ok _ _ _ _ _).mp hrun
  rw [genEncDnsmsg_done hlen htcp hg] at h
  split_ifs at h with hn
  cases h
  obtain ⟨e, henc, hkeep, hbuf⟩ := encodeAt_ok hg
  exact ⟨n, e, not_le.mp hn, henc, congrArg (· + n.toNat) (hkeep.trans hlen), hbuf⟩

end Frame

section File

variable {base : ℕ} {stack : ℕ → AnswerBuf} {l : List Arg} {m : DnsMsg} {d : Bytes}

end File

section Answers

variable {st : NameStore} {rs : Additions}

end Answers

section Text

end Text

def twoAnswers : List Arg := [nameArg, answerArg, otherAnswerArg, idArg, outputArg]

end DnsPkt.AnswerFile
