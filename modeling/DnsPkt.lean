import DnsPkt.CheckedRun
import DnsPkt.Octets
import DnsPkt.WireName
import DnsPkt.NameCompression
import DnsPkt.PacketWriter
import DnsPkt.Protocol
import DnsPkt.NameDecoder
import DnsPkt.NameEncoder
import DnsPkt.CompressedNames
import DnsPkt.MessageStore
import DnsPkt.MessageSlots
import DnsPkt.MessageEncoder
import DnsPkt.MessageBuild
import DnsPkt.EncodedMessage
import DnsPkt.MessageLayout
import DnsPkt.ReportText
import DnsPkt.RecordDecoder
import DnsPkt.MessageDecoder
import DnsPkt.RecordRun
import DnsPkt.RecordFrame
import DnsPkt.RecordEntry
import DnsPkt.MessageRun
import DnsPkt.RecordView
import DnsPkt.WrittenRecord
import DnsPkt.PacketBounds
import DnsPkt.ScratchBounds
import DnsPkt.ScratchText
import DnsPkt.AcceptedRun
import DnsPkt.RecordChain
import DnsPkt.SelfDelimiting
import DnsPkt.ReportedRecord
import DnsPkt.ValidatedMessage
import DnsPkt.ByteOrder
import DnsPkt.CaptureFile
import DnsPkt.CaptureProgress
import DnsPkt.CapturePackets
import DnsPkt.CaptureBlocks
import DnsPkt.CaptureRoundTrip
import DnsPkt.CaptureInsertion
import DnsPkt.MessageHistory
import DnsPkt.WriteTrace
import DnsPkt.EncoderTrace
import DnsPkt.RecordTrace
import DnsPkt.EncodedFrames
import DnsPkt.EncoderBounds
import DnsPkt.StaleBytes
import DnsPkt.PairedRun
import DnsPkt.AlikeMessages
import DnsPkt.AlikeBuild
import DnsPkt.AlikeDecode
import DnsPkt.MessageReuse
import DnsPkt.NameLanguage
import DnsPkt.PlainName
import DnsPkt.CaptureWalk
import DnsPkt.Inspector
import DnsPkt.ReadPcap
import DnsPkt.GeneratedFrame
import DnsPkt.XskRings
import DnsPkt.LoaderVerdict
import DnsPkt.EndChecks
import DnsPkt.PacketChecks
import DnsPkt.TrailingBytes
import DnsPkt.LoadedRecord
import DnsPkt.LoadedMessage
import DnsPkt.LongestRun
import DnsPkt.AddressText
import DnsPkt.AddressNotation
import DnsPkt.AddressRoundTrip
import DnsPkt.MixedNotation
import DnsPkt.OptRoundTrip
import DnsPkt.RecordText
import DnsPkt.RoundTrip
import DnsPkt.FaithfulAdd
import DnsPkt.FailedAdd
import DnsPkt.StoppedDecode
import DnsPkt.FullReport
import DnsPkt.ReportVerdict
import DnsPkt.ReportedAddress
import DnsPkt.QuadText
import DnsPkt.AddressBounds
import DnsPkt.ColonText
import DnsPkt.AddressGrammar
import DnsPkt.AddressScan
import DnsPkt.AddressMeaning
import DnsPkt.AnswerArguments
import DnsPkt.VlanTags
import DnsPkt.QueryFlags
import DnsPkt.QueryTool
import DnsPkt.CaptureSections
import DnsPkt.CaptureFailures
import DnsPkt.InternetChecksum
import DnsPkt.NumberText
import DnsPkt.SectionText
import DnsPkt.SeenEncoding
import DnsPkt.AnswerRecords
import DnsPkt.ApartRecords
import DnsPkt.ResponseOptions
import DnsPkt.AnswerBytes
import DnsPkt.OptionRecords
import DnsPkt.ParsedOptions
import DnsPkt.SentRecords
import DnsPkt.OptionOrder
import DnsPkt.CaptureReplay
import DnsPkt.FuzzMessages
import DnsPkt.HandoverRing
import DnsPkt.MmapCapture
import DnsPkt.XskPackets
import DnsPkt.EntryReport
import DnsPkt.EncodedReport
import DnsPkt.AnswerFile
import DnsPkt.MapPatch
import DnsPkt.InterruptedCapture
