import DnsPkt.FullReport
import DnsPkt.Inspector

/-!
# What the verdict depends on

The verdict depends on the size of the report buffer as soon as the report of
a packet is longer than the smaller buffer. Header codes decide it only where
the header check records an error: the opcode of a response is described as
bad and nothing more.
-/

set_option autoImplicit false

namespace DnsPkt.ReportVerdict
open DnsPkt.CheckedRun DnsPkt.CheckedRun.Run DnsPkt.Octets DnsPkt.Protocol
open DnsPkt.MessageStore DnsPkt.RecordDecoder DnsPkt.MessageDecoder DnsPkt.AcceptedRun
open DnsPkt.ScratchText DnsPkt.SelfDelimiting DnsPkt.FullReport DnsPkt.Inspector

/-- With every report buffer of at least `DNS_EMSG_MAXLEN` bytes the packet
gets the verdict it gets with one of `DNS_EMSG_MAXLEN`. -/
def VerdictFixed (pkt : Bytes) : Prop :=
  ∀ emsgLen, dnsEmsgMaxlen ≤ emsgLen →
    ((∃ t, dnsValidate pkt emsgLen = .ok 0 t) ↔ ∃ t, dnsValidate pkt dnsEmsgMaxlen = .ok 0 t)

/-- The verdict does not depend on the report size exactly for packets whose
whole report, if there is one, fits into the smallest of these buffers. -/
theorem verdict_fixed_iff (pkt : Bytes) :
    VerdictFixed pkt ↔ ∀ text, fullReport pkt = some text → text.length < dnsEmsgMaxlen := by
  unfold VerdictFixed
  simp only [accepted_iff]
  constructor
  · intro h text htext
    obtain ⟨text', htext', hfit⟩ := (h (max dnsEmsgMaxlen (text.length+1))
      (le_max_left _ _)).mp ⟨text, htext, by omega⟩
    rw [htext] at htext'
    cases htext'
    exact hfit
  · intro h emsgLen hle
    constructor
    · rintro ⟨text, htext, -⟩
      exact ⟨text, htext, h text htext⟩
    · rintro ⟨text, htext, hfit⟩
      exact ⟨text, htext, hfit.trans_le hle⟩

def longReportPkt : Bytes :=
  responseHdr 15 0 0 ++ 63 :: List.replicate 63 97 ++ 63 :: List.replicate 63 97 ++
    63 :: List.replicate 63 97 ++ 61 :: List.replicate 61 97 ++ [0] ++
    [0, 1, 0, 1, 0, 0, 0, 60, 0, 4, 1, 2, 3, 4] ++
    (List.replicate 14 [0xc0, 12, 0, 1, 0, 1, 0, 0, 0, 60, 0, 4, 1, 2, 3, 4]).flatten

theorem long_report_refused : longReportPkt.length ≤ 2048 ∧ ¬ VerdictFixed longReportPkt := by
  refine ⟨by decide +kernel, fun hfixed => ?_⟩
  have hreport : (fullReport longReportPkt).map List.length = some 4263 := by decide +kernel
  obtain ⟨text, htext, hlen⟩ := Option.map_eq_some_iff.mp hreport
  have hlarge : ∃ t, dnsValidate longReportPkt 8192 = .ok 0 t :=
    accepted_iff.mpr ⟨text, htext, by omega⟩
  obtain ⟨text', htext', hfit⟩ := accepted_iff.mp ((hfixed 8192 (by decide)).mp hlarge)
  rw [htext] at htext'
  cases htext'
  rw [hlen] at hfit
  exact absurd hfit (by decide)

/-- An opcode that is not assigned, or a response code that is not. -/
def BadCodes (flags : UInt16) : Prop :=
  badOpcode flags = true ∨ flagSet flags 15 = true ∧ badRcode flags = true

def CodesEnforced (pkt : Bytes) (emsgLen : ℕ) : Prop :=
  BadCodes (hdrOf pkt).flags → ∃ c t, dnsValidate pkt emsgLen = .ok c t ∧ c < 0

theorem refused_no_report {pkt : Bytes} (h : flagsRefused (hdrOf pkt).flags = true) :
    fullReport pkt = none := by
  unfold fullReport fullRun
  rw [if_neg (by simp [h])]
  rfl

/-- A code other than zero is negative. -/
theorem negative_iff (pkt : Bytes) (emsgLen : ℕ) :
    (∃ c t, dnsValidate pkt emsgLen = .ok c t ∧ c < 0) ↔
      (∃ c t, dnsValidate pkt emsgLen = .ok c t) ∧ ¬ ∃ t, dnsValidate pkt emsgLen = .ok 0 t := by
  constructor
  · rintro ⟨c, t, h, hc⟩
    refine ⟨⟨c, t, h⟩, ?_⟩
    rintro ⟨u, hu⟩
    rw [h] at hu
    cases hu
    exact absurd hc (by decide)
  · rintro ⟨⟨c, t, h⟩, hne⟩
    rcases dnsValidate_codes pkt emsgLen with ⟨f, hf⟩ | ⟨c', u, hu, rfl | rfl⟩
    · rw [h] at hf
      cases hf
    · exact absurd ⟨u, hu⟩ hne
    · exact ⟨-1, u, hu, by decide⟩

/-- A bad code is enforced exactly where every record decode is defined and
either the header check records an error for it, or the packet is rejected
for its entries or for a report that does not fit. -/
theorem codes_enforced_iff (pkt : Bytes) (emsgLen : ℕ) :
    CodesEnforced pkt emsgLen ↔ (BadCodes (hdrOf pkt).flags →
      (∀ v ∈ recordVisits (validateEnv pkt emsgLen) (zeroMsg 0),
        Defined (validateEnv pkt emsgLen) v) ∧
      (flagsRefused (hdrOf pkt).flags = true ∨
        ∀ text, fullReport pkt = some text → emsgLen ≤ text.length)) := by
  unfold CodesEnforced
  rw [negative_iff, dnsValidate_returns_iff, accepted_iff]
  refine forall_congr' fun _ => and_congr_right fun _ => ?_
  constructor
  · intro hnone
    refine .inr fun text htext => ?_
    by_contra hfit
    exact hnone ⟨text, htext, Nat.lt_of_not_le hfit⟩
  · rintro hcause ⟨text, htext, hfit⟩
    rcases hcause with hrefused | hlong
    · rw [refused_no_report hrefused] at htext
      cases htext
    · exact absurd hfit (Nat.not_lt.mpr (hlong text htext))

def badOpcodeResponse : Bytes := [0x12, 0x34, 0x98, 0, 0, 0, 0, 0, 0, 0, 0, 0]

theorem bad_opcode_accepted : ¬ CodesEnforced badOpcodeResponse dnsEmsgMaxlen := by
  intro henforced
  obtain ⟨c, t, h, hc⟩ := henforced (.inl (by decide))
  have hzero : (dnsValidate badOpcodeResponse dnsEmsgMaxlen).result.map Prod.fst = some 0 := by
    decide +kernel
  obtain ⟨c', t', h', hc'⟩ := Outcome.eq_ok hzero
  dsimp only at hc'
  rw [h', hc'] at h
  cases h
  exact absurd hc (by decide)

end DnsPkt.ReportVerdict
