import DnsPkt.EncodedFrames
import DnsPkt.QueryFlags

/-!
# Queries of the generator and their responses

`pkt_buf` and `pkt_len` serve the query that is sent and the response that is
received. What the socket does is given to the functions: the number that a
write returns, and the bytes that wait for a read, if there is no error.
-/

set_option autoImplicit false

namespace DnsPkt.QueryTool
open DnsPkt.CheckedRun DnsPkt.CheckedRun.Run DnsPkt.Octets DnsPkt.Protocol
open DnsPkt.MessageStore DnsPkt.MessageDecoder DnsPkt.RecordDecoder DnsPkt.NameEncoder
open DnsPkt.MessageEncoder DnsPkt.MessageHistory DnsPkt.EncodedFrames
open DnsPkt.AcceptedRun DnsPkt.WrittenRecord DnsPkt.QueryFlags

abbrev Tool := Run DnsGen ℤ Fault

def store (i : ℕ) (b : Bytes) : Tool Unit := fun gen =>
  if h : i+b.length ≤ dnsMaxPdusize then
    .ok () { gen with
      pktBuf := patch gen.pktBuf i b
      size := (length_patch _ _ _ (by rw [gen.size]; exact h)).trans gen.size }
  else .fault (.bufWrite i)

/-- The number of the transaction comes from `rand`. -/
def genSetQuery (tid : UInt16) : Tool Unit := do
  modify fun gen => { gen with tidSent := tid, msg := dnsMsgInit gen.msg tid gen.dnsFlags }
  let gen ← get
  let r := dnsAddQd gen.msg (some ⟨cstr gen.dnsName, zero_notMem_cstr _⟩) gen.dnsType gen.dnsClass
  modify fun gen => { gen with msg := r.2 }
  when (r.1 ≠ 0) (exit r.1)

def encodeAt (start : ℕ) : Tool ℤ := fun gen =>
  match dnsMsgEncode gen.msg (gen.pktBuf.drop start) with
  | .ok n t | .exit n t =>
    (do
      store start t.pktBuf
      modify fun gen => { gen with msg := { gen.msg with hdr := syncHdr gen.msg } }
      pure n) gen
  | .fault c => .fault c

def genEncDnsmsg : Tool Unit := do
  let gen ← get
  let len ← encodeAt (gen.pktLen+if gen.useTcp then 2 else 0)
  when (len ≤ 0) (exit (-1))
  modify fun s => { s with msgLen := len.toNat, pktLen := s.pktLen+len.toNat }
  when gen.useTcp do
    store gen.pktLen (encU16 (UInt16.ofNat len.toNat))
    modify fun s => { s with pktLen := s.pktLen+2 }

def genSndDnspkt (nw : ℤ) : Tool Unit := do
  let gen ← get
  when (nw ≠ gen.pktLen) (exit (-1))

def genSndQuery (tid : UInt16) (nw : ℤ) : Tool Unit := do
  genSetQuery tid
  genEncDnsmsg
  genSndDnspkt nw

/-- `read` of at most `len` bytes to a position of `pkt_buf`. -/
def sysRead (waiting : Option Bytes) (i len : ℕ) : Tool ℤ :=
  match waiting with
  | none => pure (-1)
  | some b => do
    store i (b.take len)
    pure (b.take len).length

def readDnspkt (waiting : Option Bytes) (i rlen : ℕ) : Tool Unit := do
  let nr ← sysRead waiting i rlen
  when (nr ≤ 0) (exit (-1))
  modify fun s => { s with pktLen := s.pktLen+nr.toNat }

def readLength (waiting : Option Bytes) : Tool ℕ := do
  let nr ← sysRead waiting 0 2
  when (nr ≠ 2) (exit (-1))
  let gen ← get
  let rlen := (decU16 (slice gen.pktBuf 0 2)).toNat
  modify fun s => { s with pktLen := s.pktLen+2 }
  when (dnsMaxPdusize < 2+rlen) (exit (-1))
  pure rlen

def genRcvDnspkt (front body : Option Bytes) : Tool Unit := do
  let gen ← get
  if gen.useTcp then
    let rlen ← readLength front
    readDnspkt body 2 rlen
  else readDnspkt body 0 dnsMaxPdusize

/-- Where in `pkt_buf` the message that is decoded begins, and its length. -/
def decodeRange (gen : DnsGen) : ℕ × ℕ :=
  if gen.useTcp then (2, gen.pktLen-2) else (0, gen.pktLen)

def decodeAt (i len : ℕ) : Tool ℤ := fun gen =>
  if dnsMaxPdusize < i+len then .fault (.pktRead dnsMaxPdusize) else
  match dnsMsgDecode gen.msg (slice gen.pktBuf i len) with
  | .ok rc s | .exit rc s => .ok rc { gen with msg := s.msg }
  | .fault c => .fault c

def genDecDnsmsg : Tool Unit := do
  let gen ← get
  let range := decodeRange gen
  modify fun s => { s with msgLen := range.2 }
  let rc ← decodeAt range.1 range.2
  when (rc ≠ 0) (exit rc)

def genChkDnsrsp : Tool Unit := do
  let gen ← get
  let hdr := gen.msg.hdr
  when (¬ flagSet hdr.flags 15) (exit 1)
  when (hdr.id ≠ gen.tidSent) (exit 2)
  when (rcode hdr.flags ≠ 0) (exit 3)

def genRcvResp (front body : Option Bytes) : Tool Unit := do
  genRcvDnspkt front body
  genDecDnsmsg
  genChkDnsrsp

def runQuery (tid : UInt16) (nw : ℤ) (front body : Option Bytes) : Tool Unit := do
  genSndQuery tid nw
  genRcvResp front body

theorem store_ok {i : ℕ} {b : Bytes} {s t : DnsGen} {u : Unit} (h : store i b s = .ok u t) :
    i+b.length ≤ dnsMaxPdusize ∧ t.pktBuf = patch s.pktBuf i b ∧ t.pktLen = s.pktLen ∧
      t.useTcp = s.useTcp := by
  unfold store at h
  split_ifs at h with hroom
  cases h
  exact ⟨hroom, rfl, rfl, rfl⟩

theorem dnsAddQd_hdr (m : DnsMsg) (qname : Str) (qtype qclass : UInt16) :
    (dnsAddQd m qname qtype qclass).2.hdr = m.hdr := by
  unfold dnsAddQd dnsAddQdn
  split_ifs
  · cases msgStoreStr m.store qname.bytes <;> rfl
  · rfl

theorem genSetQuery_ok {tid : UInt16} {s t : DnsGen} {u : Unit} (h : genSetQuery tid s = .ok u t) :
    t.pktLen = s.pktLen ∧ t.useTcp = s.useTcp ∧ t.msg.hdr.flags = s.dnsFlags ∧
      ∀ base, Edits (zeroMsg base) s.msg → Edits (zeroMsg base) t.msg := by
  unfold genSetQuery at h
  obtain ⟨_, s1, h1, h⟩ := (bind_ok _ _ _ _ _).mp h
  cases h1
  obtain ⟨gen, s2, h2, h⟩ := (bind_ok _ _ _ _ _).mp h
  cases h2
  obtain ⟨_, s3, h3, h⟩ := (bind_ok _ _ _ _ _).mp h
  cases h3
  by_cases hrc : (dnsAddQd (dnsMsgInit s.msg tid s.dnsFlags) (some ⟨cstr s.dnsName,
      zero_notMem_cstr _⟩) s.dnsType s.dnsClass).1 ≠ 0
  · rw [when_pos hrc] at h
    cases h
  · rw [when_neg hrc] at h
    cases h
    refine ⟨rfl, rfl, ?_, fun base hedits => ?_⟩
    · rw [dnsAddQd_hdr]
      rfl
    · exact (hedits.trans (Edit.header _).edits).trans (edits_dnsAddQdn _ _ _ _)

theorem encodeAt_ok {start : ℕ} {s t : DnsGen} {n : ℤ} (h : encodeAt start s = .ok n t) :
    t.pktLen = s.pktLen ∧ t.useTcp = s.useTcp := by
  have hstored {b : Bytes} {m : ℤ} (h : (do
      store start b
      modify fun gen => { gen with msg := { gen.msg with hdr := syncHdr gen.msg } }
      pure m : Tool ℤ) s = .ok n t) : t.pktLen = s.pktLen ∧ t.useTcp = s.useTcp := by
    obtain ⟨_, s1, h1, h⟩ := (bind_ok _ _ _ _ _).mp h
    obtain ⟨-, -, hlen, htcp⟩ := store_ok h1
    cases h
    exact ⟨hlen, htcp⟩
  unfold encodeAt at h
  cases henc : dnsMsgEncode s.msg (s.pktBuf.drop start) with
  | ok m e =>
    rw [henc] at h
    exact hstored h
  | exit m e =>
    rw [henc] at h
    exact hstored h
  | fault c =>
    rw [henc] at h
    cases h

/-- A message that was encoded takes up room. -/
theorem genEncDnsmsg_ok {s t : DnsGen} {u : Unit} (h : genEncDnsmsg s = .ok u t) :
    s.pktLen < t.pktLen ∧ t.useTcp = s.useTcp := by
  unfold genEncDnsmsg at h
  obtain ⟨gen, s1, h1, h⟩ := (bind_ok _ _ _ _ _).mp h
  cases h1
  obtain ⟨len, s2, h2, h⟩ := (bind_ok _ _ _ _ _).mp h
  obtain ⟨hlen, htcp⟩ := encodeAt_ok h2
  by_cases hpos : len ≤ 0
  · rw [bind_when_pos hpos] at h
    cases h
  · rw [bind_when_neg hpos] at h
    obtain ⟨_, s3, h3, h⟩ := (bind_ok _ _ _ _ _).mp h
    cases h3
    by_cases hmode : s.useTcp = true
    · rw [when_pos hmode] at h
      obtain ⟨_, s4, h4, h⟩ := (bind_ok _ _ _ _ _).mp h
      obtain ⟨-, -, hlen4, htcp4⟩ := store_ok h4
      cases h
      simp only at hlen4 htcp4 ⊢
      exact ⟨by omega, htcp4.trans htcp⟩
    · rw [when_neg hmode] at h
      cases h
      simp only
      exact ⟨by omega, htcp⟩

theorem genSndQuery_ok {tid : UInt16} {nw : ℤ} {s t : DnsGen} {u : Unit}
    (h : genSndQuery tid nw s = .ok u t) : 0 < t.pktLen ∧ t.useTcp = s.useTcp := by
  unfold genSndQuery at h
  obtain ⟨_, s1, h1, h⟩ := (bind_ok _ _ _ _ _).mp h
  obtain ⟨-, htcp1, -, -⟩ := genSetQuery_ok h1
  obtain ⟨_, s2, h2, h⟩ := (bind_ok _ _ _ _ _).mp h
  obtain ⟨hlen2, htcp2⟩ := genEncDnsmsg_ok h2
  have ht : s2 = t := by
    unfold genSndDnspkt at h
    obtain ⟨gen, s3, h3, h⟩ := (bind_ok _ _ _ _ _).mp h
    cases h3
    by_cases hnw : nw ≠ (s2.pktLen : ℤ)
    · rw [when_pos hnw] at h
      cases h
    · rw [when_neg hnw] at h
      cases h
      rfl
  subst ht
  exact ⟨by omega, htcp2.trans htcp1⟩

theorem sysRead_ok {waiting : Option Bytes} {i len : ℕ} {s t : DnsGen} {nr : ℤ}
    (h : sysRead waiting i len s = .ok nr t) (hpos : 0 < nr) :
    nr = ((waiting.getD []).take len).length ∧
      t.pktBuf = patch s.pktBuf i ((waiting.getD []).take len) ∧ t.pktLen = s.pktLen ∧
      t.useTcp = s.useTcp ∧ i+((waiting.getD []).take len).length ≤ dnsMaxPdusize := by
  unfold sysRead at h
  cases waiting with
  | none =>
    cases h
    omega
  | some b =>
    obtain ⟨_, s1, h1, h⟩ := (bind_ok _ _ _ _ _).mp h
    obtain ⟨hroom, hbuf, hlen, htcp⟩ := store_ok h1
    cases h
    exact ⟨rfl, hbuf, hlen, htcp, hroom⟩

theorem readDnspkt_ok {waiting : Option Bytes} {i rlen : ℕ} {s t : DnsGen} {u : Unit}
    (h : readDnspkt waiting i rlen s = .ok u t) :
    t.pktLen = s.pktLen+((waiting.getD []).take rlen).length ∧ t.useTcp = s.useTcp := by
  unfold readDnspkt at h
  obtain ⟨nr, s1, h1, h⟩ := (bind_ok _ _ _ _ _).mp h
  by_cases hpos : nr ≤ 0
  · rw [bind_when_pos hpos] at h
    cases h
  · rw [bind_when_neg hpos] at h
    obtain ⟨rfl, -, hlen, htcp, -⟩ := sysRead_ok h1 (by omega)
    cases h
    simp only [Int.toNat_natCast, hlen]
    exact ⟨trivial, htcp⟩

theorem readLength_ok {waiting : Option Bytes} {s t : DnsGen} {rlen : ℕ}
    (h : readLength waiting s = .ok rlen t) :
    rlen = (decU16 ((waiting.getD []).take 2)).toNat ∧ t.pktLen = s.pktLen+2 ∧
      t.useTcp = s.useTcp := by
  unfold readLength at h
  obtain ⟨nr, s1, h1, h⟩ := (bind_ok _ _ _ _ _).mp h
  by_cases htwo : nr ≠ 2
  · rw [bind_when_pos htwo] at h
    cases h
  · rw [bind_when_neg htwo] at h
    obtain ⟨hnr, hbuf, hlen, htcp, hroom⟩ := sysRead_ok h1 (by omega)
    obtain ⟨gen, s2, h2, h⟩ := (bind_ok _ _ _ _ _).mp h
    cases h2
    obtain ⟨_, s3, h3, h⟩ := (bind_ok _ _ _ _ _).mp h
    cases h3
    have hfront : slice s1.pktBuf 0 2 = (waiting.getD []).take 2 := by
      have hat := slice_patch_at s.pktBuf 0 ((waiting.getD []).take 2) (Nat.zero_le _)
      have hcount : ((waiting.getD []).take 2).length = 2 := by omega
      rwa [← hbuf, hcount] at hat
    by_cases hbig : dnsMaxPdusize < 2+(decU16 (slice s1.pktBuf 0 2)).toNat
    · rw [bind_when_pos hbig] at h
      cases h
    · rw [bind_when_neg hbig] at h
      cases h
      rw [hfront]
      simp only [hlen]
      exact ⟨trivial, trivial, htcp⟩

def response (useTcp : Bool) (front body : Option Bytes) : Bytes :=
  (body.getD []).take (if useTcp then (decU16 ((front.getD []).take 2)).toNat else dnsMaxPdusize)

/-- The part of the buffer that is decoded lies in it, and is the given message. -/
def Decodes (gen : DnsGen) (msg : Bytes) : Prop :=
  (decodeRange gen).1+(decodeRange gen).2 ≤ dnsMaxPdusize ∧ (decodeRange gen).2 = msg.length ∧
    slice gen.pktBuf (decodeRange gen).1 (decodeRange gen).2 = msg

/-- The length that is decoded counts the query as well. -/
theorem genRcvDnspkt_range {front body : Option Bytes} {s t : DnsGen} {u : Unit}
    (h : genRcvDnspkt front body s = .ok u t) :
    (decodeRange t).2 = s.pktLen+(response s.useTcp front body).length := by
  unfold genRcvDnspkt at h
  obtain ⟨gen, s1, h1, h⟩ := (bind_ok _ _ _ _ _).mp h
  cases h1
  by_cases hmode : s.useTcp = true
  · simp only [hmode, ↓reduceIte] at h
    obtain ⟨rlen, s2, h2, h⟩ := (bind_ok _ _ _ _ _).mp h
    obtain ⟨rfl, hlen2, htcp2⟩ := readLength_ok h2
    obtain ⟨hlen, htcp⟩ := readDnspkt_ok h
    simp only [decodeRange, response, htcp, htcp2, hmode, ↓reduceIte]
    omega
  · simp only [hmode, Bool.false_eq_true, ↓reduceIte] at h
    obtain ⟨hlen, htcp⟩ := readDnspkt_ok h
    simp only [decodeRange, response, htcp, hmode, Bool.false_eq_true, ↓reduceIte, hlen]

/-- `gen_rcv_resp` from its call of `dns_msg_decode` on. -/
def decodeResp (i len : ℕ) : Tool Unit := do
  let rc ← decodeAt i len
  when (rc ≠ 0) (exit rc)
  genChkDnsrsp

/-- A response that was read is decoded over the range that the generator takes for it. -/
theorem genRcvResp_decodes {front body : Option Bytes} {s t : DnsGen}
    (h : genRcvDnspkt front body s = .ok () t) : genRcvResp front body s =
      decodeResp (decodeRange t).1 (decodeRange t).2 { t with msgLen := (decodeRange t).2 } := by
  rw [genRcvResp, bind_of_ok h, genDecDnsmsg, bind_assoc, bind_of_ok (get_run t), bind_assoc,
    bind_of_ok (modify_run _ _), bind_assoc]
  rfl

/-- After a query was sent, what `gen_rcv_resp` has decoded is never the response that was
read. -/
theorem never_decodes_response (gen sent got : DnsGen) (tid : UInt16) (nw : ℤ)
    (front body : Option Bytes) (hsnd : genSndQuery tid nw gen = .ok () sent)
    (hrcv : genRcvDnspkt front body sent = .ok () got) :
    runQuery tid nw front body gen = genRcvResp front body sent ∧
    genRcvResp front body sent = decodeResp (decodeRange got).1 (decodeRange got).2
      { got with msgLen := (decodeRange got).2 } ∧
    ¬ Decodes got (response gen.useTcp front body) := by
  refine ⟨bind_of_ok hsnd _, genRcvResp_decodes hrcv, ?_⟩
  rintro ⟨-, hlen, -⟩
  obtain ⟨hpos, htcp⟩ := genSndQuery_ok hsnd
  rw [genRcvDnspkt_range hrcv, htcp] at hlen
  omega

def exchange : Tool Unit := do
  genSndQuery 0x1234 17
  genRcvDnspkt none (some (responseHdr 0 0 0))

theorem exchange_runs : ∃ sent got, genSndQuery 0x1234 17 idle = .ok () sent ∧
    genRcvDnspkt none (some (responseHdr 0 0 0)) sent = .ok () got ∧
      decodeRange got = (0, 29) := by
  have hrun : (exchange idle).result.map (fun p => decodeRange p.2) = some (0, 29) := by
    decide +kernel
  obtain ⟨_, got, h, hrange⟩ := Outcome.eq_ok hrun
  unfold exchange at h
  obtain ⟨_, sent, h1, h2⟩ := (bind_ok _ _ _ _ _).mp h
  exact ⟨sent, got, h1, h2, hrange⟩

theorem exchange_never_decodes : ∃ sent got, genSndQuery 0x1234 17 idle = .ok () sent ∧
    genRcvDnspkt none (some (responseHdr 0 0 0)) sent = .ok () got ∧
      ¬ Decodes got (response false none (some (responseHdr 0 0 0))) := by
  obtain ⟨sent, got, h1, h2, -⟩ := exchange_runs
  exact ⟨sent, got, h1, h2, (never_decodes_response idle sent got 0x1234 17 none
    (some (responseHdr 0 0 0)) h1 h2).2.2⟩

/-- Twelve bytes are received and 29 are decoded. -/
theorem exchange_overruns : ∃ sent got, genSndQuery 0x1234 17 idle = .ok () sent ∧
    genRcvDnspkt none (some (responseHdr 0 0 0)) sent = .ok () got ∧
    genRcvResp none (some (responseHdr 0 0 0)) sent = decodeResp 0 29 { got with msgLen := 29 } ∧
      ¬ Decodes got (responseHdr 0 0 0) := by
  obtain ⟨sent, got, h1, h2, hrange⟩ := exchange_runs
  have hdecode := genRcvResp_decodes h2
  rw [hrange] at hdecode
  refine ⟨sent, got, h1, h2, hdecode, fun h => ?_⟩
  have hlen := h.2.1
  rw [hrange] at hlen
  exact absurd hlen (by decide)

theorem opcode_eq_zero {flags : UInt16} (h : ∀ i, flagSet flags i → ∃ f, i = DnsFlag.bit f) :
    opcode flags = 0 ↔ ¬ flagSet flags DnsFlag.cd.bit := by
  have hbit (i : ℕ) : (opcode flags).testBit i = (decide (i < 4) && flagSet flags (11+i)) := by
    rw [opcode, show (16 : ℕ) = 2^4 from rfl, Nat.testBit_mod_two_pow, Nat.testBit_div_two_pow,
      Nat.add_comm]
    rfl
  constructor
  · intro h0 hcd
    have h11 := hbit 0
    rw [h0, Nat.zero_testBit] at h11
    rw [show DnsFlag.cd.bit = 11+0 from rfl] at hcd
    rw [hcd] at h11
    cases h11
  · intro hcd
    apply Nat.eq_of_testBit_eq
    intro i
    rw [hbit, Nat.zero_testBit, Bool.and_eq_false_iff]
    by_cases hset : flagSet flags (11+i) = true
    · obtain ⟨f, hf⟩ := h _ hset
      cases f with
      | cd =>
        rw [hf] at hset
        exact absurd hset hcd
      | rd =>
        have : 11+i = 8 := hf
        omega
      | ad =>
        have : 11+i = 5 := hf
        omega
    · right
      simpa using hset

theorem rcode_eq_zero {flags : UInt16} (h : ∀ i, flagSet flags i → ∃ f, i = DnsFlag.bit f) :
    rcode flags = 0 := by
  apply Nat.eq_of_testBit_eq
  intro i
  rw [rcode, show (16 : ℕ) = 2^4 from rfl, Nat.testBit_mod_two_pow, Nat.zero_testBit,
    Bool.and_eq_false_iff]
  by_cases hset : flags.toNat.testBit i = true
  · obtain ⟨f, hf⟩ := h i hset
    left
    cases f <;> simp [hf, DnsFlag.bit]
  · right
    simpa using hset

/-- The header that a packet begins with asks for what the list of flags asks for. -/
def PlainQuery (value pkt : Bytes) : Prop :=
  let flags := (hdrOf pkt).flags
  opcode flags = 0 ∧ flagSet flags 15 = false ∧ rcode flags = 0 ∧
    ∀ f, flags &&& DnsFlag.mask f = DnsFlag.mask f ↔ Requested f value

/-- `DNS_FLAGS_CD` is the lowest bit of the opcode. -/
theorem plain_query_iff (gen set query : DnsGen) (base : ℕ) (hmsg : Edits (zeroMsg base) gen.msg)
    (value : Bytes) (hset : setDnsFlags gen value = (0, set)) (tid : UInt16)
    (hquery : genSetQuery tid set = .ok () query) (buf : Bytes) (n : ℤ) (t : DnsEnc)
    (henc : dnsMsgEncode query.msg buf = .ok n t) (hn : 0 < n) :
    PlainQuery value (t.pktBuf.take n.toNat) ↔ ¬ Requested .cd value := by
  obtain ⟨hgen, hreq, hother, -⟩ := setDnsFlags_accepted hset
  obtain ⟨-, -, hflags, hedits⟩ := genSetQuery_ok hquery
  have henc' : Encodable query.msg :=
    (hedits base (by rw [hgen]; exact hmsg)).invariant encodable_edit (encodable_zero base)
  have hhdr : (hdrOf (t.pktBuf.take n.toNat)).flags = set.dnsFlags := by
    rw [hdrOf_written (encoded_header henc' henc (by omega))]
    exact hflags
  have hqr : flagSet set.dnsFlags 15 = false := by
    by_contra h15
    obtain ⟨f, hf⟩ := hother 15 (by simpa using h15)
    cases f <;> cases hf
  rw [PlainQuery, hhdr, opcode_eq_zero hother, hreq]
  constructor
  · exact fun h => h.1
  · intro hcd
    exact ⟨hcd, hqr, rcode_eq_zero hother, fun f => (mask_set _ f).trans (hreq f)⟩

def wireFlags (value : Bytes) : Option UInt16 :=
  (genSetQuery 7 (setDnsFlags idle value).2).result.bind fun p =>
    (dnsMsgEncode p.2.msg (List.replicate 600 0)).result.bind fun q =>
      if q.1 = 17 then some (hdrOf (q.2.pktBuf.take q.1.toNat)).flags else none

theorem wireFlags_run {value : Bytes} {flags : UInt16} (h : wireFlags value = some flags) :
    ∃ query t, genSetQuery 7 (setDnsFlags idle value).2 = .ok () query ∧
      dnsMsgEncode query.msg (List.replicate 600 0) = .ok 17 t ∧
        (hdrOf (t.pktBuf.take 17)).flags = flags := by
  unfold wireFlags at h
  cases hset : genSetQuery 7 (setDnsFlags idle value).2 with
  | exit e s =>
    rw [hset] at h
    cases h
  | fault c =>
    rw [hset] at h
    cases h
  | ok u query =>
    rw [hset, Outcome.result, Option.bind_some] at h
    cases henc : dnsMsgEncode query.msg (List.replicate 600 0) with
    | exit e s =>
      rw [henc] at h
      cases h
    | fault c =>
      rw [henc] at h
      cases h
    | ok n t =>
      rw [henc, Outcome.result, Option.bind_some] at h
      by_cases hn : n = 17
      · subst hn
        rw [if_pos rfl] at h
        injection h with h
        exact ⟨query, t, rfl, henc, h⟩
      · rw [if_neg hn] at h
        cases h

theorem ad_query_plain : ∃ query t, genSetQuery 7 (setDnsFlags idle [65, 68, 58, 49]).2 =
    .ok () query ∧ dnsMsgEncode query.msg (List.replicate 600 0) = .ok 17 t ∧
      PlainQuery [65, 68, 58, 49] (t.pktBuf.take 17) := by
  have hflags : wireFlags [65, 68, 58, 49] = some 0x0020 := by decide +kernel
  obtain ⟨query, t, hquery, henc, -⟩ := wireFlags_run hflags
  have hrc : (setDnsFlags idle [65, 68, 58, 49]).1 = 0 := by decide +kernel
  refine ⟨query, t, hquery, henc, ?_⟩
  exact (plain_query_iff idle _ query 0 (.refl _) _ (Prod.ext hrc rfl) 7 hquery _ 17 t henc
    (by decide)).mpr (by decide +kernel)

/-- The list `CD:1` asks for opcode 1. -/
theorem cd_query_not_plain : ∃ query t, (setDnsFlags idle [67, 68, 58, 49]).1 = 0 ∧
    genSetQuery 7 (setDnsFlags idle [67, 68, 58, 49]).2 = .ok () query ∧
      dnsMsgEncode query.msg (List.replicate 600 0) = .ok 17 t ∧
        ¬ PlainQuery [67, 68, 58, 49] (t.pktBuf.take 17) := by
  have hflags : wireFlags [67, 68, 58, 49] = some 0x0800 := by decide +kernel
  obtain ⟨query, t, hquery, henc, hwire⟩ := wireFlags_run hflags
  refine ⟨query, t, by decide +kernel, hquery, henc, fun h => ?_⟩
  have hop := h.1
  rw [hwire] at hop
  exact absurd hop (by decide)

end DnsPkt.QueryTool
