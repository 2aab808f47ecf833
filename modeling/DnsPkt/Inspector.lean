import DnsPkt.MessageDecoder

/-!
# The inspector of frames

`insp_process_pkt` of `dns_insp.c`: it follows a frame through its Ethernet,
IP and UDP headers and hands what is behind them to `dns_validate`. A read at
or behind the end of the frame is a fault. None happens, so where the DNS
message of a frame lies is told by a function of the frame alone.
-/

set_option autoImplicit false

namespace DnsPkt.Inspector
open DnsPkt.CheckedRun DnsPkt.CheckedRun.Run DnsPkt.Octets DnsPkt.Protocol DnsPkt.RecordDecoder
open DnsPkt.MessageDecoder

abbrev pktMaxsize : ℕ := 2048
abbrev dnsEmsgMaxlen : ℕ := 4096
abbrev ethHlen : ℕ := 14
abbrev ethPIp : ℕ := 0x0800
abbrev ethPIpv6 : ℕ := 0x86dd
abbrev ipprotoUdp : ℕ := 17

/-- The packet counters, and what was put on the standard output. -/
structure DnsInsp where
  rcvPkts : ℕ
  dnsPkts : ℕ
  dnsOkay : ℕ
  dnsFail : ℕ
  out : Bytes
  deriving DecidableEq, Repr

inductive FrameFault where
  | frameRead (index : ℕ)
  | validate (cause : Fault)
  | rounds
  deriving DecidableEq, Repr

abbrev Fr := Run DnsInsp ℤ FrameFault

def isVlan (type : ℕ) : Bool :=
  type = 0x8100 ∨ type = 0x88a8 ∨ type = 0x9100 ∨ type = 0x9200 ∨ type = 0x9300

section Frame

variable (pkt : Bytes)

def readByte (i : ℕ) : Fr ℕ := fun s => match pkt[i]? with
  | some x => .ok x.toNat s
  | none => .fault (.frameRead i)

def u16Dec (i : ℕ) : Fr ℕ := do
  let hi ← readByte pkt i
  let lo ← readByte pkt (i+1)
  pure (hi*256+lo)

/-- The loop over the tags, for a number of rounds: the type behind them and
where they end. -/
def vlanLoop : ℕ → ℕ → ℕ → Fr (ℕ × ℕ)
  | 0, _, _ => fault .rounds
  | k+1, type, ptr =>
    if isVlan type then do
      when (pkt.length < ptr+4) (exit 0)
      let type ← u16Dec pkt (ptr+2)
      vlanLoop k type (ptr+4)
    else pure (type, ptr)

def ethLayer : Fr (ℕ × ℕ) := do
  when (pkt.length < ethHlen) (exit 0)
  let type ← u16Dec pkt 12
  vlanLoop pkt (pkt.length+1) type ethHlen

/-- The end of the IP header. A little-endian host keeps the version in the
high bits of the first byte. -/
def ipLayer (type ptr : ℕ) : Fr ℕ :=
  if type = ethPIp then do
    when (pkt.length < ptr+20) (exit 0)
    let first ← readByte pkt ptr
    let protocol ← readByte pkt (ptr+9)
    when (first/16 ≠ 4 ∨ first % 16 < 5 ∨ protocol ≠ ipprotoUdp) (exit 0)
    when (pkt.length-ptr < first % 16*4) (exit 0)
    pure (ptr+first % 16*4)
  else if type = ethPIpv6 then do
    when (pkt.length < ptr+40) (exit 0)
    let first ← readByte pkt ptr
    let nexthdr ← readByte pkt (ptr+6)
    when (first/16 ≠ 6 ∨ nexthdr ≠ ipprotoUdp) (exit 0)
    pure (ptr+40)
  else exit 0

def udpLayer (ptr : ℕ) : Fr ℕ := do
  when (pkt.length < ptr+8) (exit 0)
  let srcPort ← u16Dec pkt ptr
  let dstPort ← u16Dec pkt (ptr+2)
  when (srcPort ≠ 53 ∧ dstPort ≠ 53) (exit 0)
  pure (ptr+8)

/-- The call of `dns_validate`: its code and the report it left, with the cut
text of a last write that did not fit. -/
def judge (d : Bytes) : Fr (ℤ × Bytes) := fun s =>
  match dnsValidate d dnsEmsgMaxlen with
  | .ok rc t => .ok (rc, t.dec.emsg.text ++ t.dec.emsg.tail) s
  | .exit rc t => .ok (rc, t.dec.emsg.text ++ t.dec.emsg.tail) s
  | .fault c => .fault (.validate c)

def inspDns (d : Bytes) : Fr ℤ := do
  modify fun s => { s with dnsPkts := s.dnsPkts+1 }
  let (rc, emsg) ← judge d
  modify fun s => if rc < 0 then { s with dnsFail := s.dnsFail+1 }
    else { s with dnsOkay := s.dnsOkay+1 }
  modify fun s => { s with out := s.out ++ cstr emsg }
  pure rc

/-- The part of `insp_process_pkt` in front of the count of DNS packets. -/
def inspHeaders : Fr ℕ := do
  modify fun s => { s with rcvPkts := s.rcvPkts+1 }
  let (type, ptr) ← ethLayer pkt
  let ptr ← ipLayer pkt type ptr
  udpLayer pkt ptr

def inspProcessPkt : Fr ℤ := call do
  let ptr ← inspHeaders pkt
  inspDns (pkt.drop ptr)

def byteAt (i : ℕ) : ℕ := (pkt.getD i 0).toNat

def wordAt (i : ℕ) : ℕ := byteAt pkt i*256+byteAt pkt (i+1)

/-- The type behind the tags and where they end, if the frame goes that far. -/
def tagsEnd : ℕ → ℕ → ℕ → Option (ℕ × ℕ)
  | 0, _, _ => none
  | k+1, type, ptr =>
    if isVlan type then
      if pkt.length < ptr+4 then none else tagsEnd k (wordAt pkt (ptr+2)) (ptr+4)
    else some (type, ptr)

def ethEnd : Option (ℕ × ℕ) :=
  if pkt.length < ethHlen then none else tagsEnd pkt (pkt.length+1) (wordAt pkt 12) ethHlen

def ipEnd (type ptr : ℕ) : Option ℕ :=
  if type = ethPIp then
    if ptr+20 ≤ pkt.length ∧ byteAt pkt ptr/16 = 4 ∧ 5 ≤ byteAt pkt ptr % 16 ∧
        byteAt pkt (ptr+9) = ipprotoUdp ∧ ptr+byteAt pkt ptr % 16*4 ≤ pkt.length then
      some (ptr+byteAt pkt ptr % 16*4)
    else none
  else if type = ethPIpv6 then
    if ptr+40 ≤ pkt.length ∧ byteAt pkt ptr/16 = 6 ∧ byteAt pkt (ptr+6) = ipprotoUdp then
      some (ptr+40)
    else none
  else none

def udpEnd (ptr : ℕ) : Option ℕ :=
  if ptr+8 ≤ pkt.length ∧ (wordAt pkt ptr = 53 ∨ wordAt pkt (ptr+2) = 53) then some (ptr+8)
  else none

def dnsStart : Option ℕ := do
  let (type, ptr) ← ethEnd pkt
  let ptr ← ipEnd pkt type ptr
  udpEnd pkt ptr

/-- The bytes that are handed to `dns_validate`. -/
def dnsPayload : Option Bytes := (dnsStart pkt).map pkt.drop

/-- What `dns_validate` returns for a message, unless it is undefined. -/
def dnsVerdict (d : Bytes) : Option ℤ :=
  match judge d ⟨0, 0, 0, 0, []⟩ with
  | .ok (rc, _) _ => some rc
  | _ => none

/-- What `insp_process_pkt` returns for a frame, unless it is undefined. -/
def verdict : Option ℤ :=
  match dnsPayload pkt with
  | none => some 0
  | some d => dnsVerdict d

end Frame

theorem udpEnd_isSome (pkt : Bytes) (ptr : ℕ) : (udpEnd pkt ptr).isSome ↔
    ptr+8 ≤ pkt.length ∧ (wordAt pkt ptr = 53 ∨ wordAt pkt (ptr+2) = 53) := by
  rw [udpEnd]
  split <;> simp [*]

/-- A parser that returns from the function where the frame is not of its kind. -/
def located {α : Type} : Option α → Fr α
  | some a => pure a
  | none => exit 0

theorem located_bind {α β : Type} (o : Option α) (f : α → Option β) :
    (located o >>= fun a => located (f a)) = located (o.bind f) := by
  cases o with
  | some a => exact pure_bind a _
  | none => rfl

theorem located_ite {α : Type} (p : Prop) [Decidable p] (o : Option α) {x : Fr α}
    (h : ¬ p → x = located o) :
    (when p (exit 0) >>= fun _ => x) = located (if p then none else o) := by
  by_cases hp : p
  · rw [when_pos hp, if_pos hp]
    rfl
  · rw [when_neg hp, if_neg hp, pure_bind, h hp]

section Reads

variable {pkt : Bytes}

theorem readByte_eq {i : ℕ} (h : i < pkt.length) : readByte pkt i = pure (byteAt pkt i) := by
  funext s
  rw [readByte, byteAt, List.getD_eq_getElem?_getD, List.getElem?_eq_getElem h]
  rfl

theorem u16Dec_eq {i : ℕ} (h : i+2 ≤ pkt.length) : u16Dec pkt i = pure (wordAt pkt i) := by
  rw [u16Dec, readByte_eq (by omega), readByte_eq (by omega), pure_bind, pure_bind, wordAt]

theorem vlanLoop_eq {k type ptr : ℕ} (hin : ptr ≤ pkt.length) (hk : pkt.length < ptr+k) :
    vlanLoop pkt k type ptr = located (tagsEnd pkt k type ptr) := by
  induction k generalizing type ptr with
  | zero => omega
  | succ k ih =>
    rw [vlanLoop, tagsEnd]
    by_cases hvlan : isVlan type
    · rw [if_pos hvlan, if_pos hvlan]
      apply located_ite
      intro hroom
      rw [u16Dec_eq (by omega), pure_bind, ih (by omega) (by omega)]
    · rw [if_neg hvlan, if_neg hvlan]
      rfl

theorem ethLayer_eq (pkt : Bytes) : ethLayer pkt = located (ethEnd pkt) := by
  apply located_ite
  intro hin
  rw [u16Dec_eq (not_lt.mp hin), pure_bind, vlanLoop_eq (not_lt.mp hin) (by omega)]

theorem ipLayer_eq (pkt : Bytes) (type ptr : ℕ) :
    ipLayer pkt type ptr = located (ipEnd pkt type ptr) := by
  rw [ipLayer, ipEnd]
  by_cases hip : type = ethPIp
  · rw [if_pos hip, if_pos hip]
    by_cases hlen : pkt.length < ptr+20
    · rw [when_pos hlen, if_neg (by omega)]
      rfl
    rw [when_neg hlen, pure_bind, readByte_eq (by omega), pure_bind, readByte_eq (by omega),
      pure_bind]
    by_cases hbad : byteAt pkt ptr/16 ≠ 4 ∨ byteAt pkt ptr % 16 < 5 ∨
        byteAt pkt (ptr+9) ≠ ipprotoUdp
    · rw [when_pos hbad, if_neg (by omega)]
      rfl
    rw [when_neg hbad, pure_bind]
    by_cases hshort : pkt.length-ptr < byteAt pkt ptr % 16*4
    · rw [when_pos hshort, if_neg (by omega)]
      rfl
    rw [when_neg hshort, pure_bind, if_pos (by omega)]
    rfl
  · rw [if_neg hip, if_neg hip]
    by_cases hip6 : type = ethPIpv6
    · rw [if_pos hip6, if_pos hip6]
      by_cases hlen : pkt.length < ptr+40
      · rw [when_pos hlen, if_neg (by omega)]
        rfl
      rw [when_neg hlen, pure_bind, readByte_eq (by omega), pure_bind, readByte_eq (by omega),
        pure_bind]
      by_cases hbad : byteAt pkt ptr/16 ≠ 6 ∨ byteAt pkt (ptr+6) ≠ ipprotoUdp
      · rw [when_pos hbad, if_neg (by omega)]
        rfl
      rw [when_neg hbad, pure_bind, if_pos (by omega)]
      rfl
    · rw [if_neg hip6, if_neg hip6]
      rfl

theorem udpLayer_eq (pkt : Bytes) (ptr : ℕ) : udpLayer pkt ptr = located (udpEnd pkt ptr) := by
  rw [udpLayer, udpEnd]
  by_cases hlen : pkt.length < ptr+8
  · rw [when_pos hlen, if_neg (by omega)]
    rfl
  rw [when_neg hlen, pure_bind, u16Dec_eq (by omega), pure_bind, u16Dec_eq (by omega), pure_bind]
  by_cases hport : wordAt pkt ptr ≠ 53 ∧ wordAt pkt (ptr+2) ≠ 53
  · rw [when_pos hport, if_neg (by omega)]
    rfl
  rw [when_neg hport, pure_bind, if_pos (by omega)]
  rfl

end Reads

theorem layers_eq (pkt : Bytes) :
    (do
      let (type, ptr) ← ethLayer pkt
      let ptr ← ipLayer pkt type ptr
      udpLayer pkt ptr) = located (dnsStart pkt) := by
  rw [ethLayer_eq, dnsStart]
  cases ethEnd pkt with
  | none => rfl
  | some e =>
    change (ipLayer pkt e.1 e.2 >>= udpLayer pkt) = located ((ipEnd pkt e.1 e.2).bind (udpEnd pkt))
    rw [ipLayer_eq, ← located_bind]
    exact congrArg _ (funext (udpLayer_eq pkt))

/-- The headers of a frame are left where its DNS message lies; no read leaves the frame. -/
theorem inspHeaders_eq (pkt : Bytes) (s : DnsInsp) :
    inspHeaders pkt s = located (dnsStart pkt) { s with rcvPkts := s.rcvPkts+1 } := by
  rw [inspHeaders, layers_eq]
  rfl

def judged (rc : ℤ) (emsg : Bytes) (s : DnsInsp) : DnsInsp :=
  { s with
    dnsPkts := s.dnsPkts+1
    dnsOkay := if rc < 0 then s.dnsOkay else s.dnsOkay+1
    dnsFail := if rc < 0 then s.dnsFail+1 else s.dnsFail
    out := s.out ++ cstr emsg }

theorem inspDns_run (d : Bytes) (s : DnsInsp) :
    (∃ rc emsg, (∀ t, judge d t = .ok (rc, emsg) t) ∧ inspDns d s = .ok rc (judged rc emsg s)) ∨
      ∃ c, (∀ t, judge d t = .fault (.validate c)) ∧ inspDns d s = .fault (.validate c) := by
  have hok (rc : ℤ) (emsg : Bytes) (h : ∀ t, judge d t = .ok (rc, emsg) t) :
      inspDns d s = .ok rc (judged rc emsg s) := by
    rw [inspDns, bind_of_ok (modify_run _ _), bind_of_ok (h _)]
    by_cases hneg : rc < 0
    · simp only [if_pos hneg, judged]
      rfl
    · simp only [if_neg hneg, judged]
      rfl
  cases hv : dnsValidate d dnsEmsgMaxlen with
  | ok rc t =>
    have h u : judge d u = .ok (rc, t.dec.emsg.text ++ t.dec.emsg.tail) u := by rw [judge, hv]
    exact .inl ⟨rc, _, h, hok rc _ h⟩
  | exit rc t =>
    have h u : judge d u = .ok (rc, t.dec.emsg.text ++ t.dec.emsg.tail) u := by rw [judge, hv]
    exact .inl ⟨rc, _, h, hok rc _ h⟩
  | fault c =>
    have h u : judge d u = .fault (.validate c) := by rw [judge, hv]
    refine .inr ⟨c, h, ?_⟩
    rw [inspDns, bind_of_ok (modify_run _ _), bind_of_fault (h _)]

theorem inspProcessPkt_eq (pkt : Bytes) (s : DnsInsp) :
    inspProcessPkt pkt s = match dnsPayload pkt with
      | none => .ok 0 { s with rcvPkts := s.rcvPkts+1 }
      | some d => inspDns d { s with rcvPkts := s.rcvPkts+1 } := by
  have hrun := inspHeaders_eq pkt s
  rw [dnsPayload]
  cases hstart : dnsStart pkt with
  | none =>
    rw [hstart] at hrun
    rw [inspProcessPkt, call, bind_of_exit hrun]
    rfl
  | some ptr =>
    rw [hstart] at hrun
    rw [inspProcessPkt, call, bind_of_ok hrun]
    obtain ⟨rc, emsg, -, h⟩ | ⟨c, -, h⟩ :=
      inspDns_run (pkt.drop ptr) { s with rcvPkts := s.rcvPkts+1 }
    · rw [h]
      exact h.symm
    · rw [h]
      exact h.symm

theorem inspProcessPkt_verdict (pkt : Bytes) (s : DnsInsp) :
    (∃ rc t, verdict pkt = some rc ∧ inspProcessPkt pkt s = .ok rc t) ∨
      ∃ c, verdict pkt = none ∧ inspProcessPkt pkt s = .fault c := by
  rw [inspProcessPkt_eq, verdict]
  cases dnsPayload pkt with
  | none => exact .inl ⟨0, _, rfl, rfl⟩
  | some d =>
    obtain ⟨rc, emsg, hj, h⟩ | ⟨c, hj, h⟩ := inspDns_run d { s with rcvPkts := s.rcvPkts+1 }
    · refine .inl ⟨rc, _, ?_, h⟩
      simp only [dnsVerdict, hj]
    · refine .inr ⟨_, ?_, h⟩
      simp only [dnsVerdict, hj]

/-- The frame is counted as DNS: `dns_pkts` is one more, or `dns_validate`, which is called
behind the count, is undefined. -/
def Counts (pkt : Bytes) (s : DnsInsp) : Prop :=
  (∃ rc t, inspProcessPkt pkt s = .ok rc t ∧ t.dnsPkts = s.dnsPkts+1) ∨
    ∃ c, inspProcessPkt pkt s = .fault (.validate c)

theorem counts_iff (pkt : Bytes) (s : DnsInsp) : Counts pkt s ↔ (dnsStart pkt).isSome := by
  have hpayload : (dnsPayload pkt).isSome = (dnsStart pkt).isSome := by
    rw [dnsPayload, Option.isSome_map]
  rw [← hpayload, Counts, inspProcessPkt_eq]
  cases dnsPayload pkt with
  | none =>
    refine iff_of_false ?_ Bool.false_ne_true
    rintro (⟨rc, t, h, hcount⟩ | ⟨c, h⟩)
    · cases h
      exact absurd hcount (Nat.lt_succ_self _).ne
    · cases h
  | some d =>
    refine iff_of_true ?_ rfl
    obtain ⟨rc, emsg, -, h⟩ | ⟨c, -, h⟩ := inspDns_run d { s with rcvPkts := s.rcvPkts+1 }
    · exact .inl ⟨rc, _, h, rfl⟩
    · exact .inr ⟨c, h⟩

end DnsPkt.Inspector
