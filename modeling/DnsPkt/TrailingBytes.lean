import DnsPkt.GeneratedFrame
import DnsPkt.PacketChecks

/-!
# Bytes behind the datagram

The inspector takes the end of a frame for the end of the message, and not the
lengths of the IP and UDP headers. So bytes behind the datagram, such as those
that fill up a short Ethernet frame, are left alone only as far as no check of
the decoder tells them apart.
-/

set_option autoImplicit false

namespace DnsPkt.TrailingBytes
open DnsPkt.CheckedRun DnsPkt.CheckedRun.Run DnsPkt.Octets DnsPkt.Protocol DnsPkt.MessageStore
open DnsPkt.RecordDecoder DnsPkt.MessageDecoder DnsPkt.Inspector DnsPkt.EndChecks
open DnsPkt.PacketChecks DnsPkt.GeneratedFrame

def ihl (f : Bytes) (ptr : ℕ) : ℕ := byteAt f ptr % 16*4

/-- The frame ends where its IPv4 datagram ends, whose header is at `ptr`: the
total length reaches from there to the end of the frame and, in a UDP datagram,
the UDP length from the end of the IP header. -/
structure EndsDatagram (f : Bytes) (ptr : ℕ) : Prop where
  eth : ethEnd f = some (ethPIp, ptr)
  header : ptr+20 ≤ f.length
  total : wordAt f (ptr+2) = f.length-ptr
  options : ptr+ihl f ptr ≤ f.length
  udp : byteAt f (ptr+9) = ipprotoUdp → ptr+ihl f ptr+8 ≤ f.length ∧
    wordAt f (ptr+ihl f ptr+4) = f.length-(ptr+ihl f ptr)

section Frame

variable (f t : Bytes)

theorem byteAt_append {i : ℕ} (h : i < f.length) : byteAt (f ++ t) i = byteAt f i := by
  rw [byteAt, byteAt, List.getD_eq_getElem?_getD, List.getD_eq_getElem?_getD,
    List.getElem?_append_left h]

theorem wordAt_append {i : ℕ} (h : i+2 ≤ f.length) : wordAt (f ++ t) i = wordAt f i := by
  rw [wordAt, wordAt, byteAt_append f t (by omega), byteAt_append f t (by omega)]

theorem tagsEnd_append {k k' type ptr : ℕ} {e : ℕ × ℕ} (hk : k ≤ k')
    (h : tagsEnd f k type ptr = some e) : tagsEnd (f ++ t) k' type ptr = some e := by
  induction k generalizing k' type ptr with
  | zero => cases h
  | succ k ih =>
    obtain ⟨j, rfl⟩ : ∃ j, k' = j+1 := ⟨k'-1, by omega⟩
    rw [tagsEnd] at h ⊢
    by_cases hv : isVlan type
    · rw [if_pos hv] at h ⊢
      by_cases hshort : f.length < ptr+4
      · rw [if_pos hshort] at h
        cases h
      · rw [if_neg hshort] at h
        rw [if_neg (by rw [List.length_append]; omega), wordAt_append f t (by omega)]
        exact ih (by omega) h
    · rw [if_neg hv] at h ⊢
      exact h

theorem ethEnd_append {e : ℕ × ℕ} (h : ethEnd f = some e) : ethEnd (f ++ t) = some e := by
  rw [ethEnd] at h ⊢
  by_cases hshort : f.length < ethHlen
  · rw [if_pos hshort] at h
    cases h
  · have hlen : (f ++ t).length = f.length+t.length := List.length_append
    have hin : 14 ≤ f.length := Nat.le_of_not_lt hshort
    rw [if_neg hshort] at h
    rw [if_neg (by omega), wordAt_append f t (by omega)]
    exact tagsEnd_append f t (by omega) h

theorem ipEnd_append {ptr : ℕ} (h : EndsDatagram f ptr) :
    ipEnd (f ++ t) ethPIp ptr = ipEnd f ethPIp ptr := by
  have hlen : (f ++ t).length = f.length+t.length := List.length_append
  have hheader := h.header
  have hoptions := h.options
  rw [ihl] at hoptions
  rw [ipEnd, ipEnd, if_pos rfl, if_pos rfl, byteAt_append f t (by omega),
    byteAt_append f t (by omega), hlen]
  apply if_congr _ rfl rfl
  constructor
  · rintro ⟨-, hversion, hihl, hproto, -⟩
    exact ⟨hheader, hversion, hihl, hproto, hoptions⟩
  · rintro ⟨-, hversion, hihl, hproto, -⟩
    exact ⟨by omega, hversion, hihl, hproto, by omega⟩

theorem ipEnd_udp {ptr q : ℕ} (h : EndsDatagram f ptr) (hq : ipEnd f ethPIp ptr = some q) :
    q+8 ≤ f.length := by
  rw [ipEnd, if_pos rfl] at hq
  by_cases hip : ptr+20 ≤ f.length ∧ byteAt f ptr/16 = 4 ∧ 5 ≤ byteAt f ptr % 16 ∧
      byteAt f (ptr+9) = ipprotoUdp ∧ ptr+byteAt f ptr % 16*4 ≤ f.length
  · rw [if_pos hip] at hq
    cases hq
    exact (h.udp hip.2.2.2.1).1
  · rw [if_neg hip] at hq
    cases hq

theorem udpEnd_append {q : ℕ} (h : q+8 ≤ f.length) : udpEnd (f ++ t) q = udpEnd f q := by
  have hlen : (f ++ t).length = f.length+t.length := List.length_append
  rw [udpEnd, udpEnd, wordAt_append f t (by omega), wordAt_append f t (by omega), hlen]
  apply if_congr _ rfl rfl
  constructor
  · rintro ⟨-, hport⟩
    exact ⟨h, hport⟩
  · rintro ⟨-, hport⟩
    exact ⟨by omega, hport⟩

/-- The message of a frame with more bytes is that of the frame with those bytes. -/
theorem dnsPayload_append {ptr : ℕ} (h : EndsDatagram f ptr) :
    dnsPayload (f ++ t) = (dnsPayload f).map (· ++ t) := by
  have hstart : dnsStart f = (ipEnd f ethPIp ptr).bind (udpEnd f) := by
    rw [dnsStart, h.eth]
    rfl
  have hstart' : dnsStart (f ++ t) = (ipEnd f ethPIp ptr).bind (udpEnd (f ++ t)) := by
    rw [dnsStart, ethEnd_append f t h.eth, ← ipEnd_append f t h]
    rfl
  rw [dnsPayload, dnsPayload, hstart, hstart']
  cases hip : ipEnd f ethPIp ptr with
  | none => rfl
  | some q =>
    have hq : q+8 ≤ f.length := ipEnd_udp f h hip
    rw [Option.bind_some, Option.bind_some, udpEnd_append f t hq, udpEnd]
    by_cases hport : q+8 ≤ f.length ∧ (wordAt f q = 53 ∨ wordAt f (q+2) = 53)
    · rw [if_pos hport, Option.map_some, Option.map_some, Option.map_some,
        List.drop_append_of_le_length hq]
    · rw [if_neg hport]
      rfl

end Frame

/-- The decoder tells the bytes `t1` behind the datagram from `t2` nowhere: the two
begin with the same bytes `c`, and each of its checks against the end of the
message with `t1` lies inside of these or comes out the same with `t2`. -/
def SeenAlike (base t1 t2 : Bytes) : Prop := ∀ d, dnsPayload base = some d →
  ∃ c u1 u2, t1 = c ++ u1 ∧ t2 = c ++ u2 ∧
    ∀ k ∈ packetChecks (validateEnv (d ++ t1) dnsEmsgMaxlen) (zeroMsg 0),
      Alike (d ++ c) (d ++ t1) (d ++ t2) k

theorem inspDns_congr {a b : Bytes} (h : dnsValidate a dnsEmsgMaxlen =
    dnsValidate b dnsEmsgMaxlen) :
    inspDns a = inspDns b := by
  have hjudge : judge a = judge b := by
    funext s
    rw [judge, judge, h]
  rw [inspDns, inspDns, hjudge]

theorem SeenAlike.validate {base t1 t2 d : Bytes} (h : SeenAlike base t1 t2)
    (hd : dnsPayload base = some d) :
    dnsValidate (d ++ t1) dnsEmsgMaxlen = dnsValidate (d ++ t2) dnsEmsgMaxlen := by
  obtain ⟨c, u1, u2, h1, h2, hchecks⟩ := h d hd
  apply dnsValidate_alike _ hchecks
  constructor
  · rw [h1, ← List.append_assoc]
    exact List.prefix_append ..
  · rw [h2, ← List.append_assoc]
    exact List.prefix_append ..

/-- Bytes behind the datagram leave the verdict, the counters and the report alone
where the decoder does not tell them apart. -/
theorem trailing_ignored {base t1 t2 : Bytes} {ptr : ℕ} (hbase : EndsDatagram base ptr)
    (halike : SeenAlike base t1 t2) (s : DnsInsp) :
    inspProcessPkt (base ++ t1) s = inspProcessPkt (base ++ t2) s := by
  rw [inspProcessPkt_eq, inspProcessPkt_eq, dnsPayload_append base t1 hbase,
    dnsPayload_append base t2 hbase]
  cases hd : dnsPayload base with
  | none => rfl
  | some d =>
    have hsame := inspDns_congr (halike.validate hd)
    simp only [Option.map_some, hsame]

theorem headers_ends {d : Bytes} (check : ℕ) (h : d.length+28 < 2^16) :
    EndsDatagram (headers d.length check ++ d) 14 := by
  have hlen : (headers d.length check ++ d).length = 42+d.length := by
    rw [List.length_append, length_headers]
  have hihl : ihl (headers d.length check ++ d) 14 = 20 := by
    rw [ihl, headers_first]
  constructor
  · have hin : ¬ (headers d.length check ++ d).length < 14 := by omega
    rw [ethEnd, if_neg hin, headers_type]
    rfl
  · omega
  · rw [headers_totLen, hlen]
    omega
  · omega
  · intro _
    rw [hihl, headers_udpLen, hlen]
    omega

theorem headers_payload (check : ℕ) (d : Bytes) :
    dnsPayload (headers d.length check ++ d) = some d := by
  rw [dnsPayload, headers_start, Option.map_some, List.drop_left' (length_headers ..)]

def rootQuestion : Bytes := [0x12, 0x34, 1, 0, 0, 1, 0, 0, 0, 0, 0, 0, 0, 0, 1, 0, 1]

theorem rootQuestion_alike : SeenAlike (headers 17 0 ++ rootQuestion) [] [0] := by
  intro d hd
  cases (headers_payload 0 rootQuestion).symm.trans hd
  exact ⟨[], [], [0], rfl, rfl, by decide +kernel⟩

theorem rootQuestion_padded : inspProcessPkt (headers 17 0 ++ rootQuestion ++ []) ⟨0, 0, 0, 0, []⟩ =
    inspProcessPkt (headers 17 0 ++ rootQuestion ++ [0]) ⟨0, 0, 0, 0, []⟩ :=
  trailing_ignored (headers_ends (d := rootQuestion) 0 (by decide)) rootQuestion_alike _

/-- A message that is cut off goes on in the bytes that fill up the frame. -/
theorem padding_judged : EndsDatagram (headers 12 0 ++ rootQuestion.take 12) 14 ∧
    verdict (headers 12 0 ++ rootQuestion.take 12) = some (-1) ∧
      verdict (headers 12 0 ++ rootQuestion.take 12 ++ List.replicate 6 0) = some 0 :=
  ⟨headers_ends (d := rootQuestion.take 12) 0 (by decide), by decide +kernel, by decide +kernel⟩

end DnsPkt.TrailingBytes
