import DnsPkt.SocketFilter

/-!
# The frames of the generator

`pcap_end_pkt` of `dns_gen.c` puts Ethernet, IPv4 and UDP headers in front of
the DNS message that stands in the packet buffer. The frame that comes out is
one that the inspector and both filters take for DNS, and its lengths and its
checksum are right.
-/

set_option autoImplicit false

namespace DnsPkt.GeneratedFrame
open DnsPkt.Octets DnsPkt.Inspector

abbrev dnsMaxPdusize : ℕ := 2048
abbrev ethipudpLen : ℕ := 42

/-- The sum of the words of a buffer in a `uint32_t`, with a last odd byte. -/
def sumWords : Bytes → ℕ → ℕ
  | hi :: lo :: rest, sum => sumWords rest ((sum+(hi.toNat*256+lo.toNat)) % 2^32)
  | [x], sum => (sum+x.toNat) % 2^32
  | [], sum => sum

/-- The loop that folds a sum into 16 bits, for a number of rounds. -/
def foldSum : ℕ → ℕ → ℕ
  | 0, sum => sum
  | k+1, sum => if sum/2^16 = 0 then sum else foldSum k (sum % 2^16+sum/2^16)

def ipChecksum (b : Bytes) : ℕ :=
  let sum := sumWords b 0
  (2^32-1-foldSum sum sum) % 2^16

/-- The words of a buffer in network order, the last one filled up with a zero byte. -/
def words16 : Bytes → List ℕ
  | hi :: lo :: rest => (hi.toNat*256+lo.toNat) :: words16 rest
  | [x] => [x.toNat*256]
  | [] => []

def onesAdd (a b : ℕ) : ℕ := (a+b) % 2^16+(a+b)/2^16

def onesSum (b : Bytes) : ℕ := (words16 b).foldl onesAdd 0

/-- The parts of the state of the generator that a packet is made in. -/
structure DnsGen where
  pktBuf : Bytes
  pktLen : ℕ
  size : pktBuf.length = dnsMaxPdusize

def htons (v : ℕ) : Bytes := encU16 (UInt16.ofNat v)

def udpHdr (msgLen : ℕ) : Bytes := htons 53 ++ htons 53 ++ htons (8+msgLen) ++ htons 0

/-- A little-endian host keeps the version of the header above its length. -/
def ipHdr (msgLen check : ℕ) : Bytes :=
  [4*16+5, 0] ++ htons (msgLen+8+20) ++ [0, 0, 0, 0, 255, 17] ++ htons check ++
    [0, 0, 0, 0, 0, 0, 0, 0]

def ethHdr : Bytes :=
  [0x00, 0x00, 0x00, 0x00, 0x00, 0x02] ++ [0x00, 0x00, 0x00, 0x00, 0x00, 0x01] ++ htons ethPIp

/-- Headers that are put in front of each other. -/
theorem patch_headers {buf udp ip eth : Bytes} (hbuf : 42 ≤ buf.length) (hudp : udp.length = 8)
    (hip : ip.length = 20) (heth : eth.length = 14) :
    patch (patch (patch buf 34 udp) 14 ip) 0 eth = eth ++ (ip ++ (udp ++ buf.drop 42)) := by
  have hfront (w c : Bytes) (j i : ℕ) (hj : i+w.length = j) (hle : j ≤ buf.length) :
      patch (buf.take j ++ c) i w = buf.take i ++ (w ++ c) := by
    have htake : (buf.take j ++ c).take i = buf.take i := by
      rw [List.take_append_of_le_length (by rw [List.length_take]; omega), List.take_take,
        Nat.min_eq_left (by omega)]
    rw [patch, htake, hj, List.drop_left' (by rw [List.length_take]; omega), List.append_assoc]
  have h1 : patch buf 34 udp = buf.take 34 ++ (udp ++ buf.drop 42) := by
    rw [patch, hudp, List.append_assoc]
  rw [h1, hfront ip _ 34 14 (by omega) (by omega), hfront eth _ 14 0 (by omega) (by omega),
    List.take_zero, List.nil_append]

theorem length_patch_headers {buf udp ip eth : Bytes} (hbuf : 42 ≤ buf.length)
    (hudp : udp.length = 8) (hip : ip.length = 20) (heth : eth.length = 14) :
    (patch (patch (patch buf 34 udp) 14 ip) 0 eth).length = buf.length := by
  rw [patch_headers hbuf hudp hip heth]
  simp only [List.length_append, List.length_drop]
  omega

def pcapStartPkt (gen : DnsGen) : DnsGen := { gen with pktLen := ethipudpLen }

def pcapEndPkt (gen : DnsGen) : DnsGen :=
  let msgLen := (gen.pktLen-ethipudpLen) % 2^16
  let udp := udpHdr msgLen
  let ip := ipHdr msgLen (ipChecksum (ipHdr msgLen 0))
  { gen with
    pktBuf := patch (patch (patch gen.pktBuf 34 udp) 14 ip) 0 ethHdr
    size := (length_patch_headers (gen.size ▸ by decide) rfl rfl rfl).trans gen.size }

def frame (gen : DnsGen) : Bytes := gen.pktBuf.take gen.pktLen

/-- The headers in front of a message, with the six bytes that depend on it. -/
def headers (n check : ℕ) : Bytes := ethHdr ++ (ipHdr n check ++ udpHdr n)

theorem frame_eq {gen : DnsGen} {d : Bytes} (hlen : gen.pktLen = ethipudpLen+d.length)
    (hd : slice gen.pktBuf ethipudpLen d.length = d) (hfit : d.length ≤ dnsMaxPdusize-ethipudpLen) :
    frame (pcapEndPkt gen) = headers d.length (ipChecksum (ipHdr d.length 0)) ++ d := by
  have hsize : gen.pktBuf.length = 2048 := gen.size
  change gen.pktLen = 42+d.length at hlen
  change d.length ≤ 2006 at hfit
  have hmsg : (gen.pktLen-42) % 2^16 = d.length := by omega
  have hbuf : (pcapEndPkt gen).pktBuf = headers d.length (ipChecksum (ipHdr d.length 0)) ++
      gen.pktBuf.drop 42 := by
    change patch (patch (patch gen.pktBuf 34 _) 14 _) 0 _ = _
    rw [patch_headers (by omega) rfl rfl rfl, hmsg]
    simp only [headers, List.append_assoc]
  have hcut : (gen.pktBuf.drop 42).take d.length = d := hd
  change (pcapEndPkt gen).pktBuf.take gen.pktLen = _
  rw [hbuf, hlen, List.take_append, List.take_of_length_le (Nat.le_add_right 42 _)]
  change _ ++ (gen.pktBuf.drop 42).take (42+d.length-42) = _
  rw [Nat.add_sub_cancel_left, hcut]

theorem word_htons (v : ℕ) :
    (UInt8.ofNat ((UInt16.ofNat v).toNat/256)).toNat*256+(UInt8.ofNat
      (UInt16.ofNat v).toNat).toNat =
      v % 2^16 := by
  rw [UInt8.toNat_ofNat', UInt8.toNat_ofNat', UInt16.toNat_ofNat']
  omega

theorem words16_ipHdr (n check : ℕ) : words16 (ipHdr n check) =
    [0x4500, (n+28) % 2^16, 0, 0, 0xff11, check % 2^16, 0, 0, 0, 0] := by
  rw [← word_htons, ← word_htons]
  rfl

theorem sumWords_eq (b : Bytes) (sum : ℕ) (heven : b.length % 2 = 0)
    (hlt : sum+(words16 b).sum < 2^32) : sumWords b sum = sum+(words16 b).sum := by
  induction b, sum using sumWords.induct with
  | case1 hi lo rest sum ih =>
    simp only [List.length_cons] at heven
    rw [words16, List.sum_cons] at hlt
    rw [← Nat.add_assoc] at hlt
    rw [Nat.mod_eq_of_lt ((Nat.le_add_right _ _).trans_lt hlt)] at ih
    rw [sumWords, words16, List.sum_cons, Nat.mod_eq_of_lt ((Nat.le_add_right _ _).trans_lt hlt),
      ih (by omega) hlt, Nat.add_assoc]
  | case2 x sum => simp at heven
  | case3 sum => rfl

theorem foldSum_twice {k sum : ℕ} (hk : 2 ≤ k) (hbig : 2^16 ≤ sum)
    (hsmall : sum % 2^16+sum/2^16 < 2^16) : foldSum k sum = sum % 2^16+sum/2^16 := by
  obtain ⟨j, rfl⟩ : ∃ j, k = j+1+1 := ⟨k-2, by omega⟩
  rw [foldSum, if_neg (by omega), foldSum, if_pos (by omega)]

theorem onesAdd_small {a b : ℕ} (h : a+b < 2^16) : onesAdd a b = a+b := by
  rw [onesAdd, Nat.mod_eq_of_lt h, Nat.div_eq_of_lt h, Nat.add_zero]

theorem onesAdd_carry {a b : ℕ} (h : 2^16 ≤ a+b) (h2 : a+b < 2^17) :
    onesAdd a b = a+b-0xffff := by
  rw [onesAdd]
  omega

theorem ipChecksum_ipHdr {n : ℕ} (h : n ≤ 2006) : ipChecksum (ipHdr n 0) = 48081-n := by
  have heven : (ipHdr n 0).length = 20 := rfl
  have hwords : (words16 (ipHdr n 0)).sum = 82989+n := by
    rw [words16_ipHdr, Nat.mod_eq_of_lt (show n+28 < 2^16 by omega)]
    rw [List.sum_cons, List.sum_cons]
    have hrest : [0, 0, 0xff11, 0 % 2^16, 0, 0, 0, 0].sum = 0xff11 := rfl
    omega
  have hsum : sumWords (ipHdr n 0) 0 = 82989+n := by
    rw [sumWords_eq _ _ (by rw [heven]) (by omega), hwords, Nat.zero_add]
  rw [ipChecksum, hsum, foldSum_twice (by omega) (by omega) (by omega)]
  omega

/-- The header is checked by its own checksum. -/
theorem onesSum_ipHdr {n : ℕ} (h : n ≤ 2006) :
    onesSum (ipHdr n (ipChecksum (ipHdr n 0))) = 0xffff := by
  have hlen : (n+28) % 2^16 = n+28 := Nat.mod_eq_of_lt (by omega)
  have hcheck : (48081-n) % 2^16 = 48081-n := Nat.mod_eq_of_lt (by omega)
  rw [ipChecksum_ipHdr h, onesSum, words16_ipHdr, hlen, hcheck]
  have h0 : onesAdd 0 0x4500 = 0x4500 := rfl
  have h1 : onesAdd 0x4500 (n+28) = 17692+n := by
    rw [onesAdd_small (by omega)]
    omega
  have hzero : onesAdd (17692+n) 0 = 17692+n := onesAdd_small (by omega)
  have h2 : onesAdd (17692+n) 0xff11 = 17454+n := by
    rw [onesAdd_carry (by omega) (by omega)]
    omega
  have h3 : onesAdd (17454+n) (48081-n) = 0xffff := by
    rw [onesAdd_small (by omega)]
    omega
  have hlast : onesAdd 0xffff 0 = 0xffff := rfl
  rw [List.foldl_cons, h0, List.foldl_cons, h1, List.foldl_cons, hzero, List.foldl_cons, hzero,
    List.foldl_cons, h2, List.foldl_cons, h3]
  simp only [List.foldl_cons, List.foldl_nil, hlast]

section Frame

variable {d : Bytes} (n check : ℕ)

theorem length_headers : (headers n check).length = 42 := rfl

theorem wordAt_eq {f : Bytes} {i a b : ℕ} (hi : byteAt f i = a) (lo : byteAt f (i+1) = b) :
    wordAt f i = a*256+b := by rw [wordAt, hi, lo]

theorem headers_type : wordAt (headers n check ++ d) 12 = 0x0800 :=
  wordAt_eq (a := 8) (b := 0) rfl rfl

theorem headers_first : byteAt (headers n check ++ d) 14 = 0x45 := rfl

theorem headers_protocol : byteAt (headers n check ++ d) 23 = ipprotoUdp := rfl

theorem headers_fragment : wordAt (headers n check ++ d) 20 = 0 :=
  wordAt_eq (a := 0) (b := 0) rfl rfl

theorem headers_port : wordAt (headers n check ++ d) 34 = 53 :=
  wordAt_eq (a := 0) (b := 53) rfl rfl

theorem headers_totLen : wordAt (headers n check ++ d) 16 = (n+28) % 2^16 :=
  (wordAt_eq rfl rfl).trans (word_htons (n+28))

theorem headers_udpLen : wordAt (headers n check ++ d) 38 = (8+n) % 2^16 :=
  (wordAt_eq rfl rfl).trans (word_htons (8+n))

theorem headers_plain : RedirectFilter.Plain (headers n check ++ d) where
  untagged _ := by
    rw [headers_type]
    decide
  version4 _ _ := by rw [headers_first]
  version6 _ h := by
    rw [headers_type] at h
    exact absurd h (by decide)

theorem headers_start : dnsStart (headers n check ++ d) = some 42 := by
  have hlen : 42 ≤ (headers n check ++ d).length := by
    rw [List.length_append, length_headers]
    omega
  have hudp : RedirectFilter.udpStart (headers n check ++ d) = some 34 := by
    rw [RedirectFilter.udpStart, if_neg (by omega), if_pos (headers_type n check), headers_first,
      headers_protocol, if_pos (by omega)]
  rw [RedirectFilter.dnsStart_plain (headers_plain n check), hudp, Option.bind_some, udpEnd,
    if_pos ⟨hlen, .inl (headers_port n check)⟩]

theorem headers_accepted : SocketFilter.accepts (headers n check ++ d) = true := by
  have hlooks : SocketFilter.LooksV4 (headers n check ++ d) := by
    refine ⟨headers_type n check, headers_protocol n check, .inl ?_⟩
    rw [SocketFilter.udpStart4, headers_first]
    exact headers_port n check
  have hfrag : SocketFilter.fragOffset (headers n check ++ d) = 0 := by
    rw [SocketFilter.fragOffset, headers_fragment, Nat.zero_mod]
  exact decide_eq_true (.inr ⟨hlooks, hfrag⟩)

theorem headers_redirected : RedirectFilter.redirects (headers n check ++ d) = true := by
  rw [RedirectFilter.redirects, ← RedirectFilter.dnsStart_plain (headers_plain n check),
    headers_start]
  rfl

end Frame

/-- The inspector counts a frame of the generator, and `dns_validate` gets its message. -/
theorem inspProcessPkt_headers (d : Bytes) (check : ℕ) (s : DnsInsp) :
    inspProcessPkt (headers d.length check ++ d) s =
      inspDns d { s with rcvPkts := s.rcvPkts+1 } := by
  have hpayload : dnsPayload (headers d.length check ++ d) = some d := by
    rw [dnsPayload, headers_start]
    exact congrArg some (List.drop_left' (length_headers d.length check))
  rw [inspProcessPkt_eq, hpayload]

/-- A message that was put in the buffer leaves the generator in a frame from
which the inspector takes just that message and gives it to `dns_validate`, which
both filters let through and whose lengths and checksum are right. -/
theorem generated_frame_intact (gen : DnsGen) (d : Bytes) (hlen : gen.pktLen = ethipudpLen+d.length)
    (hd : slice gen.pktBuf ethipudpLen d.length = d)
    (hfit : d.length ≤ dnsMaxPdusize-ethipudpLen) (s : DnsInsp) (rxQueue ret : ℕ) :
    let f := frame (pcapEndPkt gen)
    (∃ ptr t, inspHeaders f s = .ok ptr t ∧ f.drop ptr = d) ∧
      inspProcessPkt f s = inspDns d { s with rcvPkts := s.rcvPkts+1 } ∧
      CbpfMachine.run SocketFilter.dnsFilter f 20 CbpfMachine.start = .keep 0x40000 ∧
      (∃ v calls, EbpfMachine.run RedirectFilter.bpfFilter ⟨f, rxQueue, ret⟩ 40
        EbpfMachine.start = .halt v calls ∧ ∃ c ∈ calls, c.helper = 51) ∧
      wordAt f 16 = 28+d.length ∧ wordAt f 38 = 8+d.length ∧
      onesSum (slice f 14 20) = 0xffff := by
  intro f
  have hf : f = headers d.length (ipChecksum (ipHdr d.length 0)) ++ d := frame_eq hlen hd hfit
  have hsmall : d.length ≤ 2006 := hfit
  rw [hf]
  generalize hcheck : ipChecksum (ipHdr d.length 0) = check
  have hdrop : (headers d.length check ++ d).drop 42 = d :=
    List.drop_left' (length_headers d.length check)
  refine ⟨⟨42, { s with rcvPkts := s.rcvPkts+1 }, ?_, hdrop⟩, inspProcessPkt_headers d check s,
    ?_, ?_, ?_, ?_, ?_⟩
  · rw [inspHeaders_eq, headers_start]
    rfl
  · have hkeep := SocketFilter.filter_ends (headers d.length check ++ d) 20 (by decide)
    rwa [SocketFilter.kept, if_pos (headers_accepted d.length check)] at hkeep
  · have hrun := RedirectFilter.filter_ends ⟨headers d.length check ++ d, rxQueue, ret⟩ 40
      (Nat.le_refl 40)
    rw [if_pos (headers_redirected d.length check)] at hrun
    exact ⟨_, _, hrun, _, List.mem_singleton_self _, rfl⟩
  · rw [headers_totLen, Nat.mod_eq_of_lt (by omega), Nat.add_comm]
  · rw [headers_udpLen, Nat.mod_eq_of_lt (by omega)]
  · have hslice : slice (headers d.length check ++ d) 14 20 = ipHdr d.length check := rfl
    rw [hslice, ← hcheck, onesSum_ipHdr hsmall]

def oneByte : DnsGen where
  pktBuf := List.replicate 42 0 ++ ([7] ++ List.replicate 2005 0)
  pktLen := 43
  size := by
    rw [List.length_append, List.length_append, List.length_replicate, List.length_replicate]
    rfl

theorem oneByte_frame_intact : wordAt (frame (pcapEndPkt oneByte)) 16 = 29 ∧
    onesSum (slice (frame (pcapEndPkt oneByte)) 14 20) = 0xffff := by
  obtain ⟨-, -, -, -, htotal, -, hsum⟩ := generated_frame_intact oneByte [7] rfl
    (slice_at_end (List.replicate 42 0) [7] (List.replicate 2005 0)) (by decide)
    ⟨0, 0, 0, 0, []⟩ 0 4
  exact ⟨htotal, hsum⟩

end DnsPkt.GeneratedFrame
