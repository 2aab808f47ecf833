import DnsPkt.MessageBuild
import DnsPkt.MessageEncoder
import DnsPkt.PacketWriter

/-!
# What the encoder writes

An encoding that succeeds leaves a packet of names and raw bytes: the header,
the question and the records one after another, each with the length of its
RDATA. `MX` and `SRV` records have no such layout. The strings that records
point to are names made of labels; a label of more than 63 bytes makes the
encoding fail.
-/

set_option autoImplicit false

namespace DnsPkt.EncodedMessage
open DnsPkt.CheckedRun DnsPkt.CheckedRun.Run DnsPkt.Octets DnsPkt.Protocol DnsPkt.WireName
open DnsPkt.MessageStore DnsPkt.MessageSlots DnsPkt.NameCompression DnsPkt.PacketWriter
open DnsPkt.NameEncoder DnsPkt.MessageEncoder

structure EncAt (w : Writer) (s : DnsEnc) : Prop extends Tracks w s where
  len : s.pktLen = w.pkt.length

theorem mkspace_ok {n p : ℕ} {s t : DnsEnc} (h : mkspace n s = .ok p t) :
    p = s.pktLen ∧ s.pktLen+n ≤ s.pktBuf.length ∧ t = { s with pktLen := s.pktLen+n } := by
  unfold mkspace at h
  rw [bind_of_ok (get_run s)] at h
  by_cases hfull : s.pktBuf.length < s.pktLen+n
  · rw [bind_when_pos hfull] at h
    cases h
  · rw [bind_when_neg hfull] at h
    cases h
    exact ⟨rfl, by omega, rfl⟩

theorem retspace_ok {n : ℕ} {s t : DnsEnc} {u : Unit} (h : retspace n s = .ok u t) :
    t = { s with pktLen := s.pktLen-n } := by
  unfold retspace at h
  rw [bind_of_ok (get_run s)] at h
  by_cases hfew : s.pktLen < n
  · rw [bind_when_pos hfew] at h
    cases h
  · rw [bind_when_neg hfew] at h
    cases h
    rfl

theorem putBuf_ok {w : ℕ} {b : Bytes} {s t : DnsEnc} {u : Unit} (h : putBuf w b s = .ok u t) :
    t = { s with pktBuf := patch s.pktBuf w b } := by
  unfold putBuf at h
  split at h
  · cases h
    rfl
  · cases h

theorem tracks_len {w : Writer} {s : DnsEnc} (h : Tracks w s) (n : ℕ) :
    Tracks w { s with pktLen := n } := ⟨h.pkt, h.suffix, h.tab⟩

/-- A pointer of the message to a name with the given labels, or a null
pointer, which is written as the root. -/
structure NameOf (st : NameStore) (p : Ptr) (ls : List Bytes) : Prop where
  text : (st.str p).getD [] = dotted ls
  known : p ≠ .wild
  labels : ∀ l ∈ ls, IsLabel l
  le : (dotted ls).length ≤ dnsNameMaxstr

theorem length_le_dotted {l : Bytes} {ls : List Bytes} (h : l ∈ ls) :
    l.length ≤ (dotted ls).length := by
  induction ls with
  | nil => simp at h
  | cons k rest ih =>
    rw [length_dotted_cons]
    rcases List.mem_cons.mp h with rfl | h
    · omega
    · have := ih h
      rw [if_neg (List.ne_nil_of_mem h)]
      omega

theorem strOf_run {st : NameStore} {p : Ptr} (h : p ≠ .wild) (s : DnsEnc) :
    strOf st p s = .ok (st.str p) s := by
  cases p with
  | null => rfl
  | ref off => rfl
  | wild => exact absurd rfl h

theorem encodeName_getD (w : ℕ) (name : Option Bytes) :
    encodeName w name = encodeName w (some (name.getD [])) := rfl

theorem putName_ok {w : Writer} {s t : DnsEnc} {st : NameStore} {p : Ptr} {ls : List Bytes} {w' : ℕ}
    (h : Tracks w s) (hn : NameOf st p ls) (hroom : w.pkt.length+dnsNameMaxlen ≤ s.pktBuf.length)
    (hrun : putName w.pkt.length st p s = .ok w' t) :
    (∀ l ∈ ls, GoodLabel l) ∧ w' = (w.name dnsMaxSuffix ls).pkt.length ∧
      Tracks (w.name dnsMaxSuffix ls) t ∧ t.pktBuf.length = s.pktBuf.length ∧
      t.pktLen = s.pktLen := by
  unfold putName at hrun
  rw [bind_of_ok (strOf_run hn.known s), encodeName_getD, hn.text] at hrun
  obtain ⟨r, m, hm, hrun⟩ := (bind_ok _ _ _ _ _).mp hrun
  cases r with
  | none => cases hrun
  | some w1 =>
    cases hrun
    have hshort : ∀ l ∈ ls, l.length ≤ dnsLabelMaxstr := by
      intro l hl
      by_contra hlong
      have hlt (l : Bytes) (hl : l ∈ ls) : l.length < 256 := by
        have h1 := length_le_dotted hl
        have h2 : (dotted ls).length ≤ 253 := hn.le
        omega
      have hfull : s.suffix = ((w.tab ++ []).take dnsMaxSuffix).map toSuffix := by
        rw [List.append_nil, List.take_of_length_le h.tab.1, h.suffix]
      exact encodeLabels_long h.tab ls (fun l hl => ⟨hn.labels l hl, hlt l hl⟩)
        ⟨l, hl, Nat.lt_of_not_le hlong⟩ _ _ le_rfl [] (by simp) s hfull _ _ hm
    have hgood : ∀ l ∈ ls, GoodLabel l := fun l hl => ⟨hn.labels l hl, hshort l hl⟩
    have hname : GoodName ls := ⟨hgood, hn.le⟩
    have hcode := hname.code_le w.tab
    obtain ⟨t', ht', htrack, hbuf, hlen, -⟩ := encodeName_run h hgood (by
      simp only [Writer.name, List.length_append]
      omega)
    rw [ht'] at hm
    cases hm
    exact ⟨hgood, rfl, htrack, hbuf, hlen⟩

theorem name_used {w : Writer} {ls : List Bytes} (h : GoodName ls) :
    w.pkt.length ≤ (w.name dnsMaxSuffix ls).pkt.length ∧
      (w.name dnsMaxSuffix ls).pkt.length ≤ w.pkt.length+dnsNameMaxlen := by
  have := h.code_le w.tab
  simp only [Writer.name, List.length_append]
  omega

/-- A name at the start of newly reserved space. -/
theorem reserved_name {w : Writer} {s m m' : DnsEnc} {st : NameStore} {p : Ptr} {ls : List Bytes}
    {n a b : ℕ} (h : EncAt w s) (hn : NameOf st p ls) (hle : dnsNameMaxlen ≤ n)
    (hm : mkspace n s = .ok a m) (hm' : putName a st p m = .ok b m') :
    (∀ l ∈ ls, GoodLabel l) ∧ a = w.pkt.length ∧ b = (w.name dnsMaxSuffix ls).pkt.length ∧
      Tracks (w.name dnsMaxSuffix ls) m' ∧ m'.pktLen = w.pkt.length+n ∧
      w.pkt.length+n ≤ m'.pktBuf.length ∧ b ≤ w.pkt.length+dnsNameMaxlen ∧ w.pkt.length ≤ b := by
  obtain ⟨rfl, hroom, rfl⟩ := mkspace_ok hm
  have hlen := h.len
  rw [hlen] at hroom
  obtain ⟨hgood, rfl, htrack, hbuf, hpl⟩ := putName_ok (w := w)
    (tracks_len h.toTracks (s.pktLen+n)) hn (by simp only; omega) (by rw [← hlen]; exact hm')
  have hused := name_used (w := w) ⟨hgood, hn.le⟩
  refine ⟨hgood, hlen, rfl, htrack, by rw [hpl, hlen], ?_, hused.2, hused.1⟩
  rw [hbuf]
  exact hroom

theorem dnsEncName_ok {w : Writer} {s t : DnsEnc} {st : NameStore} {p : Ptr} {ls : List Bytes}
    {u : Unit} (h : EncAt w s) (hn : NameOf st p ls) (hrun : dnsEncName st p s = .ok u t) :
    (∀ l ∈ ls, GoodLabel l) ∧ EncAt (w.name dnsMaxSuffix ls) t := by
  unfold dnsEncName at hrun
  obtain ⟨a, m, hm, hrun⟩ := (bind_ok _ _ _ _ _).mp hrun
  obtain ⟨b, m', hm', hrun⟩ := (bind_ok _ _ _ _ _).mp hrun
  obtain ⟨hgood, rfl, rfl, htrack, hpl, -, hused, hle⟩ := reserved_name h hn le_rfl hm hm'
  obtain rfl := retspace_ok hrun
  refine ⟨hgood, ⟨tracks_len htrack _, ?_⟩⟩
  simp only [hpl, spare]
  rw [if_pos (by omega)]
  omega

/-- Fixed fields behind a name in the same reservation. -/
theorem fields_ok {w : Writer} {m t : DnsEnc} {n a : ℕ} {b : Bytes} (h : Tracks w m)
    (hpl : m.pktLen = a+n) (ha : a ≤ w.pkt.length) (hw : w.pkt.length+b.length ≤ a+n)
    (hbuf : a+n ≤ m.pktBuf.length) {u u' : Unit} {m' : DnsEnc}
    (hput : putBuf w.pkt.length b m = .ok u m')
    (hret : retspace (spare n (w.pkt.length+b.length-a)) m' = .ok u' t) : EncAt (w.raw b) t := by
  obtain rfl := putBuf_ok hput
  obtain rfl := retspace_ok hret
  refine ⟨tracks_len (h.raw (by omega)) _, ?_⟩
  simp only [hpl, spare, Writer.raw, List.length_append]
  rw [if_pos (by omega)]
  omega

theorem dnsEncQuest_ok {w : Writer} {s t : DnsEnc} {st : NameStore} {q : DnsQd Ptr}
    {ls : List Bytes} {u : Unit} (h : EncAt w s) (hn : NameOf st q.qname ls)
    (hrun : dnsEncQuest st q s = .ok u t) : (∀ l ∈ ls, GoodLabel l) ∧
      EncAt ((w.name dnsMaxSuffix ls).raw (encU16 q.qtype ++ encU16 q.qclass)) t := by
  unfold dnsEncQuest at hrun
  obtain ⟨a, m, hm, hrun⟩ := (bind_ok _ _ _ _ _).mp hrun
  obtain ⟨b, m', hm', hrun⟩ := (bind_ok _ _ _ _ _).mp hrun
  obtain ⟨_, m2, hput, hret⟩ := (bind_ok _ _ _ _ _).mp hrun
  obtain ⟨hgood, rfl, rfl, htrack, hpl, hbuf, hused, hle⟩ := reserved_name h hn (by omega) hm hm'
  exact ⟨hgood, fields_ok htrack hpl hle (by simp; omega) hbuf hput hret⟩

theorem encRrHdr_ok {w : Writer} {s t : DnsEnc} {st : NameStore} {rr : DnsRr Ptr}
    {ls : List Bytes} {q : ℕ} (h : EncAt w s) (hn : NameOf st rr.name ls)
    (hrun : encRrHdr st rr s = .ok q t) : (∀ l ∈ ls, GoodLabel l) ∧
      q = (w.name dnsMaxSuffix ls).pkt.length+8 ∧
      EncAt ((w.name dnsMaxSuffix ls).raw
        (encU16 rr.rrType ++ encU16 rr.rrClass ++ encU32 rr.ttl ++ encU16 0)) t := by
  unfold encRrHdr at hrun
  obtain ⟨a, m, hm, hrun⟩ := (bind_ok _ _ _ _ _).mp hrun
  obtain ⟨b, m', hm', hrun⟩ := (bind_ok _ _ _ _ _).mp hrun
  obtain ⟨_, m2, hput, hrun⟩ := (bind_ok _ _ _ _ _).mp hrun
  obtain ⟨_, m3, hret, hrun⟩ := (bind_ok _ _ _ _ _).mp hrun
  cases hrun
  obtain ⟨hgood, rfl, rfl, htrack, hpl, hbuf, hused, hle⟩ := reserved_name h hn (by omega) hm hm'
  exact ⟨hgood, rfl, fields_ok htrack hpl hle (by simp; omega) hbuf hput hret⟩

theorem dnsEncMem_ok {w : Writer} {s t : DnsEnc} {b : Bytes} {u : Unit} (h : EncAt w s)
    (hrun : dnsEncMem b s = .ok u t) : EncAt (w.raw b) t := by
  unfold dnsEncMem at hrun
  obtain ⟨a, m, hm, hrun⟩ := (bind_ok _ _ _ _ _).mp hrun
  obtain ⟨rfl, hroom, rfl⟩ := mkspace_ok hm
  obtain rfl := putBuf_ok hrun
  have hlen := h.len
  rw [hlen] at hroom
  have htrack := (tracks_len h.toTracks (s.pktLen+b.length)).raw (b := b) hroom
  rw [← hlen] at htrack
  exact ⟨htrack, by simp [Writer.raw, hlen]⟩

def soaBytes (r : Rdata Ptr) : Bytes :=
  encU32 r.soaSerial ++ encU32 r.soaRefresh ++ encU32 r.soaRetry ++ encU32 r.soaExpire ++
    encU32 r.soaMinTtl

def charStr (str : Bytes) : Bytes := UInt8.ofNat str.length :: str

/-- A pointer of the message to a string, or a null pointer, which is written
as the empty string. -/
def StrOf (st : NameStore) (p : Ptr) (str : Bytes) : Prop :=
  p ≠ .wild ∧ (st.str p).getD [] = str

/-- The RDATA of the types that are written part by part. A `HINFO` record is
one of these only without a first string. -/
def RdParts (st : NameStore) (rr : DnsRr Ptr) (ps : List Part) : Prop :=
  match rrKind rr.rrType with
  | .a => ps = [.raw rr.rdata.a.toList]
  | .ns => ∃ ls, NameOf st rr.rdata.nsName ls ∧ ps = [.name ls]
  | .cname => ∃ ls, NameOf st rr.rdata.cname ls ∧ ps = [.name ls]
  | .soa => ∃ ls ls', NameOf st rr.rdata.soaMname ls ∧ NameOf st rr.rdata.soaRname ls' ∧
      ps = [.name ls, .name ls', .raw (soaBytes rr.rdata)]
  | .ptr => ∃ ls, NameOf st rr.rdata.ptrName ls ∧ ps = [.name ls]
  | .hinfo => ∃ os, StrOf st rr.rdata.hinfoCpuStr [] ∧ StrOf st rr.rdata.hinfoOsStr os ∧
      ps = [.raw (charStr [] ++ charStr os)]
  | .txt => ∃ strs, List.Forall₂ (StrOf st) (MessageBuild.txtPtrs rr.rdata) strs ∧
      ps = strs.map fun str => .raw (charStr str)
  | .aaaa => ps = [.raw rr.rdata.aaaa.toList]
  | .opt | .any | .other => ps = []
  | .mx | .srv => False

def fixedOf (rr : DnsRr Ptr) : Bytes :=
  if rrKind rr.rrType = .opt then
    encU16 rr.rrType ++ (encU16 rr.rdata.optUdpSize ++ encU16 (UInt16.ofNat (optTtl rr.rdata))) ++
      (encU32 rr.ttl).drop 2
  else encU16 rr.rrType ++ encU16 rr.rrClass ++ encU32 rr.ttl

theorem encTxt_ok {st : NameStore} {ps : List Ptr} {strs : List Bytes}
    (hps : List.Forall₂ (StrOf st) ps strs) {w : Writer} {s t : DnsEnc} {u : Unit}
    (h : EncAt w s) (hrun : encTxt st ps s = .ok u t) :
    EncAt (parts dnsMaxSuffix w (strs.map fun str => .raw (charStr str))) t := by
  induction hps generalizing w s with
  | nil =>
    cases hrun
    exact h
  | cons hp _ ih =>
    unfold encTxt at hrun
    rw [bind_of_ok (strOf_run hp.1 s), hp.2] at hrun
    obtain ⟨_, m, hm, hrun⟩ := (bind_ok _ _ _ _ _).mp hrun
    exact ih (dnsEncMem_ok h (b := charStr _) hm) hrun

theorem encHinfo_ok {st : NameStore} {r : Rdata Ptr} {os : Bytes}
    (hcpu : StrOf st r.hinfoCpuStr []) (hos : StrOf st r.hinfoOsStr os) {w : Writer}
    {s t : DnsEnc} {u : Unit} (h : EncAt w s) (hrun : encHinfo st r s = .ok u t) :
    EncAt (w.raw (charStr [] ++ charStr os)) t := by
  unfold encHinfo at hrun
  rw [bind_of_ok (strOf_run hcpu.1 s), bind_of_ok (strOf_run hos.1 s)] at hrun
  simp only [hcpu.2, hos.2] at hrun
  obtain ⟨a, m, hm, hrun⟩ := (bind_ok _ _ _ _ _).mp hrun
  obtain ⟨rfl, hroom, rfl⟩ := mkspace_ok hm
  obtain ⟨_, m1, hput, hput'⟩ := (bind_ok _ _ _ _ _).mp hrun
  obtain rfl := putBuf_ok hput
  obtain rfl := putBuf_ok hput'
  have hlen := h.len
  simp only [List.length_nil] at hroom
  have hpatch := patch_patch s.pktBuf s.pktLen (charStr []) (charStr os) (by simp [charStr]; omega)
  have htrack := (tracks_len h.toTracks (s.pktLen+(2+os.length))).raw
    (b := charStr [] ++ charStr os) (by simp [charStr]; omega)
  rw [← hlen] at htrack
  refine ⟨?_, by simp [Writer.raw, charStr, hlen]; omega⟩
  simp only [← hpatch] at htrack
  simpa [charStr] using htrack

/-- The RDATA of every type but `OPT`, behind the fixed fields. -/
theorem encRdata_ok {st : NameStore} {rr : DnsRr Ptr} {ps : List Part} (hps : RdParts st rr ps)
    (hopt : rrKind rr.rrType ≠ .opt) {q : ℕ} {w : Writer} {s t : DnsEnc} {u : Unit}
    (h : EncAt w s) (hrun : encRdata st rr q s = .ok u t) :
    (∀ p ∈ ps, p.Good) ∧ EncAt (parts dnsMaxSuffix w ps) t := by
  have hone {p : Ptr} {ls : List Bytes} (hn : NameOf st p ls) (hr : dnsEncName st p s = .ok u t) :
      (∀ p ∈ [Part.name ls], p.Good) ∧ EncAt (parts dnsMaxSuffix w [.name ls]) t := by
    obtain ⟨hg, he⟩ := dnsEncName_ok h hn hr
    exact ⟨by simpa [Part.Good] using hg, he⟩
  unfold RdParts at hps
  unfold encRdata at hrun
  cases hk : rrKind rr.rrType with
  | a =>
    simp only [hk] at hps hrun
    subst hps
    exact ⟨by simp [Part.Good], dnsEncMem_ok h hrun⟩
  | aaaa =>
    simp only [hk] at hps hrun
    subst hps
    exact ⟨by simp [Part.Good], dnsEncMem_ok h hrun⟩
  | ns =>
    simp only [hk] at hps hrun
    obtain ⟨ls, hn, rfl⟩ := hps
    exact hone hn hrun
  | cname =>
    simp only [hk] at hps hrun
    obtain ⟨ls, hn, rfl⟩ := hps
    exact hone hn hrun
  | ptr =>
    simp only [hk] at hps hrun
    obtain ⟨ls, hn, rfl⟩ := hps
    exact hone hn hrun
  | soa =>
    simp only [hk] at hps hrun
    obtain ⟨ls, ls', hn, hn', rfl⟩ := hps
    obtain ⟨_, m, hm, hrun⟩ := (bind_ok _ _ _ _ _).mp hrun
    obtain ⟨_, m', hm', hrun⟩ := (bind_ok _ _ _ _ _).mp hrun
    obtain ⟨hg, he⟩ := dnsEncName_ok h hn hm
    obtain ⟨hg', he'⟩ := dnsEncName_ok he hn' hm'
    refine ⟨?_, dnsEncMem_ok he' hrun⟩
    intro p hp
    simp only [List.mem_cons, List.not_mem_nil, or_false] at hp
    rcases hp with rfl | rfl | rfl
    · exact hg
    · exact hg'
    · trivial
  | hinfo =>
    simp only [hk] at hps hrun
    obtain ⟨os, hcpu, hos, rfl⟩ := hps
    exact ⟨by simp [Part.Good], encHinfo_ok hcpu hos h hrun⟩
  | txt =>
    simp only [hk] at hps hrun
    obtain ⟨strs, hstrs, rfl⟩ := hps
    refine ⟨?_, encTxt_ok hstrs h hrun⟩
    intro p hp
    obtain ⟨str, -, rfl⟩ := List.mem_map.mp hp
    trivial
  | any =>
    simp only [hk] at hps hrun
    subst hps
    cases hrun
    exact ⟨by simp, h⟩
  | other =>
    simp only [hk] at hps hrun
    subst hps
    cases hrun
    exact ⟨by simp, h⟩
  | opt => exact absurd hk hopt
  | mx =>
    simp only [hk] at hps
  | srv =>
    simp only [hk] at hps

theorem take_patch_inside (b : Bytes) (i : ℕ) (x : Bytes) (n : ℕ) (h : i+x.length ≤ n)
    (hn : n ≤ b.length) : (patch b i x).take n = patch (b.take n) i x := by
  have hlen : (b.take n).length = n := by
    rw [List.length_take, Nat.min_eq_left hn]
  have hsplit : patch (b.take n ++ b.drop n) i x = patch (b.take n) i x ++ b.drop n := by
    rw [patch, List.take_append_of_le_length (by omega),
      List.drop_append_of_le_length (by omega), ← List.append_assoc]
    rfl
  rw [List.take_append_drop] at hsplit
  rw [hsplit, List.take_left']
  rw [length_patch _ _ _ (by omega), hlen]

theorem tracks_repatch {w w' : Writer} {s : DnsEnc} (h : Tracks w s) {i : ℕ} {x : Bytes}
    (hi : i+x.length ≤ w.pkt.length) (hpkt : w'.pkt = patch w.pkt i x) (htab : w'.tab = w.tab) :
    Tracks w' { s with pktBuf := patch s.pktBuf i x } := by
  have hlen : w'.pkt.length = w.pkt.length := by rw [hpkt, length_patch _ _ _ hi]
  refine ⟨?_, by rw [htab]; exact h.suffix, by rw [htab, hlen]; exact h.tab⟩
  rw [hlen, take_patch_inside _ _ _ _ hi h.le, h.pkt, hpkt]

/-- The bytes of a record with another length field in the same place. -/
theorem parts_ahead (N : ℕ) (w : Writer) (r : Record) (x y : Bytes) (h : y.length = x.length) :
    (parts N (ahead N w r y) r.data).pkt = patch (parts N (ahead N w r x) r.data).pkt
        ((w.name N r.owner).pkt.length+r.fixed.length) y ∧
      (parts N (ahead N w r y) r.data).tab = (parts N (ahead N w r x) r.data).tab := by
  have hlen : (ahead N w r y).pkt.length = (ahead N w r x).pkt.length := by
    simp [ahead, Writer.raw, h]
  obtain ⟨tail, h1, h2, h3⟩ := parts_tail N r.data _ _ hlen rfl
  refine ⟨?_, h3⟩
  have := patch_middle ((w.name N r.owner).pkt ++ r.fixed) x tail y h
  rw [List.length_append] at this
  rw [h1, h2]
  simp only [ahead, Writer.raw, List.append_assoc] at this ⊢
  exact this.symm

/-- The state behind the RDATA: the parts of the record with a placeholder for
its length. -/
theorem rdata_placed {st : NameStore} {rr : DnsRr Ptr} {ls : List Bytes} {ps : List Part}
    (hps : RdParts st rr ps) {w : Writer} {s t : DnsEnc} {u : Unit}
    (h : EncAt ((w.name dnsMaxSuffix ls).raw
      (encU16 rr.rrType ++ encU16 rr.rrClass ++ encU32 rr.ttl ++ encU16 0)) s)
    (hrun : encRdata st rr ((w.name dnsMaxSuffix ls).pkt.length+8) s = .ok u t) :
    (∀ p ∈ ps, p.Good) ∧
      EncAt (parts dnsMaxSuffix (ahead dnsMaxSuffix w ⟨ls, fixedOf rr, ps⟩ [0, 0]) ps) t := by
  by_cases hk : rrKind rr.rrType = .opt
  · unfold RdParts at hps
    unfold encRdata encOpt at hrun
    simp only [hk] at hps hrun
    subst hps
    obtain rfl := putBuf_ok hrun
    refine ⟨by simp, ?_, ?_⟩
    · refine tracks_repatch h.toTracks ?_ ?_ rfl
      · simp [Writer.raw]
      · have := patch_middle ((w.name dnsMaxSuffix ls).pkt ++ encU16 rr.rrType)
          (encU16 rr.rrClass ++ (encU32 rr.ttl).take 2) ((encU32 rr.ttl).drop 2 ++ [0, 0])
          (encU16 rr.rdata.optUdpSize ++ encU16 (UInt16.ofNat (optTtl rr.rdata))) (by simp)
        rw [List.length_append, length_encU16, List.append_assoc (encU16 rr.rrClass),
          ← List.append_assoc ((encU32 rr.ttl).take 2), List.take_append_drop] at this
        simp only [parts, List.foldl_nil, ahead, Writer.raw, fixedOf, if_pos hk, List.append_assoc]
          at this ⊢
        exact this.symm
    · rw [h.len]
      simp [parts, ahead, Writer.raw, fixedOf, hk]
  · have hfixed : fixedOf rr = encU16 rr.rrType ++ encU16 rr.rrClass ++ encU32 rr.ttl := if_neg hk
    have hahead : (w.name dnsMaxSuffix ls).raw
        (encU16 rr.rrType ++ encU16 rr.rrClass ++ encU32 rr.ttl ++ encU16 0) =
        ahead dnsMaxSuffix w ⟨ls, fixedOf rr, ps⟩ [0, 0] := by
      rw [ahead, hfixed]
      rfl
    rw [hahead] at h
    exact encRdata_ok hps hk h hrun

theorem length_fixedOf (rr : DnsRr Ptr) : (fixedOf rr).length = 8 := by
  unfold fixedOf
  split <;> rfl

/-- A record whose encoding succeeds is written as its owner name, its fixed
fields, the length of its RDATA and the RDATA. -/
theorem dnsRrEncode_ok {st : NameStore} {rr : DnsRr Ptr} {ls : List Bytes} {ps : List Part}
    (hn : NameOf st rr.name ls) (hps : RdParts st rr ps) {w : Writer} {s t : DnsEnc} {u : Unit}
    (h : EncAt w s) (hrun : dnsRrEncode st rr s = .ok u t) :
    Record.Good ⟨ls, fixedOf rr, ps⟩ ∧ EncAt (record dnsMaxSuffix w ⟨ls, fixedOf rr, ps⟩) t := by
  unfold dnsRrEncode at hrun
  obtain ⟨q, s1, h1, hrun⟩ := (bind_ok _ _ _ _ _).mp hrun
  obtain ⟨hg, rfl, he1⟩ := encRrHdr_ok h hn h1
  rw [bind_of_ok (get_run s1)] at hrun
  obtain ⟨_, s2, h2, hrun⟩ := (bind_ok _ _ _ _ _).mp hrun
  obtain ⟨hg', he2⟩ := rdata_placed hps he1 h2
  rw [bind_of_ok (get_run s2)] at hrun
  obtain rfl := putBuf_ok hrun
  have hlen : s1.pktLen = (ahead dnsMaxSuffix w ⟨ls, fixedOf rr, ps⟩ [0, 0]).pkt.length := by
    rw [he1.len]
    simp [ahead, Writer.raw, length_fixedOf]
  have hle := (parts_grow dnsMaxSuffix (ahead dnsMaxSuffix w ⟨ls, fixedOf rr, ps⟩ [0, 0])
    ps).length_le
  have hdata : UInt16.ofNat (s2.pktLen-s1.pktLen % 2^16) =
      UInt16.ofNat (dataLen dnsMaxSuffix w ⟨ls, fixedOf rr, ps⟩) := by
    rw [ofNat_sub_mod _ _ (by rw [hlen, he2.len]; exact hle), hlen, he2.len]
    rfl
  rw [hdata]
  obtain ⟨hpkt, htab⟩ := parts_ahead dnsMaxSuffix w ⟨ls, fixedOf rr, ps⟩ [0, 0]
    (encU16 (UInt16.ofNat (dataLen dnsMaxSuffix w ⟨ls, fixedOf rr, ps⟩))) rfl
  dsimp only at hpkt htab
  rw [length_fixedOf] at hpkt
  have hin : (w.name dnsMaxSuffix ls).pkt.length+8+2 ≤
      (ahead dnsMaxSuffix w ⟨ls, fixedOf rr, ps⟩ [0, 0]).pkt.length := by
    simp [ahead, Writer.raw, length_fixedOf]
  refine ⟨⟨hg, hg'⟩, ⟨tracks_repatch he2.toTracks (by rw [length_encU16]; omega) hpkt htab, ?_⟩⟩
  rw [record, hpkt, length_patch _ _ _ (by rw [length_encU16]; omega)]
  exact he2.len

def WrittenAs (st : NameStore) (rr : DnsRr Ptr) (r : Record) : Prop :=
  NameOf st rr.name r.owner ∧ RdParts st rr r.data ∧ r.fixed = fixedOf rr

theorem encRecords_ok {st : NameStore} {rrs : List (DnsRr Ptr)} {rs : List Record}
    (hrs : List.Forall₂ (WrittenAs st) rrs rs) {w : Writer} {s t : DnsEnc} {u : Unit}
    (h : EncAt w s) (hrun : encRecords st rrs s = .ok u t) :
    (∀ r ∈ rs, r.Good) ∧ EncAt (PacketWriter.records dnsMaxSuffix w rs) t := by
  induction hrs generalizing w s with
  | nil =>
    cases hrun
    exact ⟨by simp, h⟩
  | @cons rr r rrs rs hr _ ih =>
    obtain ⟨_, m, hm, hrun⟩ := (bind_ok _ _ _ _ _).mp hrun
    obtain ⟨owner, fixed, data⟩ := r
    obtain ⟨hn, hps, rfl⟩ := hr
    obtain ⟨hg, he⟩ := dnsRrEncode_ok hn hps h hm
    obtain ⟨hg', he'⟩ := ih he hrun
    refine ⟨?_, he'⟩
    intro x hx
    rcases List.mem_cons.mp hx with rfl | hx
    · exact hg
    · exact hg' x hx

def QuestParts (m : DnsMsg) (q : List Part) : Prop :=
  if m.qdLen = 1 then
    ∃ ls, NameOf m.store m.qd.qname ls ∧
      q = [.name ls, .raw (encU16 m.qd.qtype ++ encU16 m.qd.qclass)]
  else q = []

structure Laid (m : DnsMsg) (q : List Part) (rs : Sect → List Record) : Prop where
  quest : QuestParts m q
  sects : ∀ sc, List.Forall₂ (WrittenAs m.store) (MessageSlots.records m sc) (rs sc)

def GoodLayout (q : List Part) (rs : Sect → List Record) : Prop :=
  (∀ p ∈ q, p.Good) ∧ ∀ sc, ∀ r ∈ rs sc, r.Good

def messageWriter (hdr : Bytes) (q : List Part) (rs : Sect → List Record) : Writer :=
  let front := parts dnsMaxSuffix ⟨hdr, []⟩ q
  let an := PacketWriter.records dnsMaxSuffix front (rs .an)
  let ns := PacketWriter.records dnsMaxSuffix an (rs .ns)
  PacketWriter.records dnsMaxSuffix ns (rs .ar)

theorem encAt_init (buf : Bytes) : EncAt ⟨[], []⟩ (initEnc buf) :=
  ⟨⟨by simp, rfl, by simp [Comparable]⟩, rfl⟩

theorem encodeQd_ok {m : DnsMsg} {q : List Part} (hq : QuestParts m q) {w : Writer}
    {s t : DnsEnc} {u : Unit} (h : EncAt w s) (hrun : encodeQd m s = .ok u t) :
    (∀ p ∈ q, p.Good) ∧ EncAt (parts dnsMaxSuffix w q) t := by
  unfold QuestParts at hq
  unfold encodeQd at hrun
  by_cases h1 : m.qdLen = 1
  · rw [if_pos h1] at hq
    rw [when_pos h1] at hrun
    obtain ⟨ls, hn, rfl⟩ := hq
    obtain ⟨hg, he⟩ := dnsEncQuest_ok h hn hrun
    exact ⟨by simpa [Part.Good] using hg, he⟩
  · rw [if_neg h1] at hq
    rw [when_neg h1] at hrun
    subst hq
    cases hrun
    exact ⟨by simp, h⟩

theorem encodeMsg_ok {m : DnsMsg} {q : List Part} {rs : Sect → List Record} (hm : Laid m q rs)
    {buf : Bytes} {t : DnsEnc} {u : Unit} (hrun : encodeMsg m (initEnc buf) = .ok u t) :
    GoodLayout q rs ∧ EncAt (messageWriter (hdrBytes (syncHdr m)) q rs) t := by
  unfold encodeMsg at hrun
  obtain ⟨_, s1, h1, hrun⟩ := (bind_ok _ _ _ _ _).mp hrun
  obtain ⟨_, s2, h2, hrun⟩ := (bind_ok _ _ _ _ _).mp hrun
  obtain ⟨_, s3, h3, hrun⟩ := (bind_ok _ _ _ _ _).mp hrun
  obtain ⟨_, s4, h4, h5⟩ := (bind_ok _ _ _ _ _).mp hrun
  have e1 := dnsEncMem_ok (encAt_init buf) (b := hdrBytes (syncHdr m)) h1
  obtain ⟨g2, e2⟩ := encodeQd_ok hm.quest e1 h2
  obtain ⟨g3, e3⟩ := encRecords_ok (hm.sects .an) e2 h3
  obtain ⟨g4, e4⟩ := encRecords_ok (hm.sects .ns) e3 h4
  obtain ⟨g5, e5⟩ := encRecords_ok (hm.sects .ar) e4 h5
  refine ⟨⟨g2, ?_⟩, e5⟩
  intro sc
  cases sc with
  | an => exact g3
  | ns => exact g4
  | ar => exact g5

def failFrame : Frame DnsEnc ℤ Fault where
  keep _ _ := True
  leave _ c _ := c = -1
  raise _ := True
  refl _ := trivial
  trans _ _ := trivial
  lift _ h := h

theorem fails_exit {α : Type} : Keeps failFrame (exit (-1) : Enc α) := keeps_exit fun _ => rfl

theorem fails_modify (f : DnsEnc → DnsEnc) : Keeps failFrame (modify f : Enc Unit) :=
  keeps_modify fun _ => trivial

theorem fails_mkspace (n : ℕ) : Keeps failFrame (mkspace n) :=
  keeps_get.bind fun _ => (keeps_when _ fun _ => fails_exit).bind fun _ =>
    (fails_modify _).bind fun _ => keeps_pure _

theorem fails_retspace (n : ℕ) : Keeps failFrame (retspace n) :=
  keeps_get.bind fun _ => (keeps_when _ fun _ => fails_exit).bind fun _ => fails_modify _

theorem fails_putBuf (w : ℕ) (b : Bytes) : Keeps failFrame (putBuf w b) where
  ok _ := trivial
  exit h := by
    unfold putBuf at h
    split at h <;> cases h
  fault _ := trivial

theorem fails_strOf (st : NameStore) (p : Ptr) : Keeps failFrame (strOf st p) where
  ok _ := trivial
  exit h := by
    cases p <;> cases h
  fault _ := trivial

theorem fails_encodeLabels (offset k w : ℕ) (name : Bytes) :
    Keeps failFrame (encodeLabels offset k w name) := by
  induction k generalizing w name with
  | zero => exact (fails_putBuf _ _).bind fun _ => keeps_pure _
  | succ k ih =>
    unfold encodeLabels
    split
    · exact (fails_putBuf _ _).bind fun _ => keeps_pure _
    · refine keeps_get.bind fun s => ?_
      split
      · exact (fails_putBuf _ _).bind fun _ => keeps_pure _
      · refine (fails_modify _).bind fun _ => ?_
        dsimp only
        split
        · exact keeps_pure _
        · exact (fails_putBuf _ _).bind fun _ => ih _ _

theorem fails_putName (w : ℕ) (st : NameStore) (p : Ptr) : Keeps failFrame (putName w st p) := by
  refine (fails_strOf st p).bind fun name => (fails_encodeLabels _ _ _ _).bind fun r => ?_
  cases r with
  | none => exact fails_exit
  | some w' => exact keeps_pure _

theorem fails_dnsEncQuest (st : NameStore) (q : DnsQd Ptr) : Keeps failFrame (dnsEncQuest st q) :=
  (fails_mkspace _).bind fun _ => (fails_putName _ _ _).bind fun _ =>
    (fails_putBuf _ _).bind fun _ => fails_retspace _

theorem fails_dnsEncName (st : NameStore) (p : Ptr) : Keeps failFrame (dnsEncName st p) :=
  (fails_mkspace _).bind fun _ => (fails_putName _ _ _).bind fun _ => fails_retspace _

theorem fails_dnsEncMem (mem : Bytes) : Keeps failFrame (dnsEncMem mem) :=
  (fails_mkspace _).bind fun _ => fails_putBuf _ _

theorem fails_encTxt (st : NameStore) (ps : List Ptr) : Keeps failFrame (encTxt st ps) := by
  induction ps with
  | nil => exact keeps_pure _
  | cons p rest ih =>
    exact (fails_strOf st p).bind fun _ =>
      ((fails_mkspace _).bind fun _ => fails_putBuf _ _).bind fun _ => ih

theorem fails_encRdata (st : NameStore) (rr : DnsRr Ptr) (q : ℕ) :
    Keeps failFrame (encRdata st rr q) := by
  unfold encRdata
  cases rrKind rr.rrType with
  | a | aaaa => exact fails_dnsEncMem _
  | ns | cname | ptr => exact fails_dnsEncName _ _
  | soa => exact (fails_dnsEncName _ _).bind fun _ => (fails_dnsEncName _ _).bind fun _ =>
      fails_dnsEncMem _
  | hinfo => exact (fails_strOf _ _).bind fun _ => (fails_strOf _ _).bind fun _ =>
      (fails_mkspace _).bind fun _ => (fails_putBuf _ _).bind fun _ => fails_putBuf _ _
  | mx | srv => exact (fails_mkspace _).bind fun _ => (fails_putBuf _ _).bind fun _ =>
      fails_dnsEncName _ _
  | txt => exact fails_encTxt _ _
  | opt => exact fails_putBuf _ _
  | any | other => exact keeps_pure _

theorem fails_dnsRrEncode (st : NameStore) (rr : DnsRr Ptr) : Keeps failFrame (dnsRrEncode st rr) :=
  ((fails_mkspace _).bind fun _ => (fails_putName _ _ _).bind fun _ =>
    (fails_putBuf _ _).bind fun _ => (fails_retspace _).bind fun _ => keeps_pure _).bind fun _ =>
  keeps_get.bind fun _ => (fails_encRdata _ _ _).bind fun _ => keeps_get.bind fun _ =>
    fails_putBuf _ _

theorem fails_encRecords (st : NameStore) (rrs : List (DnsRr Ptr)) :
    Keeps failFrame (encRecords st rrs) := by
  induction rrs with
  | nil => exact keeps_pure _
  | cons rr rest ih => exact (fails_dnsRrEncode st rr).bind fun _ => ih

theorem fails_encodeMsg (m : DnsMsg) : Keeps failFrame (encodeMsg m) := by
  have hhdr : Keeps failFrame (encodeHdr m) := fails_dnsEncMem (hdrBytes (syncHdr m))
  have hqd : Keeps failFrame (encodeQd m) := keeps_when _ fun _ => fails_dnsEncQuest _ _
  have hsect (sc : Sect) : Keeps failFrame (dnsSectEnc m sc) := fails_encRecords _ _
  exact hhdr.bind fun _ => hqd.bind fun _ => (hsect .an).bind fun _ => (hsect .ns).bind fun _ =>
    hsect .ar

/-- The packet of an encoding that succeeds. -/
theorem dnsMsgEncode_ok {m : DnsMsg} {q : List Part} {rs : Sect → List Record} (hm : Laid m q rs)
    {buf : Bytes} {t : DnsEnc} {n : ℤ} (hrun : dnsMsgEncode m buf = .ok n t) (hn : 0 ≤ n) :
    GoodLayout q rs ∧
      t.pktBuf.take n.toNat = (messageWriter (hdrBytes (syncHdr m)) q rs).pkt := by
  rcases (call_ok _ _ _ _).mp hrun with h | h
  · obtain ⟨_, s, hs, h⟩ := (bind_ok _ _ _ _ _).mp h
    obtain ⟨hg, he⟩ := encodeMsg_ok hm hs
    rw [bind_of_ok (get_run s)] at h
    cases h
    exact ⟨hg, by rw [Int.toNat_natCast, he.len]; exact he.pkt⟩
  · have hc : n = -1 := ((fails_encodeMsg m).bind fun _ => keeps_get.bind fun s =>
      keeps_pure (s.pktLen : ℤ)).exit h
    omega

end DnsPkt.EncodedMessage
