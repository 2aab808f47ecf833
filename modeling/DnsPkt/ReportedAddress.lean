import DnsPkt.AddressRoundTrip
import DnsPkt.FullReport

/-!
# Addresses in the report

The line of an address record ends in the text of its address. Both address
types go through the IPv4 encoder, and it refuses a rest of the scratch
buffer that is shorter than the longest IPv4 text. So the line of an `A`
record tells its address unless the owner name leaves too little room, and
the line of an `AAAA` record never does.
-/

set_option autoImplicit false

namespace DnsPkt.ReportedAddress
open DnsPkt.CheckedRun DnsPkt.CheckedRun.Run DnsPkt.Octets DnsPkt.Protocol DnsPkt.ReportText
open DnsPkt.MessageStore DnsPkt.RecordDecoder DnsPkt.MessageDecoder DnsPkt.RecordRun
open DnsPkt.RecordFrame DnsPkt.RecordEntry DnsPkt.MessageRun DnsPkt.AcceptedRun
open DnsPkt.ScratchBounds DnsPkt.ScratchText DnsPkt.SelfDelimiting DnsPkt.ReportedRecord
open DnsPkt.MessageParts DnsPkt.FullReport DnsPkt.AddressText DnsPkt.AddressRoundTrip
open DnsPkt.NameDecoder DnsPkt.WireName

def addressChar (ch : UInt8) : Bool := isHex ch || ch == 46 || ch == 58

theorem addressChar_colon : addressChar 58 = true := rfl

theorem addressChar_numeral {ch : UInt8} (h : isNumeral ch = true) : addressChar ch = true := by
  simp [addressChar, isHex, h]

theorem ip4Str_chars (addr : Bytes) :
    ∀ ch ∈ ip4Str addr, isNumeral ch = true ∨ ch = 46 := by
  intro ch hch
  simp only [ip4Str, List.mem_append, List.mem_singleton] at hch
  rcases hch with (((((h | h) | h) | h) | h) | h) | h
  · exact .inl (uint8Toa_numeral _ h)
  · exact .inr h
  · exact .inl (uint8Toa_numeral _ h)
  · exact .inr h
  · exact .inl (uint8Toa_numeral _ h)
  · exact .inr h
  · exact .inl (uint8Toa_numeral _ h)

theorem ip4Str_addressChar (addr : Bytes) : ∀ ch ∈ ip4Str addr, addressChar ch = true := by
  intro ch hch
  rcases ip4Str_chars addr ch hch with h | rfl
  · exact addressChar_numeral h
  · rfl

theorem ip4Str_not_mem {addr : Bytes} {ch : UInt8} (hn : isNumeral ch = false) (hd : ch ≠ 46) :
    ch ∉ ip4Str addr := by
  intro h
  rcases ip4Str_chars addr ch h with h | h
  · simp [h] at hn
  · exact hd h

theorem uint16Toax_chars (v : ℕ) : ∀ ch ∈ uint16Toax v, addressChar ch = true := by
  have hdigit (n : ℕ) : addressChar (hexDigit (n % 16)) = true := by
    have hread := (hexDigit_read (n % 16) (Nat.mod_lt _ (by decide))).1
    simp [addressChar, hread]
  have hpiece (p : Prop) [Decidable p] (n : ℕ) :
      ∀ ch ∈ (if p then [hexDigit (n % 16)] else []), addressChar ch = true := by
    split_ifs
    · simp [hdigit]
    · simp
  simp only [uint16Toax, List.forall_mem_append]
  exact ⟨⟨⟨hpiece _ _, hpiece _ _⟩, hpiece _ _⟩, by simp [hdigit]⟩

theorem groups_chars (addr : Bytes) (zeroPos : ℤ) (zeroLen addrLen k i : ℕ) :
    ∀ ch ∈ groups addr zeroPos zeroLen addrLen k i, addressChar ch = true := by
  have hcolons : ∀ ch ∈ ([58, 58] : Bytes), addressChar ch = true := by simp [addressChar_colon]
  induction k generalizing i with
  | zero => simp [groups]
  | succ k ih =>
    unfold groups
    split_ifs with hin hgap hend hfirst
    · exact hcolons
    · simp only [List.forall_mem_append]
      exact ⟨⟨hcolons, uint16Toax_chars _⟩, ih _⟩
    · simp only [List.forall_mem_append]
      exact ⟨⟨by simp [addressChar_colon], uint16Toax_chars _⟩, ih _⟩
    · simp only [List.forall_mem_append]
      exact ⟨⟨by simp, uint16Toax_chars _⟩, ih _⟩
    · simp

/-- A text of at least two groups has a colon. -/
theorem groups_colon (addr : Bytes) (zeroPos : ℤ) (zeroLen : ℕ) {addrLen k : ℕ}
    (h : 2 < addrLen) : 58 ∈ groups addr zeroPos zeroLen addrLen (k+2) 0 := by
  have hsecond : 58 ∈ groups addr zeroPos zeroLen addrLen (k+1) 2 := by
    rw [groups, if_pos h, if_pos (show (2 : ℕ) ≠ 0 by decide)]
    split_ifs <;> simp
  rw [groups, if_pos (by omega)]
  split_ifs
  · simp
  · simp
  · simp
  · exact List.mem_append_right _ hsecond

theorem ip6Str_chars (addr : Bytes) {len : ℕ} (hlen : ip6AddrStrlen ≤ len) :
    (∀ ch ∈ ip6StrEncode addr 0 len, addressChar ch = true) ∧ 58 ∈ ip6StrEncode addr 0 len := by
  have hroom : ¬ len < ip6AddrStrlen := by omega
  have hquad (n : ℕ) : ∀ ch ∈ ip4StrEncode (addr.drop 12) n, addressChar ch = true := by
    unfold ip4StrEncode
    split_ifs
    · simp
    · exact ip4Str_addressChar _
  simp only [ip6StrEncode, Nat.zero_and, ne_eq, not_true_eq_false, decide_false, if_false,
    Nat.add_zero, hroom, List.nil_append, List.append_nil, Bool.false_eq_true, Bool.and_false,
    decide_true, Bool.true_and]
  split_ifs with hmixed hten
  · simp only [List.forall_mem_append]
    exact ⟨⟨⟨groups_chars _ _ _ _ _ _, by simp [addressChar_colon]⟩, hquad _⟩,
      List.mem_append_left _
      (List.mem_append_left _ (groups_colon addr _ _ (by decide)))⟩
  · simp only [List.forall_mem_append]
    exact ⟨⟨⟨groups_chars _ _ _ _ _ _, by simp⟩, hquad _⟩, List.mem_append_left _
      (List.mem_append_left _ (groups_colon addr _ _ (by decide)))⟩
  · exact ⟨groups_chars _ _ _ _ _ _, groups_colon addr _ _ (by decide)⟩

def IsAddress (h : RrHdr) : Prop := rrKind h.rrType = .a ∨ rrKind h.rrType = .aaaa

/-- The text of the address in the RDATA behind an owner name that ends at `e`. -/
def addressText (pkt : Bytes) (e : ℕ) : Bytes :=
  if rrKind (hdrAt pkt e).rrType = .a then ip4StrEncode (slice pkt (e+10) 4) ip4AddrStrlen
  else ip6StrEncode (slice pkt (e+10) 16) 0 ip6AddrStrlen

/-- The description that is printed, with `w` bytes of the scratch buffer in use. -/
def addressDesc (pkt : Bytes) (w e : ℕ) : Bytes :=
  if sizeLeft w < ip4AddrStrlen then ascii "???" else ip4Str (slice pkt (e+10) 4)

theorem describeIp_desc {pkt : Bytes} {emsgLen start w : ℕ} {rc : ℤ} {s t : DecState}
    {out : RdataOut} (hw : w ≤ dnsMsgSize)
    (h : describeIp (validateEnv pkt emsgLen) start w rc s = .ok out t) :
    out.root = false ∧ descText out.desc t = .ok
        (if sizeLeft w < ip4AddrStrlen then ascii "???" else ip4Str (slice pkt start 4)) t ∧
      (ip4AddrStrlen ≤ sizeLeft w → start+4 ≤ pkt.length) := by
  have he : (validateEnv pkt emsgLen).needEmsg = true := rfl
  rw [describeIp, if_pos he] at h
  by_cases hroom : sizeLeft w < ip4AddrStrlen
  · rw [if_pos hroom] at h ⊢
    cases h
    exact ⟨rfl, rfl, fun hle => absurd hroom (Nat.not_lt.mpr hle)⟩
  · rw [if_neg hroom] at h ⊢
    obtain ⟨b, m, hb, hrest⟩ := (bind_ok _ _ _ _ _).mp h
    obtain ⟨hin, rfl, rfl⟩ := readBytes_ok hb
    have hlen := ip4Str_length_le (slice pkt start 4)
    rw [sizeLeft_of_le hw] at hroom
    have hfit : w+(ip4Str (slice pkt start 4)).length+1 ≤ dnsMsgSize := by
      have h16 : ip4AddrStrlen = 16 := rfl
      omega
    have hput : putMsg w (ip4Str (slice pkt start 4) ++ [0]) m =
        .ok () (put m w (ip4Str (slice pkt start 4) ++ [0])) := by
      apply putMsg_run
      simpa [← Nat.add_assoc] using hfit
    have hout := (bind_of_ok hput _).symm.trans hrest
    cases hout
    refine ⟨rfl, ?_, fun _ => hin.resolve_left (by decide)⟩
    have hshow := (shows_put m hfit).msgStr
    rw [cstr_of_no_zero _ (ip4Str_not_mem (by decide) (by decide))] at hshow
    exact hshow

/-- The description comes from `describeIp` for both address types. -/
theorem rrRdata_describes {env : DecEnv} (hl : env.loadMsg = false) {sc : Sect} {h : RrHdr}
    (hk : IsAddress h) {w start rdEnd : ℕ} {rc : ℤ} {s t : DecState} {out : RdataOut}
    (hrun : rrRdata env sc h w start rdEnd rc s = .ok out t) :
    ∃ m, describeIp env start w rc m = .ok out t := by
  unfold rrRdata at hrun
  rcases hk with hk | hk
  · rw [hk] at hrun
    obtain ⟨_, m, -, hrun⟩ := (bind_ok _ _ _ _ _).mp hrun
    rw [bind_of_ok (skip_load hl m)] at hrun
    exact ⟨_, hrun⟩
  · rw [hk] at hrun
    obtain ⟨_, m, -, hrun⟩ := (bind_ok _ _ _ _ _).mp hrun
    obtain ⟨_, m', -, hrun⟩ := (bind_ok _ _ _ _ _).mp hrun
    rw [bind_of_ok (skip_load hl m')] at hrun
    exact ⟨_, hrun⟩

/-- The line that an address record adds to the report. -/
theorem address_line {pkt : Bytes} {emsgLen : ℕ} {sc : Sect} {s u : DecState} {text : Bytes}
    {e : ℕ} (hentry : Entry (validateEnv pkt emsgLen) sc s text e) (hk : IsAddress (hdrAt pkt e))
    (hrun : rrBody (validateEnv pkt emsgLen) sc s = .ok 0 u) :
    u.dec.emsg.text = s.dec.emsg.text ++ rrLine sc (hdrAt pkt e) (cstr (shown text))
        (addressDesc pkt ((shown text).length+1) e) ∧
      (ip4AddrStrlen ≤ sizeLeft ((shown text).length+1) → e+10+4 ≤ pkt.length) := by
  have hshow := entered_shows (validateEnv pkt emsgLen) sc s text e hentry.room
  rw [rrBody_entered hentry] at hrun
  obtain ⟨out, t, hout, htail⟩ := (bind_ok _ _ _ _ _).mp hrun
  have hopt : rrKind (hdrAt pkt e).rrType ≠ .opt := by
    rcases hk with hk | hk <;> simp [hk]
  have hfront := (keeps_rrRdata (frontFrame_allows ((shown text).length+1)).toAllowsFill
    (validateEnv pkt emsgLen) sc (hdrAt pkt e) le_rfl _ _ _ fun h => absurd h hopt).ok hout
  have hsame := ((keeps_rrRdata lineFrame_allows (validateEnv pkt emsgLen) sc (hdrAt pkt e)
    (Nat.zero_le _) _ _ _ fun h => absurd h hopt).ok hout).1
  obtain ⟨m, hdesc⟩ := rrRdata_describes rfl hk hout
  obtain ⟨hroot, htext, hin⟩ := describeIp_desc hentry.room hdesc
  rw [bind_of_ok (getOffset_run t)] at htail
  obtain ⟨_, t', hend, hreport⟩ := (bind_ok _ _ _ _ _).mp htail
  obtain rfl : t' = t := by
    unfold Run.when at hend
    split_ifs at hend <;> cases hend
    rfl
  replace hreport := (bind_of_ok (skip_load rfl t') _).symm.trans hreport
  have hname : nameText out t' = .ok (cstr (shown text)) t' := by
    rw [nameText, hroot]
    exact (shows_of_front hshow hfront).msgStr
  have hwmsg := (bind_of_ok hname _).trans (bind_of_ok htext _) |>.symm.trans hreport
  refine ⟨?_, hin⟩
  rw [(line_of_wmsg hwmsg).1, told_text, hsame, entered_emsg]
  rfl

def lineFront (sc : Sect) (h : RrHdr) (name : Bytes) : Bytes :=
  ascii "  " ++ decCodeTostr (Sect.loc sc) ++ ascii ": " ++ strDef name (ascii "<null>") ++
    ascii " " ++ decimal h.ttl.toNat ++ ascii " " ++ dnsClassTostr h.rrClass.toNat ++ ascii " " ++
    dnsTypeTostr h.rrType.toNat ++ ascii " "

theorem rrLine_front {h : RrHdr} (hopt : rrKind h.rrType ≠ .opt) (sc : Sect) (name desc : Bytes) :
    rrLine sc h name desc = lineFront sc h name ++ (desc ++ [10]) := by
  rw [rrLine, if_neg hopt, List.append_assoc]
  rfl

/-- A text without a line break is found back from the end of its line. -/
theorem text_of_line {front a b t : Bytes} (ha : 10 ∉ a) (hb : 10 ∉ b)
    (h1 : front ++ (a ++ [10]) <+: t) (h2 : front ++ (b ++ [10]) <+: t) : a = b := by
  have hfind (c x : Bytes) (hc : 10 ∉ c) : (c ++ 10 :: x).takeWhile (· != 10) = c := by
    induction c with
    | nil => rfl
    | cons d c ih =>
      rw [List.mem_cons, not_or] at hc
      have hd : (d != 10) = true := bne_iff_ne.mpr (Ne.symm hc.1)
      rw [List.cons_append, List.takeWhile_cons, if_pos hd, ih hc.2]
  obtain ⟨x, hx⟩ := h1
  obtain ⟨y, hy⟩ := h2
  have hxy := hx.trans hy.symm
  simp only [List.append_assoc, List.append_cancel_left_eq, List.singleton_append] at hxy
  rw [← hfind a x ha, hxy, hfind b y hb]

theorem ip4Str_inj {a b : Bytes} (ha : a.length = 4) (hb : b.length = 4)
    (h : ip4Str a = ip4Str b) : a = b := by
  have hread (c : Bytes) (hc : c.length = 4) :
      (ip4StrDecode (ip4Str c) (List.replicate 4 0)).2 = c := by
    obtain ⟨c0, c1, c2, c3, rfl⟩ : ∃ c0 c1 c2 c3, c = [c0, c1, c2, c3] := by
      match c, hc with
      | [c0, c1, c2, c3], _ => exact ⟨c0, c1, c2, c3, rfl⟩
    have hback := ip4StrDecode_ip4StrEncode c0 c1 c2 c3 16 le_rfl (List.replicate 4 0) (by simp)
    rw [ip4StrEncode, if_neg (by decide)] at hback
    rw [hback]
    rfl
  rw [← hread a ha, h, hread b hb]

theorem linked_told {pkt : Bytes} {emsgLen : ℕ} {vs : List (Sect × DecState)} {s t : DecState}
    (h : Linked (RecordStep (validateEnv pkt emsgLen)) Prod.snd s vs t) :
    s.dec.emsg.text <+: t.dec.emsg.text ∧
      ∀ v ∈ vs, ∃ u, rrBody (validateEnv pkt emsgLen) v.1 v.2 = .ok 0 u ∧
        u.dec.emsg.text <+: t.dec.emsg.text := by
  induction vs generalizing s with
  | nil =>
    obtain rfl : t = s := h
    exact ⟨List.prefix_rfl, by simp⟩
  | cons v vs ih =>
    obtain ⟨rfl, u, ⟨hu, -⟩, hr⟩ := h
    obtain ⟨hpre, hall⟩ := ih hr
    have hbody : Part.body (validateEnv pkt emsgLen) (.records v.1) v.2 = .ok 0 u := hu
    have hstep := ((tellEntry_keeps pkt (.records v.1)).ok (tell_of_body hbody).1).2
    exact ⟨hstep.trans hpre, List.forall_mem_cons.mpr ⟨⟨u, hu, hpre⟩, hall⟩⟩

/-- The records of the packet, by their section and the state in which they are decoded. -/
def recordsOf (pkt : Bytes) (emsgLen : ℕ) : List (Sect × DecState) :=
  recordVisits (validateEnv pkt emsgLen) (zeroMsg 0)

/-- The line of an address record in the report of an accepted packet. -/
theorem record_told {pkt : Bytes} {emsgLen : ℕ} {t : DecState}
    (h : dnsValidate pkt emsgLen = .ok 0 t) {v : Sect × DecState} (hv : v ∈ recordsOf pkt emsgLen)
    {text : Bytes} {e : ℕ} (hn : NameAt pkt v.2.dec.offset text e) (hk : IsAddress (hdrAt pkt e)) :
    v.2.dec.emsg.text ++ rrLine v.1 (hdrAt pkt e) (cstr (shown text))
        (addressDesc pkt ((shown text).length+1) e) <+: t.dec.emsg.text ∧
      (shown text).length+1 ≤ dnsMsgSize ∧
      (ip4AddrStrlen ≤ sizeLeft ((shown text).length+1) → e+10+4 ≤ pkt.length) := by
  obtain ⟨s0, t1, h0, h1, ht1, rfl, -⟩ := accepted_run h
  obtain ⟨u, hu, htold⟩ := (linked_told (recordVisits_linked h0 h1 ht1)).2 v hv
  have hentry : ∃ text e, Entry (validateEnv pkt emsgLen) v.1 v.2 text e := by
    by_contra hnone
    push Not at hnone
    obtain ⟨c, x, hx⟩ := rrBody_rejected hnone
    rw [hx] at hu
    cases hu
  obtain ⟨text', e', hentry⟩ := hentry
  obtain ⟨rfl, rfl⟩ := hn.unique hentry.name
  obtain ⟨hline, hin⟩ := address_line hentry hk hu
  refine ⟨?_, hentry.room, hin⟩
  rw [← hline]
  exact htold.trans (sizeTold_keeps pkt t1).2

/-- An address record of the packet, with its owner name and the end of that name. -/
structure AddressRecord (pkt : Bytes) (emsgLen : ℕ) (v : Sect × DecState) (text : Bytes)
    (e : ℕ) : Prop where
  record : v ∈ recordsOf pkt emsgLen
  name : NameAt pkt v.2.dec.offset text e
  type : IsAddress (hdrAt pkt e)

def addressBytes (pkt : Bytes) (e : ℕ) : Bytes :=
  slice pkt (e+10) (if rrKind (hdrAt pkt e).rrType = .a then 4 else 16)

/-- Each address record has the text of its own RDATA in its line. Two
packets with the same report up to a record that has the same owner, type,
class and time to live in both, and different addresses, have different
reports. -/
structure AddressesFaithful (pkt : Bytes) (emsgLen : ℕ) (t : DecState) : Prop where
  own : ∀ v text e, AddressRecord pkt emsgLen v text e →
    v.2.dec.emsg.text ++ rrLine v.1 (hdrAt pkt e) (cstr (shown text)) (addressText pkt e) <+:
      t.dec.emsg.text
  apart : ∀ pkt' emsgLen' t', dnsValidate pkt' emsgLen' = .ok 0 t' → ∀ v text e v' text' e',
    AddressRecord pkt emsgLen v text e → AddressRecord pkt' emsgLen' v' text' e' →
    v'.1 = v.1 → v'.2.dec.emsg.text = v.2.dec.emsg.text → shown text' = shown text →
    hdrAt pkt' e' = hdrAt pkt e → addressBytes pkt' e' ≠ addressBytes pkt e →
    t'.dec.emsg.text ≠ t.dec.emsg.text

/-- An `A` record whose owner name leaves room for the longest IPv4 text. -/
def Shown4 (pkt : Bytes) (text : Bytes) (e : ℕ) : Prop :=
  rrKind (hdrAt pkt e).rrType = .a ∧ (shown text).length+1+ip4AddrStrlen ≤ dnsMsgSize

section Accepted

variable {pkt : Bytes} {emsgLen : ℕ} {t : DecState} {v : Sect × DecState} {text : Bytes} {e : ℕ}

/-- The line of a record that shows its address, in a form that the text can be read off. -/
theorem shown4_told (h : dnsValidate pkt emsgLen = .ok 0 t)
    (hrec : AddressRecord pkt emsgLen v text e)
    (hshown : Shown4 pkt text e) :
    v.2.dec.emsg.text ++ lineFront v.1 (hdrAt pkt e) (cstr (shown text)) ++
        (ip4Str (slice pkt (e+10) 4) ++ [10]) <+: t.dec.emsg.text ∧
      (slice pkt (e+10) 4).length = 4 := by
  obtain ⟨hline, hroom, hin⟩ := record_told h hrec.record hrec.name hrec.type
  have hleft : ip4AddrStrlen ≤ sizeLeft ((shown text).length+1) := by
    have hfit := hshown.2
    rw [sizeLeft_of_le hroom]
    omega
  rw [addressDesc, if_neg (Nat.not_lt.mpr hleft),
    rrLine_front (by simp [hshown.1]), ← List.append_assoc] at hline
  exact ⟨hline, length_slice _ _ _ (hin hleft)⟩

theorem faithful_of_shown (h : dnsValidate pkt emsgLen = .ok 0 t)
    (hshown : ∀ v text e, AddressRecord pkt emsgLen v text e → Shown4 pkt text e) :
    AddressesFaithful pkt emsgLen t := by
  constructor
  · intro v text e hrec
    have h4 := hshown v text e hrec
    obtain ⟨hline, -⟩ := shown4_told h hrec h4
    rw [rrLine_front (by simp [h4.1]), addressText, if_pos h4.1, ip4StrEncode,
      if_neg (lt_irrefl _), ← List.append_assoc]
    exact hline
  · intro pkt' emsgLen' t' h' v text e v' text' e' hrec hrec' hsect htext hname hhdr hne hsame
    have h4 := hshown v text e hrec
    have h4' : Shown4 pkt' text' e' := by
      rw [Shown4, hhdr, hname]
      exact h4
    obtain ⟨hline, hlen⟩ := shown4_told h hrec h4
    obtain ⟨hline', hlen'⟩ := shown4_told h' hrec' h4'
    rw [hsect, htext, hhdr, hname, hsame] at hline'
    have hbreak (addr : Bytes) : 10 ∉ ip4Str addr := ip4Str_not_mem (by decide) (by decide)
    have haddr := ip4Str_inj hlen' hlen (text_of_line (hbreak _) (hbreak _) hline' hline)
    apply hne
    rw [addressBytes, addressBytes, if_pos h4.1, if_pos h4'.1]
    exact haddr

theorem addressText_break (pkt : Bytes) (e : ℕ) : 10 ∉ addressText pkt e := by
  unfold addressText ip4StrEncode
  split_ifs
  · exact List.not_mem_nil
  · exact ip4Str_not_mem (by decide) (by decide)
  · intro h
    exact absurd ((ip6Str_chars _ le_rfl).1 10 h) (by decide)

theorem addressDesc_not_mem (pkt : Bytes) (w e : ℕ) {ch : UInt8} (hn : isNumeral ch = false)
    (hd : ch ≠ 46) (hq : ch ≠ 63) : ch ∉ addressDesc pkt w e := by
  unfold addressDesc
  split_ifs
  · simp [ascii, hq]
  · exact ip4Str_not_mem hn hd

theorem shown_of_faithful (h : dnsValidate pkt emsgLen = .ok 0 t)
    (hown : AddressesFaithful pkt emsgLen t) (hrec : AddressRecord pkt emsgLen v text e) :
    Shown4 pkt text e := by
  obtain ⟨hline, hroom, -⟩ := record_told h hrec.record hrec.name hrec.type
  have htold := hown.own v text e hrec
  have hopt : rrKind (hdrAt pkt e).rrType ≠ .opt := by
    rcases hrec.type with hk | hk <;> simp [hk]
  rw [rrLine_front hopt, ← List.append_assoc] at hline htold
  have htext := text_of_line (addressText_break pkt e)
    (addressDesc_not_mem pkt _ e (by decide) (by decide) (by decide)) htold hline
  rcases hrec.type with hk | hk
  · refine ⟨hk, ?_⟩
    by_contra hfull
    have hleft : sizeLeft ((shown text).length+1) < ip4AddrStrlen := by
      rw [sizeLeft_of_le hroom]
      omega
    rw [addressText, if_pos hk, ip4StrEncode, if_neg (lt_irrefl _), addressDesc, if_pos hleft]
      at htext
    have hmark : 63 ∉ ip4Str (slice pkt (e+10) 4) := ip4Str_not_mem (by decide) (by decide)
    rw [htext] at hmark
    exact hmark (by decide)
  · have hcolon := (ip6Str_chars (slice pkt (e+10) 16) le_rfl).2
    rw [addressText, if_neg (by simp [hk])] at htext
    rw [htext] at hcolon
    exact absurd hcolon (addressDesc_not_mem pkt _ e (by decide) (by decide) (by decide))

end Accepted

/-- The addresses of an accepted packet are reported faithfully exactly when
its address records are `A` records whose owner names leave room for the text. -/
theorem addresses_faithful_iff (pkt : Bytes) (emsgLen : ℕ) (t : DecState)
    (h : dnsValidate pkt emsgLen = .ok 0 t) :
    AddressesFaithful pkt emsgLen t ↔
      ∀ v text e, AddressRecord pkt emsgLen v text e → Shown4 pkt text e :=
  ⟨fun hf _ _ _ hrec => shown_of_faithful h hf hrec, faithful_of_shown h⟩

theorem nameAt_of_decode {pkt text : Bytes} {off n e : ℕ} (nlen : ℕ)
    (h : decodeName pkt off nlen = .ok ⟨.ok n, e, text ++ [0]⟩) : NameAt pkt off text e := by
  obtain ⟨j, ls, text', hr, hj, -, htext, -, he⟩ := (decodeName_ok_iff _ _ _ _ _ _).mp h
  obtain rfl : text = text' := by simpa using htext
  exact ⟨j, ls, hr, hj, he⟩

def answerPkt (rrType : UInt8) (addr : Bytes) : Bytes :=
  responseHdr 1 0 0 ++ [0, 0, rrType, 0, 1, 0, 0, 0, 60, 0, UInt8.ofNat addr.length] ++ addr

/-- The one record of such a packet. -/
theorem answer_owner {rrType : UInt8} {addr : Bytes}
    (hoff : (recordsOf (answerPkt rrType addr) 4096).map (fun v => v.2.dec.offset) = [12])
    {v : Sect × DecState} (hv : v ∈ recordsOf (answerPkt rrType addr) 4096) :
    NameAt (answerPkt rrType addr) v.2.dec.offset [] 13 := by
  have hmem := List.mem_map_of_mem (f := fun v : Sect × DecState => v.2.dec.offset) hv
  rw [hoff, List.mem_singleton] at hmem
  rw [hmem]
  exact nameAt_of_decode 100 (n := 1) rfl

theorem loopback_reported :
    ∃ t, dnsValidate (answerPkt 1 [127, 0, 0, 1]) 4096 = .ok 0 t ∧
      AddressesFaithful (answerPkt 1 [127, 0, 0, 1]) 4096 t := by
  have hacc : (dnsValidate (answerPkt 1 [127, 0, 0, 1]) 4096).result.map Prod.fst = some 0 := by
    decide +kernel
  obtain ⟨c, t, h, hc⟩ := Outcome.eq_ok hacc
  dsimp only at hc
  subst hc
  refine ⟨t, h, (addresses_faithful_iff _ 4096 t h).mpr ?_⟩
  intro v text e hrec
  obtain ⟨rfl, rfl⟩ := hrec.name.unique (answer_owner (by decide +kernel) hrec.record)
  exact ⟨by decide +kernel, by decide⟩

/-- The address `::1` is reported as `0.0.0.0`. -/
theorem loopback6_misreported :
    ∃ t, dnsValidate (answerPkt 28 (List.replicate 15 0 ++ [1])) 4096 = .ok 0 t ∧
      ¬ AddressesFaithful (answerPkt 28 (List.replicate 15 0 ++ [1])) 4096 t := by
  let pkt := answerPkt 28 (List.replicate 15 0 ++ [1])
  have hrun : (dnsValidate pkt 4096).result.map (fun q => (q.1, (recordsOf pkt 4096).map fun v =>
      (v.2.dec.offset, (v.2.dec.emsg.text ++ rrLine v.1 (hdrAt pkt 13) (cstr (shown []))
        (addressText pkt 13)).isPrefixOf q.2.dec.emsg.text))) = some (0, [(12, false)]) := by
    decide +kernel
  obtain ⟨c, t, h, hc⟩ := Outcome.eq_ok hrun
  obtain ⟨rfl, hrecords⟩ := Prod.mk.inj hc
  obtain ⟨v, rest, hvisits, hv, -⟩ := List.map_eq_cons_iff.mp hrecords
  obtain ⟨hoff, hpre⟩ := Prod.mk.inj hv
  refine ⟨t, h, fun hfaithful => ?_⟩
  have hmem : v ∈ recordsOf pkt 4096 := by
    rw [hvisits]
    exact List.mem_cons_self
  have hname : NameAt pkt v.2.dec.offset [] 13 := by
    rw [hoff]
    exact nameAt_of_decode 100 (n := 1) rfl
  have hown := hfaithful.own v [] 13 ⟨hmem, hname, .inr (by decide +kernel)⟩
  rw [List.isPrefixOf_iff_prefix.mpr hown] at hpre
  cases hpre

end DnsPkt.ReportedAddress
