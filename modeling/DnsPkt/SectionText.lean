import DnsPkt.AddressNotation
import DnsPkt.MessageStore
import DnsPkt.NumberText
import DnsPkt.RecordDecoder

/-!
# The text of the sections

`dns_rr_tostr` puts a record into a buffer, `dns_sect_tostr` the records of a
section and `dns_sects_tostr` the three sections. Each piece of a text is put
if it fits what is left. Numbers come from the slots of `u32_tostr`.
-/

set_option autoImplicit false

namespace DnsPkt.SectionText
open DnsPkt.CheckedRun DnsPkt.CheckedRun.Run DnsPkt.Octets DnsPkt.Protocol DnsPkt.ReportText
open DnsPkt.MessageStore DnsPkt.AddressText DnsPkt.AddressNotation DnsPkt.NumberText

abbrev dnsFail : ℤ := -1

/-- The buffer of the caller, the `sbuf` over a part of it and the static
buffer of `u32_tostr`. -/
structure TextBuf where
  mem : Bytes
  ptr : ℕ
  fin : ℕ
  slots : TextSlots

inductive TextFault where
  | slot (cause : SlotFault)
  | wildStr
  deriving DecidableEq, Repr

abbrev Txt := Run TextBuf ℤ TextFault

def sbufRem (s : TextBuf) : ℕ := s.fin-s.ptr

/-- `sbuf_putm`; `sbuf_putcm` and the like put the separator and the text as one. -/
def sbufPutm (b : Bytes) : Txt Unit :=
  modify fun s => if sbufRem s < b.length then s else
    { s with mem := patch s.mem s.ptr b, ptr := s.ptr+b.length }

def sbufEndz : Txt Unit :=
  modify fun s => if s.ptr < s.fin then { s with mem := patch s.mem s.ptr [0] } else s

/-- A text that was encoded in place, with its end, and the space for it. -/
def sbufEncoded (encode : ℕ → Bytes) : Txt Unit :=
  modify fun s =>
    let text := encode (sbufRem s)
    if text = [] then s else
      { s with mem := patch s.mem s.ptr (text ++ [0]), ptr := s.ptr+text.length }

/-- `u32_tostr`, whose string is read before the next call. -/
def numberText (val : UInt32) : Txt Bytes := fun s =>
  match u32Tostr val s.slots with
  | .ok str t => .ok (textAt t str) { s with slots := t }
  | .exit e _ => e.elim
  | .fault c => .fault (.slot c)

inductive Piece where
  /-- Given bytes. -/
  | lit (b : Bytes)
  /-- A string, with bytes in front, if there is a string. -/
  | str (front : Bytes) (p : Ptr)
  /-- A string, or a default where there is none or an empty one. -/
  | strDef (p : Ptr) (dflt : Bytes)
  /-- A number, with bytes in front. -/
  | num (front : Bytes) (val : UInt32)
  | ip4 (addr : Bytes)
  | ip6 (addr : Bytes)

def putPiece (st : NameStore) : Piece → Txt Unit
  | .lit b => sbufPutm b
  | .str front p =>
    match p with
    | .null => pure ()
    | .ref off => sbufPutm (front ++ cstr (st.mem.drop off))
    | .wild => fault .wildStr
  | .strDef p dflt =>
    match p with
    | .null => sbufPutm dflt
    | .ref off =>
      let str := cstr (st.mem.drop off)
      sbufPutm (if str = [] then dflt else str)
    | .wild => fault .wildStr
  | .num front val => do
    let s ← get
    -- no space for the separator, no number
    when (front.length ≤ sbufRem s) do
      sbufPutm front
      let text ← numberText val
      sbufPutm text
  | .ip4 addr => sbufEncoded (ip4StrEncode addr)
  | .ip6 addr => sbufEncoded (ip6StrEncode addr 0)

def lits (s : String) : Piece := .lit (ascii s)

def space : Bytes := [32]

/-- The strings of a `TXT` record. What is behind the array is no string. -/
def txtPieces (r : Rdata Ptr) : ℕ → List Piece
  | 0 => []
  | k+1 => txtPieces r k ++ [lits " txt=", .str [] (r.txtStr.getD k .wild)]

def rdataPieces (r : DnsRr Ptr) : List Piece :=
  match rrKind r.rrType with
  | .a => [.ip4 r.rdata.a.toList]
  | .ns => [.str [] r.rdata.nsName]
  | .cname => [.str [] r.rdata.cname]
  | .soa => [lits "MNAME=", .str [] r.rdata.soaMname, lits " RNAME=", .str [] r.rdata.soaRname,
      .num space r.rdata.soaSerial, .num space r.rdata.soaRefresh, .num space r.rdata.soaRetry,
      .num space r.rdata.soaExpire, .num space r.rdata.soaMinTtl]
  | .ptr => [.str [] r.rdata.ptrName]
  | .hinfo => [lits "cpu=", .str [] r.rdata.hinfoCpuStr, lits " os=", .str [] r.rdata.hinfoOsStr]
  | .mx => [lits "Pref=", .num [] r.rdata.mxPref.toUInt32, .str space r.rdata.mxName]
  | .txt => txtPieces r.rdata r.rdata.txtNumStr
  | .aaaa => [.ip6 r.rdata.aaaa.toList]
  | .srv => [lits "Priority", .num space r.rdata.srvPrior.toUInt32, lits " Weight",
      .num space r.rdata.srvWeight.toUInt32, lits " Port", .num space r.rdata.srvPort.toUInt32,
      lits " Srv", .str space r.rdata.srvName]
  | .opt => [lits "udp-size:", .num space r.rdata.optUdpSize.toUInt32, lits " Ext-RCODE:",
      .num space r.rdata.optExtRcode.toUInt32, lits " EDNS0:",
      .num space r.rdata.optEdnsVer.toUInt32, lits " DNSEC-OK:",
      .num space (if r.rdata.optDoBit then 1 else 0)]
  | .any => []
  | .other => []

def rrPieces (r : DnsRr Ptr) : List Piece :=
  [lits "  ", .strDef r.name (ascii "<null>"), .lit (space ++ dnsClassTostr r.rrClass.toNat),
    .lit (space ++ dnsTypeTostr r.rrType.toNat), lits " "] ++ rdataPieces r

def putPieces (st : NameStore) : List Piece → Txt Unit
  | [] => pure ()
  | p :: ps => do
    putPiece st p
    putPieces st ps

/-- `dns_rr_tostr` into the `len` bytes of the buffer from place `mem` on. -/
def dnsRrTostr (st : NameStore) (r : DnsRr Ptr) (mem len : ℕ) : Txt ℕ := do
  modify fun s => { s with ptr := mem, fin := mem+len }
  putPieces st (rrPieces r)
  sbufEndz
  let s ← get
  pure (s.ptr-mem)

def records (sect : DnsSect) : List (DnsRr Ptr) := sect.slots.take sect.count

def putByte (i : ℕ) (c : UInt8) : Txt Unit := modify fun s => { s with mem := patch s.mem i [c] }

/-- The loop over the records from number `i` on, with `nw` bytes written. -/
def sectLoop (st : NameStore) (bufLen : ℕ) : List (DnsRr Ptr) → ℕ → ℕ → Txt ℤ
  | [], _, nw => pure nw
  | r :: rest, i, nw => do
    when (0 < i) do
      when (nw = bufLen) (exit dnsFail)
      putByte nw 10
    let nw := if 0 < i then nw+1 else nw
    let rc ← dnsRrTostr st r nw (bufLen-nw)
    sectLoop st bufLen rest (i+1) (nw+rc)

def dnsSectTostr (st : NameStore) (sect : DnsSect) (bufLen : ℕ) : Txt ℤ :=
  call (sectLoop st bufLen (records sect) 0 0)

/-- `rc = dns_sect_tostr(...); if (rc < 0) return rc; nw += nw;`. -/
def nextSect (st : NameStore) (sect : DnsSect) (len : ℕ) (nw : ℤ) : Txt ℤ := do
  let rc ← dnsSectTostr st sect len
  when (rc < 0) (exit rc)
  pure (nw+nw)

def dnsSectsTostr (m : DnsMsg) (len : ℕ) : Txt ℤ := call do
  let nw ← nextSect m.store m.an len 0
  let nw ← nextSect m.store m.ns len nw
  nextSect m.store m.ar len nw

def Piece.text (st : NameStore) : Piece → Bytes
  | .lit b => b
  | .str front p => ((st.str p).map fun str => front ++ str).getD []
  | .strDef p dflt => if (st.str p).getD [] = [] then dflt else (st.str p).getD []
  | .num front val => front ++ decimal val.toNat
  | .ip4 addr => ip4Str addr
  | .ip6 addr => ip6StrEncode addr 0 ip6AddrStrlen

def piecesText (st : NameStore) (ps : List Piece) : Bytes := ps.flatMap (Piece.text st)

def rrTostr (st : NameStore) (r : DnsRr Ptr) : Bytes := piecesText st (rrPieces r)

/-- Each of the texts once and in order, with nothing but line ends around them. -/
def Listing : List Bytes → Bytes → Prop
  | [], text => ∀ c ∈ text, c = 10
  | b :: bs, text => ∃ front rest, (∀ c ∈ front, c = 10) ∧ text = front ++ (b ++ rest) ∧
      Listing bs rest

def msgRecords (m : DnsMsg) : List (DnsRr Ptr) := records m.an ++ (records m.ns ++ records m.ar)

/-- The text that is left lists every record of the message, and its length is returned. -/
def ListsAll (m : DnsMsg) (s : TextBuf) : Prop :=
  ∃ rc t, dnsSectsTostr m s.mem.length s = .ok rc t ∧ rc = (cstr t.mem).length ∧
    Listing ((msgRecords m).map (rrTostr m.store)) (cstr t.mem)

theorem rrTostr_ne_nil (st : NameStore) (r : DnsRr Ptr) : rrTostr st r ≠ [] := by
  rw [rrTostr, rrPieces, piecesText, List.cons_append, List.flatMap_cons]
  exact List.cons_ne_nil 32 _

theorem records_eq_nil (sect : DnsSect) : records sect = [] ↔ sect.count = 0 := by
  have hsize := sect.size
  have hfits := sect.fits
  rw [records, List.take_eq_nil_iff]
  constructor
  · rintro (h | h)
    · exact h
    · rw [h, List.length_nil] at hsize
      omega
  · exact fun h => .inl h

theorem nextSect_ok {st : NameStore} {sect : DnsSect} {len : ℕ} {nw rc : ℤ} {s t : TextBuf}
    (h : nextSect st sect len nw s = .ok rc t) : rc = nw+nw := by
  obtain ⟨n, u, -, hrest⟩ := (bind_ok _ _ _ _ _).mp h
  obtain ⟨_, v, -, hpure⟩ := (bind_ok _ _ _ _ _).mp hrest
  cases hpure
  rfl

theorem nextSect_exit {st : NameStore} {sect : DnsSect} {len : ℕ} {nw rc : ℤ} {s t : TextBuf}
    (h : nextSect st sect len nw s = .exit rc t) : rc < 0 := by
  rcases (bind_exit _ _ _ _ _).mp h with hcall | ⟨n, u, -, hrest⟩
  · exact absurd hcall (call_ne_exit _ _ _ _)
  · by_cases hneg : n < 0
    · rw [bind_when_pos hneg] at hrest
      cases hrest
      exact hneg
    · rw [bind_when_neg hneg] at hrest
      cases hrest

/-- The length that was written is never added: nothing above zero is returned. -/
theorem dnsSectsTostr_le {m : DnsMsg} {len : ℕ} {rc : ℤ} {s t : TextBuf}
    (h : dnsSectsTostr m len s = .ok rc t) : rc ≤ 0 := by
  have hsteps := (call_ok _ _ _ _).mp h
  rw [bind_ok, bind_exit] at hsteps
  rcases hsteps with ⟨n1, s1, h1, hrest⟩ | hleave | ⟨n1, s1, h1, hrest⟩
  · obtain ⟨n2, s2, h2, h3⟩ := (bind_ok _ _ _ _ _).mp hrest
    have e1 := nextSect_ok h1
    have e2 := nextSect_ok h2
    have e3 := nextSect_ok h3
    omega
  · exact (nextSect_exit hleave).le
  · rcases (bind_exit _ _ _ _ _).mp hrest with hleave | ⟨n2, s2, -, hleave⟩
    · exact (nextSect_exit hleave).le
    · exact (nextSect_exit hleave).le

theorem dnsSectTostr_empty {st : NameStore} {sect : DnsSect} (h : sect.count = 0) (len : ℕ)
    (s : TextBuf) : dnsSectTostr st sect len s = .ok 0 s := by
  rw [dnsSectTostr, (records_eq_nil sect).mpr h]
  rfl

theorem nextSect_empty {st : NameStore} {sect : DnsSect} (h : sect.count = 0) (len : ℕ) (nw : ℤ)
    (s : TextBuf) : nextSect st sect len nw s = .ok (nw+nw) s := by
  rw [nextSect, bind_of_ok (dnsSectTostr_empty h len s), bind_when_neg (by omega)]
  rfl

theorem dnsSectsTostr_empty {m : DnsMsg} (h : ∀ sc, (m.sect sc).count = 0) (len : ℕ)
    (s : TextBuf) : dnsSectsTostr m len s = .ok 0 s := by
  have han : m.an.count = 0 := h .an
  have hns : m.ns.count = 0 := h .ns
  have har : m.ar.count = 0 := h .ar
  have hlast : nextSect m.store m.ar len 0 s = .ok 0 s := nextSect_empty har len 0 s
  have hrun : (nextSect m.store m.an len 0 >>= fun nw => do
      let nw ← nextSect m.store m.ns len nw
      nextSect m.store m.ar len nw) s = .ok 0 s := by
    rw [bind_of_ok (nextSect_empty han len 0 s)]
    exact (bind_of_ok (nextSect_empty hns len 0 s) _).trans hlast
  exact (call_ok _ _ _ _).mpr (.inl hrun)

theorem msgRecords_eq_nil (m : DnsMsg) : msgRecords m = [] ↔ ∀ sc, (m.sect sc).count = 0 := by
  rw [msgRecords, List.append_eq_nil_iff, List.append_eq_nil_iff, records_eq_nil, records_eq_nil,
    records_eq_nil]
  constructor
  · rintro ⟨h1, h2, h3⟩ sc
    cases sc with
    | an => exact h1
    | ns => exact h2
    | ar => exact h3
  · intro h
    exact ⟨h .an, h .ns, h .ar⟩

/-- The sections are listed only where there is nothing to list. -/
theorem lists_all_iff (m : DnsMsg) (s : TextBuf) :
    ListsAll m s ↔ (∀ sc, (m.sect sc).count = 0) ∧ cstr s.mem = [] := by
  constructor
  · rintro ⟨rc, t, hrun, hlen, hlist⟩
    have hle := dnsSectsTostr_le hrun
    have hempty : cstr t.mem = [] := List.length_eq_zero_iff.mp (by omega)
    rw [hempty] at hlist
    have hnone : msgRecords m = [] := by
      cases hrec : msgRecords m with
      | nil => rfl
      | cons r rest =>
        rw [hrec] at hlist
        obtain ⟨front, behind, -, htext, -⟩ := hlist
        obtain ⟨-, hrest⟩ := List.append_eq_nil_iff.mp htext.symm
        exact absurd (List.append_eq_nil_iff.mp hrest).1 (rrTostr_ne_nil m.store r)
    have hcounts := (msgRecords_eq_nil m).mp hnone
    rw [dnsSectsTostr_empty hcounts] at hrun
    cases hrun
    exact ⟨hcounts, hempty⟩
  · rintro ⟨hcounts, hempty⟩
    refine ⟨0, s, dnsSectsTostr_empty hcounts _ s, by rw [hempty]; rfl, ?_⟩
    rw [(msgRecords_eq_nil m).mpr hcounts, hempty]
    simp [Listing]

/-- One turn over a run of zeros puts two colons, every other one at most one. -/
theorem groups_length_le (addr : Bytes) (zeroPos : ℤ) (zeroLen addrLen k i : ℕ) :
    (groups addr zeroPos zeroLen addrLen k i).length ≤
      5*k+(if (i : ℤ) ≤ zeroPos then 1 else 0) := by
  induction k generalizing i with
  | zero => exact Nat.zero_le _
  | succ k ih =>
    have hhex (j : ℕ) := length_uint16Toax_le (groupAt addr j)
    rw [groups]
    by_cases hi : i < addrLen
    · rw [if_pos hi]
      by_cases hz : (i : ℤ) = zeroPos
      · rw [if_pos hz]
        by_cases hend : 16 ≤ i+zeroLen
        · rw [if_pos hend]
          simp only [List.length_cons, List.length_nil]
          omega
        · have h1 := ih (i+zeroLen+2)
          have h2 := hhex (i+zeroLen)
          rw [if_neg (by omega)] at h1
          rw [if_neg hend, if_pos hz.le]
          simp only [List.length_append, List.length_cons, List.length_nil]
          omega
      · have h1 := ih (i+2)
        have h2 := hhex i
        have hcolon : (if i ≠ 0 then [(58 : UInt8)] else []).length ≤ 1 := by
          split <;> simp
        rw [if_neg hz, List.length_append, List.length_append]
        generalize (if i ≠ 0 then [(58 : UInt8)] else []) = colon at hcolon
        split_ifs at h1 ⊢ <;> omega
    · rw [if_neg hi]
      exact Nat.zero_le _

theorem groups_mixed {addr : Bytes} (h : isMixed addr = true) :
    (groups addr (zeroRun addr).1 (zeroRun addr).2 12 8 0).length ≤ 6 := by
  have hz : (zeroRun addr).1 = 0 ∧ ((zeroRun addr).2 = 10 ∨ (zeroRun addr).2 = 12) := by
    simp only [isMixed, Bool.and_eq_true, Bool.or_eq_true, decide_eq_true_eq] at h
    exact ⟨h.1, h.2.imp (fun hmapped => hmapped.1.1) id⟩
  obtain ⟨hpos, hlen⟩ := hz
  have hhex := length_uint16Toax_le (groupAt addr (0+(zeroRun addr).2))
  rw [groups, if_pos (by decide), if_pos (by rw [hpos]; rfl), if_neg (by omega), groups,
    if_neg (by omega)]
  simp only [List.length_append, List.length_cons, List.length_nil]
  omega

/-- The text of an address without flags, where the buffer is not refused. -/
theorem ip6StrEncode_plain (addr : Bytes) {len : ℕ} (h : ip6AddrStrlen ≤ len) :
    ip6StrEncode addr 0 len = if isMixed addr then
      groups addr (zeroRun addr).1 (zeroRun addr).2 12 8 0 ++
        (if (zeroRun addr).2 = 10 then [58] else []) ++ ip4Str (addr.drop 12)
    else groups addr (zeroRun addr).1 (zeroRun addr).2 16 8 0 := by
  have hlen : 46 ≤ len := h
  rw [ip6StrEncode]
  simp only [Nat.zero_and, ne_eq, not_true_eq_false, decide_false, Bool.false_eq_true, ↓reduceIte,
    Nat.add_zero, if_neg (Nat.not_lt.mpr h), decide_true, Bool.true_and, Bool.and_false,
    List.nil_append, List.append_nil]
  by_cases hmixed : isMixed addr
  · have hgroups := groups_mixed hmixed
    have hcolon : (if (zeroRun addr).2 = 10 then [(58 : UInt8)] else []).length ≤ 1 := by
      split <;> simp
    generalize (if (zeroRun addr).2 = 10 then [(58 : UInt8)] else []) = colon at hcolon
    simp only [hmixed, ↓reduceIte]
    rw [ip4StrEncode, if_neg]
    rw [List.length_append]
    change ¬ _ < 16
    omega
  · rw [if_neg hmixed, if_neg hmixed, if_neg hmixed]

/-- The text of an address does not depend on the space that is left. -/
theorem ip6StrEncode_room (addr : Bytes) {len : ℕ} (h : ip6AddrStrlen ≤ len) :
    ip6StrEncode addr 0 len = ip6StrEncode addr 0 ip6AddrStrlen := by
  rw [ip6StrEncode_plain addr h, ip6StrEncode_plain addr (Nat.le_refl _)]

theorem ip6StrEncode_length_le (addr : Bytes) :
    (ip6StrEncode addr 0 ip6AddrStrlen).length+1 ≤ ip6AddrStrlen := by
  rw [ip6StrEncode_plain addr (Nat.le_refl _)]
  by_cases hmixed : isMixed addr
  · have hgroups := groups_mixed hmixed
    have hquad := ip4Str_length_le (addr.drop 12)
    have hcolon : (if (zeroRun addr).2 = 10 then [(58 : UInt8)] else []).length ≤ 1 := by
      split <;> simp
    rw [if_pos hmixed, List.length_append, List.length_append]
    change _ ≤ 46
    omega
  · have hgroups := groups_length_le addr (zeroRun addr).1 (zeroRun addr).2 16 8 0
    rw [if_neg hmixed]
    change _ ≤ 46
    split_ifs at hgroups <;> omega

def Piece.Quiet : Piece → Prop
  | .str _ p => p ≠ .wild
  | .strDef p _ => p ≠ .wild
  | .num _ _ => False
  | _ => True

def Piece.room (st : NameStore) : Piece → ℕ
  | .ip4 _ => ip4AddrStrlen
  | .ip6 _ => ip6AddrStrlen
  | p => (p.text st).length

/-- The bytes `b` are put at the place of the `sbuf`. -/
structure Adds (s t : TextBuf) (b : Bytes) : Prop where
  ptr : t.ptr = s.ptr+b.length
  fin : t.fin = s.fin
  size : t.mem.length = s.mem.length
  mem : t.mem.take t.ptr = s.mem.take s.ptr ++ b

theorem adds_nil (s : TextBuf) : Adds s s [] := ⟨rfl, rfl, rfl, (List.append_nil _).symm⟩

theorem Adds.trans {s m t : TextBuf} {b c : Bytes} (h : Adds s m b) (h' : Adds m t c) :
    Adds s t (b ++ c) where
  ptr := by rw [h'.ptr, h.ptr, List.length_append, Nat.add_assoc]
  fin := h'.fin.trans h.fin
  size := h'.size.trans h.size
  mem := by rw [h'.mem, h.mem, List.append_assoc]

theorem sbufPutm_run {b : Bytes} {s : TextBuf} (hroom : s.ptr+b.length ≤ s.fin)
    (hin : s.fin ≤ s.mem.length) : ∃ t, sbufPutm b s = .ok () t ∧ Adds s t b := by
  refine ⟨{ s with mem := patch s.mem s.ptr b, ptr := s.ptr+b.length }, ?_, rfl, rfl, ?_, ?_⟩
  · rw [sbufPutm, modify_run, if_neg (by rw [sbufRem]; omega)]
  · exact length_patch _ _ _ (by omega)
  · exact take_patch _ _ _ (by omega)

theorem sbufEncoded_run {encode : ℕ → Bytes} {b : Bytes} {k : ℕ} {s : TextBuf}
    (he : ∀ len, k ≤ len → encode len = b) (hb : b.length+1 ≤ k) (hroom : s.ptr+k ≤ s.fin)
    (hin : s.fin ≤ s.mem.length) : ∃ t, sbufEncoded encode s = .ok () t ∧ Adds s t b := by
  have htext : encode (sbufRem s) = b := he _ (by rw [sbufRem]; omega)
  rw [sbufEncoded, modify_run, htext]
  by_cases hnil : b = []
  · rw [if_pos hnil, hnil]
    exact ⟨s, rfl, adds_nil s⟩
  · have hlen : (b ++ [0]).length = b.length+1 := List.length_append
    have hfit : s.ptr+(b ++ [0]).length ≤ s.mem.length := by omega
    rw [if_neg hnil]
    refine ⟨_, rfl, rfl, rfl, length_patch _ _ _ hfit, ?_⟩
    have htake := take_patch s.mem s.ptr (b ++ [0]) hfit
    have hcut := congrArg (List.take (s.ptr+b.length)) htake
    rw [List.take_take, Nat.min_eq_left (by omega), ← List.append_assoc,
      List.take_left' (by rw [List.length_append, List.length_take]; omega)] at hcut
    exact hcut

section Quiet

variable {st : NameStore}

theorem putPiece_run {p : Piece} {s : TextBuf} (hq : p.Quiet)
    (hroom : s.ptr+p.room st ≤ s.fin) (hin : s.fin ≤ s.mem.length) :
    ∃ t, putPiece st p s = .ok () t ∧ Adds s t (p.text st) := by
  cases p with
  | lit b => exact sbufPutm_run hroom hin
  | str front p =>
    cases p with
    | null => exact ⟨s, rfl, adds_nil s⟩
    | ref off => exact sbufPutm_run hroom hin
    | wild => exact absurd rfl hq
  | strDef p dflt =>
    cases p with
    | null => exact sbufPutm_run hroom hin
    | ref off => exact sbufPutm_run hroom hin
    | wild => exact absurd rfl hq
  | num front val => exact absurd hq id
  | ip4 addr =>
    exact sbufEncoded_run (fun len h => if_neg (Nat.not_lt.mpr h))
      (Nat.succ_le_succ (ip4Str_length_le addr)) hroom hin
  | ip6 addr =>
    exact sbufEncoded_run (fun len h => ip6StrEncode_room addr h) (ip6StrEncode_length_le addr)
      hroom hin

theorem Piece.text_le_room {p : Piece} : (p.text st).length ≤ p.room st := by
  cases p with
  | ip4 addr => exact (ip4Str_length_le addr).trans (Nat.le_succ 15)
  | ip6 addr => exact (Nat.le_succ _).trans (ip6StrEncode_length_le addr)
  | _ => exact Nat.le_refl _

def piecesRoom (st : NameStore) (ps : List Piece) : ℕ := (ps.map (Piece.room st)).sum

theorem piecesText_le_room (ps : List Piece) : (piecesText st ps).length ≤ piecesRoom st ps := by
  induction ps with
  | nil => exact Nat.le_refl 0
  | cons p ps ih =>
    have hp : (p.text st).length ≤ p.room st := p.text_le_room
    rw [piecesText, List.flatMap_cons, List.length_append, piecesRoom, List.map_cons,
      List.sum_cons]
    exact Nat.add_le_add hp ih

theorem putPieces_run {ps : List Piece} {s : TextBuf} (hq : ∀ p ∈ ps, p.Quiet)
    (hroom : s.ptr+piecesRoom st ps ≤ s.fin) (hin : s.fin ≤ s.mem.length) :
    ∃ t, putPieces st ps s = .ok () t ∧ Adds s t (piecesText st ps) := by
  induction ps generalizing s with
  | nil => exact ⟨s, rfl, adds_nil s⟩
  | cons p ps ih =>
    have hp : (p.text st).length ≤ p.room st := p.text_le_room
    rw [piecesRoom, List.map_cons, List.sum_cons, ← piecesRoom] at hroom
    obtain ⟨m, hput, hm⟩ := putPiece_run (hq p (List.mem_cons_self ..))
      (show s.ptr+p.room st ≤ s.fin by omega) hin
    obtain ⟨t, hrest, ht⟩ := ih (fun q hmem => hq q (List.mem_cons_of_mem p hmem))
      (by rw [hm.ptr, hm.fin]; omega) (by rw [hm.fin, hm.size]; exact hin)
    rw [putPieces, bind_of_ok hput]
    exact ⟨t, hrest, hm.trans ht⟩

/-- No number is printed for the record, and all its strings can be read. -/
def QuietRr (r : DnsRr Ptr) : Prop := ∀ p ∈ rrPieces r, p.Quiet

theorem quiet_address {r : DnsRr Ptr} (hk : rrKind r.rrType = .a ∨ rrKind r.rrType = .aaaa)
    (hname : r.name ≠ .wild) : QuietRr r := by
  rcases hk with hk | hk
  · simp [QuietRr, rrPieces, rdataPieces, hk, lits, Piece.Quiet, hname]
  · simp [QuietRr, rrPieces, rdataPieces, hk, lits, Piece.Quiet, hname]

def rrRoom (st : NameStore) (r : DnsRr Ptr) : ℕ := piecesRoom st (rrPieces r)+1

/-- A record is put at its place with an end behind it, and its length is returned. -/
theorem dnsRrTostr_run {r : DnsRr Ptr} {mem len : ℕ} {s : TextBuf} (hq : QuietRr r)
    (hroom : rrRoom st r ≤ len) (hin : mem+len ≤ s.mem.length) :
    ∃ t, dnsRrTostr st r mem len s = .ok (rrTostr st r).length t ∧
      t.mem.length = s.mem.length ∧
      t.mem.take (mem+(rrTostr st r).length+1) = s.mem.take mem ++ (rrTostr st r ++ [0]) := by
  have htext : (rrTostr st r).length ≤ piecesRoom st (rrPieces r) := piecesText_le_room _
  change piecesRoom st (rrPieces r)+1 ≤ len at hroom
  obtain ⟨m, hput, hm⟩ := @putPieces_run st _ { s with ptr := mem, fin := mem+len } hq
    (by dsimp only; omega) hin
  have hptr : m.ptr = mem+(rrTostr st r).length := hm.ptr
  have hfin : m.fin = mem+len := hm.fin
  have hsize : m.mem.length = s.mem.length := hm.size
  have hfront : m.mem.take m.ptr = s.mem.take mem ++ rrTostr st r := hm.mem
  have hfit : m.ptr+[(0 : UInt8)].length ≤ m.mem.length := by
    rw [List.length_singleton]
    omega
  refine ⟨{ m with mem := patch m.mem m.ptr [0] }, ?_, ?_, ?_⟩
  · rw [dnsRrTostr, bind_of_ok (modify_run _ _), bind_of_ok hput]
    have hend : sbufEndz m = .ok () { m with mem := patch m.mem m.ptr [0] } := by
      rw [sbufEndz, modify_run, if_pos (by omega)]
    rw [bind_of_ok hend, bind_of_ok (get_run _), hptr, Nat.add_sub_cancel_left]
    rfl
  · exact (length_patch _ _ _ hfit).trans hsize
  · have htake := take_patch m.mem m.ptr [0] hfit
    rw [List.length_singleton, hfront, hptr, List.append_assoc] at htake
    rw [hptr]
    exact htake

def moreLines (st : NameStore) (rs : List (DnsRr Ptr)) : Bytes := rs.flatMap fun r =>
    10 :: rrTostr st r

def sectLines (st : NameStore) : List (DnsRr Ptr) → Bytes
  | [] => []
  | r :: rest => rrTostr st r ++ moreLines st rest

def sectRoom (st : NameStore) (rs : List (DnsRr Ptr)) : ℕ := (rs.map fun r => rrRoom st r+1).sum

theorem putByte_run {nw : ℕ} {c : UInt8} {s : TextBuf} (h : nw+1 ≤ s.mem.length) :
    ∃ t, putByte nw c s = .ok () t ∧ t.mem.length = s.mem.length ∧
      t.mem.take (nw+1) = s.mem.take nw ++ [c] :=
  ⟨_, rfl, length_patch s.mem nw [c] h, take_patch s.mem nw [c] h⟩

theorem sectLoop_more {bufLen : ℕ} {rs : List (DnsRr Ptr)} {i nw : ℕ} {s : TextBuf} {pre : Bytes}
    (hq : ∀ r ∈ rs, QuietRr r) (hi : 0 < i) (hroom : nw+sectRoom st rs ≤ bufLen)
    (hin : bufLen ≤ s.mem.length) (hnw : pre.length = nw)
    (hpre : s.mem.take (nw+1) = pre ++ [0]) :
    ∃ t, sectLoop st bufLen rs i nw s = .ok (nw+(moreLines st rs).length) t ∧
      t.mem.length = s.mem.length ∧
      t.mem.take (nw+(moreLines st rs).length+1) = pre ++ (moreLines st rs ++ [0]) := by
  induction rs generalizing i nw s pre with
  | nil => exact ⟨s, rfl, rfl, hpre⟩
  | cons r rest ih =>
    rw [sectRoom, List.map_cons, List.sum_cons, ← sectRoom] at hroom
    have hroom0 : nw+(rrRoom st r+1)+sectRoom st rest ≤ bufLen := by omega
    have hrr : piecesRoom st (rrPieces r)+1 = rrRoom st r := rfl
    have htext : (rrTostr st r).length ≤ piecesRoom st (rrPieces r) := piecesText_le_room _
    obtain ⟨m, hput, hmsize, hmfront⟩ := @putByte_run nw 10 s (by omega)
    obtain ⟨u, hrun, husize, hufront⟩ := @dnsRrTostr_run st r (nw+1) (bufLen-(nw+1)) m
      (hq r (List.mem_cons_self ..)) (by omega) (by omega)
    have hnwpre : s.mem.take nw = pre := by
      have hcut := congrArg (List.take nw) hpre
      rwa [List.take_take, Nat.min_eq_left (Nat.le_succ nw), List.take_left' hnw] at hcut
    rw [hmfront, hnwpre, List.append_assoc] at hufront
    have hupre : u.mem.take (nw+1+(rrTostr st r).length+1) = pre ++ 10 :: rrTostr st r ++ [0] := by
      rw [hufront, List.append_assoc]
      rfl
    obtain ⟨t, hrest, htsize, htfront⟩ := @ih (i+1) (nw+1+(rrTostr st r).length) u _
      (fun q hmem => hq q (List.mem_cons_of_mem r hmem)) (Nat.succ_pos i) (by omega) (by omega)
      (by rw [List.length_append, List.length_cons, hnw]; omega) hupre
    have hlines : moreLines st (r :: rest) = 10 :: rrTostr st r ++ moreLines st rest :=
      List.flatMap_cons
    have hlen : (moreLines st (r :: rest)).length =
        1+(rrTostr st r).length+(moreLines st rest).length := by
      rw [hlines, List.length_append, List.length_cons]
      omega
    refine ⟨t, ?_, htsize.trans (husize.trans hmsize), ?_⟩
    · have hline : (when (nw = bufLen) (exit dnsFail) >>= fun _ => putByte nw 10) s = .ok () m := by
        rw [bind_when_neg (by omega)]
        exact hput
      have hcount : ((nw+1+(rrTostr st r).length : ℕ) : ℤ)+((moreLines st rest).length : ℤ) =
          nw+((moreLines st (r :: rest)).length : ℤ) := by
        rw [hlen]
        omega
      rw [sectLoop, when_pos hi, bind_of_ok hline]
      rw [if_pos hi, bind_of_ok hrun, hrest, hcount]
    · have hplace : nw+(moreLines st (r :: rest)).length+1 =
          nw+1+(rrTostr st r).length+(moreLines st rest).length+1 := by omega
      rw [hplace, htfront, hlines, List.append_assoc, List.append_assoc]

/-- A section with records puts its lines at the front of the buffer, with an end
behind them, and returns their length. -/
theorem dnsSectTostr_run {sect : DnsSect} {bufLen : ℕ} {s : TextBuf}
    (hq : ∀ r ∈ records sect, QuietRr r) (hroom : sectRoom st (records sect) ≤ bufLen)
    (hin : bufLen ≤ s.mem.length) (hsome : records sect ≠ []) :
    ∃ t, dnsSectTostr st sect bufLen s = .ok ((sectLines st (records sect)).length : ℤ) t ∧
      t.mem.length = s.mem.length ∧ t.mem.take ((sectLines st (records sect)).length+1) =
        sectLines st (records sect) ++ [0] := by
  cases hrec : records sect with
  | nil => exact absurd hrec hsome
  | cons r rest =>
    rw [hrec] at hq hroom
    rw [sectRoom, List.map_cons, List.sum_cons, ← sectRoom] at hroom
    have hrr : piecesRoom st (rrPieces r)+1 = rrRoom st r := rfl
    have htext : (rrTostr st r).length ≤ piecesRoom st (rrPieces r) := piecesText_le_room _
    obtain ⟨u, hrun, husize, hufront⟩ := @dnsRrTostr_run st r 0 bufLen s
      (hq r (List.mem_cons_self ..)) (by omega) (by omega)
    rw [Nat.zero_add, List.take_zero, List.nil_append] at hufront
    obtain ⟨t, hrest, htsize, htfront⟩ := @sectLoop_more st bufLen rest 1
      (rrTostr st r).length u _ (fun q hmem => hq q (List.mem_cons_of_mem r hmem)) Nat.one_pos
        (by omega)
      (by omega) rfl hufront
    have hlen : (sectLines st (r :: rest)).length =
        (rrTostr st r).length+(moreLines st rest).length := List.length_append
    refine ⟨t, ?_, htsize.trans husize, ?_⟩
    · apply (call_ok _ _ _ _).mpr
      left
      rw [hrec, sectLoop, when_neg (Nat.lt_irrefl 0), pure_bind]
      rw [if_neg (Nat.lt_irrefl 0), Nat.sub_zero, bind_of_ok hrun, Nat.zero_add, Nat.zero_add,
        hrest, hlen]
      rfl
    · rw [hlen, htfront, ← List.append_assoc]
      rfl

/-- Every section starts at the front of the buffer again, and adds nothing to what is returned. -/
theorem nextSect_run {sect : DnsSect} {len : ℕ} {nw : ℤ} {s : TextBuf}
    (hq : ∀ r ∈ records sect, QuietRr r) (hroom : sectRoom st (records sect) ≤ len)
    (hin : len ≤ s.mem.length) :
    ∃ t, nextSect st sect len nw s = .ok (nw+nw) t ∧ t.mem.length = s.mem.length ∧
      if records sect = [] then t = s else
        t.mem.take ((sectLines st (records sect)).length+1) =
          sectLines st (records sect) ++ [0] := by
  by_cases hrec : records sect = []
  · simp only [if_pos hrec]
    exact ⟨s, nextSect_empty ((records_eq_nil sect).mp hrec) len nw s, rfl, rfl⟩
  · obtain ⟨t, hrun, hsize, hfront⟩ := dnsSectTostr_run hq hroom hin hrec
    simp only [if_neg hrec]
    refine ⟨t, ?_, hsize, hfront⟩
    rw [nextSect, bind_of_ok hrun, bind_when_neg (by omega)]
    rfl

end Quiet

def lastRecords (m : DnsMsg) : List (DnsRr Ptr) :=
  if records m.ar ≠ [] then records m.ar else
    if records m.ns ≠ [] then records m.ns else records m.an

/-- What is left of the sections are the lines of the last one that has records, and zero is
returned. -/
theorem dnsSectsTostr_leaves (m : DnsMsg) (s : TextBuf)
    (hq : ∀ sc, ∀ r ∈ records (m.sect sc), QuietRr r)
    (hroom : ∀ sc, sectRoom m.store (records (m.sect sc)) ≤ s.mem.length) :
    ∃ t, dnsSectsTostr m s.mem.length s = .ok 0 t ∧
      if lastRecords m = [] then t = s else
        t.mem.take ((sectLines m.store (lastRecords m)).length+1) =
          sectLines m.store (lastRecords m) ++ [0] := by
  obtain ⟨s1, h1, hsize1, hfront1⟩ := @nextSect_run m.store m.an _ 0 s (hq .an) (hroom .an)
    (Nat.le_refl _)
  obtain ⟨s2, h2, hsize2, hfront2⟩ := @nextSect_run m.store m.ns _ 0 s1 (hq .ns) (hroom .ns)
    hsize1.ge
  obtain ⟨s3, h3, hsize3, hfront3⟩ := @nextSect_run m.store m.ar _ 0 s2 (hq .ar) (hroom .ar)
    (hsize2.trans hsize1).ge
  refine ⟨s3, ?_, ?_⟩
  · have hrun : (nextSect m.store m.an s.mem.length 0 >>= fun nw => do
        let nw ← nextSect m.store m.ns s.mem.length nw
        nextSect m.store m.ar s.mem.length nw) s = .ok 0 s3 := by
      have h1' : nextSect m.store m.an s.mem.length 0 s = .ok (0+0) s1 := h1
      rw [bind_of_ok h1']
      exact (bind_of_ok h2 _).trans h3
    exact (call_ok _ _ _ _).mpr (.inl hrun)
  · change if records m.an = [] then _ else _ at hfront1
    change if records m.ns = [] then _ else _ at hfront2
    change if records m.ar = [] then _ else _ at hfront3
    rw [lastRecords]
    by_cases har : records m.ar = []
    · rw [if_pos har] at hfront3
      rw [if_neg (not_not.mpr har), hfront3]
      by_cases hns : records m.ns = []
      · rw [if_pos hns] at hfront2
        rw [if_neg (not_not.mpr hns), hfront2]
        exact hfront1
      · rw [if_neg hns] at hfront2
        rw [if_pos hns, if_neg hns]
        exact hfront2
    · rw [if_neg har] at hfront3
      rw [if_pos har, if_neg har]
      exact hfront3

def oneAddress : DnsMsg :=
  { zeroMsg 0 with
    an :=
      { slots := { zeroRr .null with
          rrType := 1
          rrClass := 1
          rdata := { zeroRdata .null with a := #v[10, 0, 0, 1] } } :: List.replicate 31
            (zeroRr .null)
        count := 1
        size := rfl
        fits := by decide } }

/-- The same answer and an authority record, the address `fe80::1`. -/
def twoSections : DnsMsg :=
  { oneAddress with
    ns :=
      { slots := { zeroRr .null with
          rrType := 28
          rrClass := 1
          rdata := { zeroRdata .null with
            aaaa := #v[0xfe, 0x80, 0, 0, 0, 0, 0, 0, 0, 0, 0, 0, 0, 0, 0, 1] } } ::
              List.replicate 31 (zeroRr .null)
        count := 1
        size := rfl
        fits := by decide } }

def textBuf (n : ℕ) : TextBuf := ⟨List.replicate n 0, 0, 0, firstSlots⟩

theorem two_sections_leave : ∃ t, dnsSectsTostr twoSections 100 (textBuf 100) = .ok 0 t ∧
    t.mem.take 25 = ascii "  <null> IN AAAA fe80::1" ++ [0] := by
  have hq : ∀ sc, ∀ r ∈ records (twoSections.sect sc), QuietRr r := by
    intro sc r hr
    cases sc with
    | an =>
      obtain rfl := List.mem_singleton.mp hr
      exact quiet_address (.inl rfl) Ptr.noConfusion
    | ns =>
      obtain rfl := List.mem_singleton.mp hr
      exact quiet_address (.inr rfl) Ptr.noConfusion
    | ar => cases hr
  have hroom : ∀ sc, sectRoom twoSections.store (records (twoSections.sect sc)) ≤ 100 := by
    intro sc
    cases sc with
    | an => decide +kernel
    | ns => decide +kernel
    | ar => decide +kernel
  obtain ⟨t, hrun, hleft⟩ := dnsSectsTostr_leaves twoSections (textBuf 100) hq hroom
  have hlines : sectLines twoSections.store (lastRecords twoSections) =
      ascii "  <null> IN AAAA fe80::1" := by decide +kernel
  have hsome : lastRecords twoSections ≠ [] := by
    intro hnone
    rw [hnone] at hlines
    exact absurd hlines (by decide)
  rw [if_neg hsome, hlines] at hleft
  exact ⟨t, hrun, hleft⟩

/-- The text of the record is left, but the length that is returned is zero. -/
theorem one_address_length_lost :
    (∃ t, dnsSectsTostr oneAddress 64 (textBuf 64) = .ok 0 t ∧
      cstr t.mem = ascii "  <null> IN A 10.0.0.1") ∧ ¬ ListsAll oneAddress (textBuf 64) := by
  obtain ⟨rc, t, hrun, hleft⟩ := Outcome.eq_ok (show
    ((dnsSectsTostr oneAddress 64 (textBuf 64)).result.map fun r => (r.1, cstr r.2.mem)) =
      some (0, ascii "  <null> IN A 10.0.0.1") by decide +kernel)
  obtain ⟨rfl, htext⟩ := Prod.mk.inj hleft
  refine ⟨⟨t, hrun, htext⟩, ?_⟩
  rintro ⟨rc', t', hrun', hlen, -⟩
  have hsame : (Outcome.ok rc' t' : Outcome TextBuf ℤ TextFault ℤ) = .ok 0 t :=
    hrun'.symm.trans hrun
  cases hsame
  rw [htext] at hlen
  exact absurd hlen (by decide)

end DnsPkt.SectionText
