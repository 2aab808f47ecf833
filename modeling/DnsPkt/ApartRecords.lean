import DnsPkt.AnswerRecords
import DnsPkt.EncodedMessage
import DnsPkt.RecordTrace

/-!
# Records that the packet tells apart

Two encodings are followed from one state of the encoder. A record whose owner is
the empty name is told from one with another owner by its first four bytes, whatever
that owner is written as, and records with different addresses by these. So
the packets differ where the records of two messages first do.
-/

set_option autoImplicit false

namespace DnsPkt.ApartRecords
open DnsPkt.CheckedRun DnsPkt.CheckedRun.Run DnsPkt.Octets DnsPkt.Protocol DnsPkt.NameCompression
open DnsPkt.MessageStore DnsPkt.MessageBuild DnsPkt.RecordView DnsPkt.NameEncoder
open DnsPkt.MessageEncoder DnsPkt.EncodedMessage
open DnsPkt.EncoderTrace DnsPkt.AlikeMessages DnsPkt.SeenEncoding DnsPkt.AnswerRecords

def Apart (c c' : Bytes) : Prop := ∀ x y, c ++ x ≠ c' ++ y

section Apart

variable {c c' : Bytes}

theorem Apart.symm (h : Apart c c') : Apart c' c := fun x y heq => h y x heq.symm

theorem Apart.append (h : Apart c c') (d d' : Bytes) : Apart (c ++ d) (c' ++ d') := by
  intro x y heq
  rw [List.append_assoc, List.append_assoc] at heq
  exact h _ _ heq

theorem Apart.behind (h : Apart c c') (d : Bytes) : Apart (d ++ c) (d ++ c') := by
  intro x y heq
  rw [List.append_assoc, List.append_assoc] at heq
  exact h x y (List.append_cancel_left heq)

theorem apart_of_length (hlen : c.length = c'.length) (hne : c ≠ c') : Apart c c' :=
  fun _ _ heq => hne (List.append_inj_left heq hlen)

theorem apart_head {a b : UInt8} (hne : a ≠ b) (c c' : Bytes) : Apart (a :: c) (b :: c') :=
  fun _ _ heq => hne (List.cons.inj heq).1

end Apart

/-- What `encode_name` makes of a name, for some table of suffixes. -/
inductive NameBytes : Bytes → Bytes → Prop
  | root : NameBytes [] [0]
  | pointer {name : Bytes} (hne : name ≠ []) (v : UInt16) : NameBytes name (encU16 (0xC000 ||| v))
  | label {name code : Bytes} (hne : name ≠ []) (hshort : (firstLabel name).length ≤ 63)
      (hrest : NameBytes (afterLabel name) code) :
      NameBytes name (UInt8.ofNat (firstLabel name).length :: (firstLabel name ++ code))

/-- A block was written at a position, and nothing else changed in the packet. -/
structure Puts (s : DnsEnc) (w : ℕ) (code : Bytes) (t : DnsEnc) : Prop where
  buf : t.pktBuf = patch s.pktBuf w code
  len : t.pktLen = s.pktLen
  fits : w+code.length ≤ s.pktBuf.length

theorem putBuf_puts {w : ℕ} {b : Bytes} {s t : DnsEnc} {u : Unit} (hne : b ≠ [])
    (h : putBuf w b s = .ok u t) : Puts s w b t := by
  rw [putBuf] at h
  by_cases hroom : b = [] ∨ w+b.length ≤ s.pktBuf.length
  · rw [if_pos hroom] at h
    cases h
    exact ⟨rfl, rfl, hroom.resolve_left hne⟩
  · rw [if_neg hroom] at h
    cases h

theorem Puts.join {s t u : DnsEnc} {w : ℕ} {x y : Bytes} (h : Puts s w x t)
    (h' : Puts t (w+x.length) y u) : Puts s w (x ++ y) u := by
  have hlen : t.pktBuf.length = s.pktBuf.length := by
    rw [h.buf, length_patch _ _ _ h.fits]
  have hfits := h'.fits
  refine ⟨?_, h'.len.trans h.len, ?_⟩
  · rw [h'.buf, h.buf, patch_patch _ _ _ _ h.fits]
  · rw [List.length_append]
    omega

theorem root_bytes {w r : ℕ} {s t : DnsEnc}
    (h : (putBuf w [0] >>= fun _ => pure (some (w+1))) s = .ok (some r) t) :
    ∃ code, NameBytes [] code ∧ r = w+code.length ∧ Puts s w code t := by
  obtain ⟨_, m, hput, h⟩ := (bind_ok _ _ _ _ _).mp h
  cases h
  exact ⟨[0], .root, rfl, putBuf_puts (by simp) hput⟩

theorem encodeLabels_bytes {offset k w r : ℕ} {name : Bytes} {s t : DnsEnc}
    (hk : name.length ≤ k) (hmax : name.length ≤ dnsNameMaxstr)
    (h : encodeLabels offset k w name s = .ok (some r) t) :
    ∃ code, NameBytes name code ∧ r = w+code.length ∧ Puts s w code t := by
  induction k generalizing w name s with
  | zero =>
    obtain rfl : name = [] := List.length_eq_zero_iff.mp (by omega)
    exact root_bytes h
  | succ k ih =>
    rw [encodeLabels] at h
    by_cases hne : name = []
    · rw [if_pos hne] at h
      rw [hne]
      exact root_bytes h
    · rw [if_neg hne, bind_of_ok (get_run s)] at h
      cases hfind : findSuffix s offset name with
      | some e =>
        rw [hfind] at h
        obtain ⟨_, m, hput, h⟩ := (bind_ok _ _ _ _ _).mp h
        cases h
        exact ⟨_, .pointer hne e.offset, by rw [length_encU16], putBuf_puts (by simp [encU16]) hput⟩
      | none =>
        have hle := firstLabel_le name
        have hmax' : name.length ≤ 253 := hmax
        have hlen : (firstLabel name).length % 256 = (firstLabel name).length :=
          Nat.mod_eq_of_lt (by omega)
        have hafter : (afterLabel name).length ≤ name.length-1 := by
          rw [afterLabel, List.length_drop]
          omega
        rw [hfind] at h
        obtain ⟨_, m, hstore, h⟩ := (bind_ok _ _ _ _ _).mp h
        cases hstore
        simp only [hlen, take_firstLabel] at h
        by_cases hlong : dnsLabelMaxstr < (firstLabel name).length
        · rw [if_pos hlong] at h
          cases h
        · rw [if_neg hlong] at h
          obtain ⟨_, m, hput, h⟩ := (bind_ok _ _ _ _ _).mp h
          have hfirst := putBuf_puts (by simp) hput
          obtain ⟨code, hcode, hr, hrest⟩ := ih (by omega) (by omega) h
          refine ⟨_, .label hne (Nat.le_of_not_lt hlong) hcode, ?_, ?_⟩
          · rw [hr, List.length_cons, List.length_append]
            omega
          · have hcons : (UInt8.ofNat (firstLabel name).length :: firstLabel name).length =
                1+(firstLabel name).length := by
              rw [List.length_cons]
              omega
            have hrest' : Puts m (w+(UInt8.ofNat (firstLabel name).length ::
                firstLabel name).length) code t := by
              rwa [hcons, ← Nat.add_assoc]
            have hjoin := hfirst.join hrest'
            exact ⟨hjoin.buf.trans (by rw [storeSuffix_pktBuf]; rfl),
              hjoin.len.trans (storeSuffix_pktLen _ _ _),
              by rw [← storeSuffix_pktBuf name w s]; exact hjoin.fits⟩

theorem afterLabel_plain {name : Bytes} (h : (0 : UInt8) ∉ name) : (0 : UInt8) ∉ afterLabel name :=
  fun hmem => h (List.mem_of_mem_drop hmem)

theorem labelLen_ne {name : Bytes} (hshort : (firstLabel name).length ≤ 63)
    (hne : firstLabel name ≠ []) : UInt8.ofNat (firstLabel name).length ≠ 0 := by
  have hpos := List.length_pos_iff.mpr hne
  intro h
  have hval := congrArg UInt8.toNat h
  rw [UInt8.toNat_ofNat', UInt8.toNat_zero] at hval
  omega

theorem pointer_head (v : UInt16) : ∃ hi lo, encU16 (0xC000 ||| v) = [hi, lo] ∧ 192 ≤ hi := by
  refine ⟨_, _, rfl, ?_⟩
  have hbits : (0xC000 ||| v).toNat / 256 < 256 := by
    have hlt := UInt16.toNat_lt (0xC000 ||| v)
    omega
  have hor : 0xC000 ≤ (0xC000 ||| v).toNat := by
    rw [UInt16.toNat_or]
    exact Nat.left_le_or
  rw [UInt8.le_iff_toNat_le, UInt8.toNat_ofNat', Nat.mod_eq_of_lt hbits]
  change 192 ≤ _
  omega

section Root

variable {name code : Bytes} {τ : UInt8}

/-- No name is written like a small number and a zero byte. -/
theorem type_apart (h : NameBytes name code) (hplain : (0 : UInt8) ∉ name) (hne : τ ≠ 0)
    (hlt : τ < 192) (c c' : Bytes) : Apart (τ :: 0 :: c) (code ++ 0 :: c') := by
  cases h with
  | root => exact apart_head hne _ _
  | pointer hname v =>
    obtain ⟨hi, lo, heq, hhi⟩ := pointer_head v
    rw [heq]
    exact apart_head (UInt8.ne_of_lt (UInt8.lt_of_lt_of_le hlt hhi)) _ _
  | @label _ code hname hshort hrest =>
    cases hfirst : firstLabel name with
    | nil => exact apart_head hne _ _
    | cons ch rest =>
      have hin : ch ∈ firstLabel name := by
        rw [hfirst]
        exact List.mem_cons_self ..
      have hmem : ch ∈ name := (List.takeWhile_sublist _).subset hin
      have hch : ch ≠ 0 := fun h0 => hplain (h0 ▸ hmem)
      intro x y heq
      exact hch (List.cons.inj (List.cons.inj heq).2).1.symm

/-- No name is written like a zero byte, a small number and a zero byte. -/
theorem zero_type_apart (h : NameBytes name code) (hplain : (0 : UInt8) ∉ name) (hne : τ ≠ 0)
    (hlt : τ < 192) (c c' : Bytes) : Apart (0 :: τ :: 0 :: c) (code ++ 0 :: c') := by
  cases h with
  | root => exact (apart_head hne (0 :: c) c').behind [0]
  | pointer hname v =>
    obtain ⟨hi, lo, heq, hhi⟩ := pointer_head v
    rw [heq]
    exact apart_head (UInt8.ne_of_lt (UInt8.lt_of_lt_of_le (by decide) hhi)) _ _
  | @label _ code hname hshort hrest =>
    by_cases hfirst : firstLabel name = []
    · have hrec := (type_apart hrest (afterLabel_plain hplain) hne hlt c c').behind [0]
      rw [hfirst]
      exact hrec
    · exact apart_head (labelLen_ne hshort hfirst).symm _ _

/-- A name that is not empty is told from the empty one in front of a small type. -/
theorem root_apart (h : NameBytes name code) (hname : name ≠ []) (hplain : (0 : UInt8) ∉ name)
    (hne : τ ≠ 0) (hlt : τ < 192) (c c' : Bytes) :
    Apart (0 :: 0 :: τ :: 0 :: c) (code ++ 0 :: c') := by
  cases h with
  | root => exact absurd rfl hname
  | pointer hname v =>
    obtain ⟨hi, lo, heq, hhi⟩ := pointer_head v
    rw [heq]
    exact apart_head (UInt8.ne_of_lt (UInt8.lt_of_lt_of_le (by decide) hhi)) _ _
  | @label _ code hname hshort hrest =>
    by_cases hfirst : firstLabel name = []
    · have hrec := (zero_type_apart hrest (afterLabel_plain hplain) hne hlt c c').behind [0]
      rw [hfirst]
      exact hrec
    · exact apart_head (labelLen_ne hshort hfirst).symm _ _

end Root

theorem NameBytes.length_le {name code : Bytes} (h : NameBytes name code) :
    code.length ≤ codeRoom name := by
  induction h with
  | root => exact le_rfl
  | pointer hne v =>
    rw [length_encU16, codeRoom, if_neg hne]
    omega
  | label hne hshort hrest ih =>
    have hroom := room_after hne
    rw [List.length_cons, List.length_append]
    omega

structure Grows (s t : DnsEnc) (code : Bytes) : Prop where
  len : t.pktLen = s.pktLen+code.length
  pkt : t.pktBuf.take t.pktLen = s.pktBuf.take s.pktLen ++ code
  fits : t.pktLen ≤ t.pktBuf.length

section Grows

variable {s t u : DnsEnc} {c c' : Bytes}

theorem grows_nil (h : s.pktLen ≤ s.pktBuf.length) : Grows s s [] :=
  ⟨rfl, (List.append_nil _).symm, h⟩

theorem Grows.trans (h : Grows s t c) (h' : Grows t u c') : Grows s u (c ++ c') := by
  refine ⟨?_, ?_, h'.fits⟩
  · rw [h'.len, h.len, List.length_append, Nat.add_assoc]
  · rw [h'.pkt, h.pkt, List.append_assoc]

theorem grows_of_patch (hbuf : t.pktBuf = patch s.pktBuf s.pktLen c)
    (hfits : s.pktLen+c.length ≤ s.pktBuf.length) (hlen : t.pktLen = s.pktLen+c.length) :
    Grows s t c := by
  refine ⟨hlen, ?_, ?_⟩
  · rw [hbuf, hlen, take_patch _ _ _ hfits]
  · rw [hbuf, hlen, length_patch _ _ _ hfits]
    exact hfits

end Grows

section Run

variable {s t u v : DnsEnc} {st st' : NameStore} {p : Ptr} {w w1 q : ℕ} {b code : Bytes}
  {r : DnsRr Ptr} {rr : DnsRr Str} {a : Unit}

structure ShortName (st : NameStore) (p : Ptr) (b : Bytes) : Prop where
  sees : seen st p = .text b
  le : b.length ≤ dnsNameMaxstr

theorem putName_bytes (hname : ShortName st p b) (h : putName w st p s = .ok w1 t) :
    ∃ code, NameBytes b code ∧ w1 = w+code.length ∧ Puts s w code t := by
  obtain ⟨hsees, hle⟩ := hname
  have hstr : strOf st p s = .ok (some b) s := by
    cases p with
    | null => cases hsees
    | ref off =>
      rw [strOf, Seen.text.inj hsees]
      rfl
    | wild => cases hsees
  rw [putName, bind_of_ok hstr] at h
  obtain ⟨o, m, hm, h⟩ := (bind_ok _ _ _ _ _).mp h
  cases o with
  | none => cases h
  | some w2 =>
    cases h
    exact encodeLabels_bytes le_rfl hle hm

/-- The state in which a name is written with `n` fixed bytes behind it. -/
def reserved (n : ℕ) (s : DnsEnc) : DnsEnc := { s with pktLen := s.pktLen+(dnsNameMaxlen+n) }

theorem dnsEncName_bytes (hname : ShortName st p b) (h : dnsEncName st p s = .ok a t) :
    ∃ code, Grows s t code := by
  rw [dnsEncName] at h
  obtain ⟨w, m, hm, h⟩ := (bind_ok _ _ _ _ _).mp h
  obtain ⟨rfl, hroom, rfl⟩ := mkspace_ok hm
  obtain ⟨w1, m1, hm1, h⟩ := (bind_ok _ _ _ _ _).mp h
  obtain ⟨code, hcode, rfl, hbuf, hlen, hfits⟩ := putName_bytes hname hm1
  obtain rfl := retspace_ok h
  have hle := hcode.length_le.trans (codeRoom_le hname.le)
  refine ⟨code, grows_of_patch hbuf hfits ?_⟩
  simp only [hlen, spare, Nat.add_sub_cancel_left, if_pos hle]
  omega

theorem dnsEncMem_bytes (h : dnsEncMem b s = .ok a t) : Grows s t b := by
  rw [dnsEncMem] at h
  obtain ⟨w, m, hm, h⟩ := (bind_ok _ _ _ _ _).mp h
  obtain ⟨rfl, hroom, rfl⟩ := mkspace_ok hm
  obtain rfl := putBuf_ok h
  exact grows_of_patch rfl hroom rfl

def fixedBytes (r : DnsRr Ptr) (rdlen : UInt16) : Bytes :=
  encU16 r.rrType ++ (encU16 r.rrClass ++ (encU32 r.ttl ++ encU16 rdlen))

theorem encRrHdr_bytes (hname : ShortName st r.name b) (h : encRrHdr st r s = .ok q t) :
    ∃ w1 m, putName s.pktLen st r.name (reserved 10 s) = .ok w1 m ∧
      ∀ code, NameBytes b code → w1 = s.pktLen+code.length →
        Puts (reserved 10 s) s.pktLen code m →
        q = s.pktLen+code.length+8 ∧ Grows s t (code ++ fixedBytes r 0) := by
  rw [encRrHdr] at h
  obtain ⟨w, m0, hm0, h⟩ := (bind_ok _ _ _ _ _).mp h
  obtain ⟨rfl, hroom, rfl⟩ := mkspace_ok hm0
  obtain ⟨w1, m, hm, h⟩ := (bind_ok _ _ _ _ _).mp h
  refine ⟨w1, m, hm, fun code hcode hw hputs => ?_⟩
  subst hw
  obtain ⟨_, m2, hm2, h⟩ := (bind_ok _ _ _ _ _).mp h
  obtain ⟨_, m3, hm3, h⟩ := (bind_ok _ _ _ _ _).mp h
  cases h
  have hfixed : fixedBytes r 0 ≠ [] := by simp [fixedBytes, encU16]
  have hput : putBuf (s.pktLen+code.length) (fixedBytes r 0) m = .ok () m2 := by
    rw [fixedBytes, ← List.append_assoc, ← List.append_assoc]
    exact hm2
  have hall := hputs.join (putBuf_puts hfixed hput)
  obtain rfl := retspace_ok hm3
  have hle : code.length ≤ dnsNameMaxlen := hcode.length_le.trans (codeRoom_le hname.le)
  have hused : s.pktLen+code.length+10-s.pktLen = code.length+10 := by omega
  have hspare : spare (dnsNameMaxlen+10) (code.length+10) = dnsNameMaxlen+10-(code.length+10) :=
    if_pos (Nat.add_le_add_right hle 10)
  have hlen := hall.len
  have h10 : (fixedBytes r 0).length = 10 := rfl
  refine ⟨rfl, grows_of_patch hall.buf hall.fits ?_⟩
  rw [hused, hspare, hlen, List.length_append, h10]
  simp only [reserved]
  omega

/-- The slot shows a record with an address or a name, whose strings are short. -/
structure ShownAs (st : NameStore) (r : DnsRr Ptr) (rr : DnsRr Str) : Prop where
  sees : seeRr st r = seeAnswer rr
  answer : IsAnswer rr
  short : ∀ s ∈ answerStrs rr, s.bytes.length ≤ dnsNameMaxstr

theorem ShownAs.name (h : ShownAs st r rr) : ShortName st r.name rr.name.bytes :=
  ⟨(RrSeen.mk.inj h.sees).1, h.short _ (List.mem_cons_self ..)⟩

theorem ShownAs.rrType (h : ShownAs st r rr) : r.rrType = rr.rrType := (RrSeen.mk.inj h.sees).2.1

theorem ShownAs.cname (h : ShownAs st r rr) (hk : rrKind r.rrType = .cname) :
    ShortName st r.rdata.cname rr.rdata.cname.bytes := by
  obtain ⟨-, htype, -, -, -, hstrs⟩ := RrSeen.mk.inj h.sees
  have hshort := h.short rr.rdata.cname
  rw [htype] at hk
  rw [htype] at hstrs
  simp only [rdPtrs, rdNames, rdStrs, rdataStrs, hk, if_true, List.append_nil, List.map_cons,
    List.map_nil, List.cons.injEq, and_true] at hstrs
  refine ⟨hstrs, hshort ?_⟩
  simp [answerStrs, rdataStrs, hk]

def IsRdata (r : DnsRr Ptr) (rd : Bytes) : Prop :=
  (rrKind r.rrType = .a → rd = r.rdata.a.toList) ∧
    (rrKind r.rrType = .aaaa → rd = r.rdata.aaaa.toList)

theorem encRdata_bytes (hr : ShownAs st r rr) (h : encRdata st r q s = .ok a t) :
    ∃ rd, Grows s t rd ∧ IsRdata r rd := by
  have hanswer := hr.answer
  rw [IsAnswer, ← hr.rrType] at hanswer
  rw [encRdata] at h
  rcases hanswer with hk | hk | hk
  · rw [hk] at h
    exact ⟨_, dnsEncMem_bytes h, by simp [IsRdata, hk]⟩
  · rw [hk] at h
    exact ⟨_, dnsEncMem_bytes h, by simp [IsRdata, hk]⟩
  · rw [hk] at h
    obtain ⟨rd, hrd⟩ := dnsEncName_bytes (hr.cname hk) h
    exact ⟨rd, hrd, by simp [IsRdata, hk]⟩

/-- The length that is written last lies in the fixed fields. -/
theorem grows_rdlen {n : UInt16} {rd : Bytes} (h : Grows s u (code ++ (fixedBytes r 0 ++ rd)))
    (hput : putBuf (s.pktLen+code.length+8) (encU16 n) u = .ok a v)
    (hs : s.pktLen ≤ s.pktBuf.length) : Grows s v (code ++ (fixedBytes r n ++ rd)) := by
  obtain rfl := putBuf_ok hput
  have hlen := h.len
  have hfits := h.fits
  have h10 : (fixedBytes r 0).length = 10 := rfl
  rw [List.length_append, List.length_append, h10] at hlen
  have hin : s.pktLen+code.length+8+(encU16 n).length ≤ u.pktLen := by
    rw [length_encU16]
    omega
  refine ⟨?_, ?_, ?_⟩
  · simp only [hlen, List.length_append]
    rfl
  · have hfront : s.pktLen+code.length+8 = (s.pktBuf.take s.pktLen ++
        (code ++ (encU16 r.rrType ++ (encU16 r.rrClass ++ encU32 r.ttl)))).length := by
      simp only [List.length_append, List.length_take, length_encU16, length_encU32]
      omega
    have hmid := patch_middle (s.pktBuf.take s.pktLen ++
      (code ++ (encU16 r.rrType ++ (encU16 r.rrClass ++ encU32 r.ttl)))) (encU16 0) rd
        (encU16 n) rfl
    simp only
    rw [take_patch_inside _ _ _ _ hin hfits, h.pkt, hfront]
    simp only [fixedBytes, List.append_assoc] at hmid ⊢
    exact hmid
  · simp only
    rw [length_patch _ _ _ (hin.trans hfits)]
    exact hfits

theorem dnsRrEncode_bytes (hr : ShownAs st r rr) (hs : s.pktLen ≤ s.pktBuf.length)
    (h : dnsRrEncode st r s = .ok a v) :
    ∃ w1 m, putName s.pktLen st r.name (reserved 10 s) = .ok w1 m ∧
      ∀ code, NameBytes rr.name.bytes code → w1 = s.pktLen+code.length →
        Puts (reserved 10 s) s.pktLen code m →
        ∃ n rd, Grows s v (code ++ (fixedBytes r n ++ rd)) ∧ IsRdata r rd := by
  rw [dnsRrEncode] at h
  obtain ⟨q, t, ht, h⟩ := (bind_ok _ _ _ _ _).mp h
  obtain ⟨w1, m, hm, hparts⟩ := encRrHdr_bytes hr.name ht
  refine ⟨w1, m, hm, fun code hcode hw hputs => ?_⟩
  obtain ⟨rfl, hhdr⟩ := hparts code hcode hw hputs
  rw [bind_of_ok (get_run t)] at h
  obtain ⟨_, u, hu, h⟩ := (bind_ok _ _ _ _ _).mp h
  obtain ⟨rd, hrd, his⟩ := encRdata_bytes hr hu
  rw [bind_of_ok (get_run u)] at h
  have hall := hhdr.trans hrd
  rw [List.append_assoc] at hall
  exact ⟨_, rd, grows_rdlen hall h hs, his⟩

theorem dnsRrEncode_grows (hr : ShownAs st r rr) (hs : s.pktLen ≤ s.pktBuf.length)
    (h : dnsRrEncode st r s = .ok a v) : ∃ c, Grows s v c := by
  obtain ⟨w, m, hm, hparts⟩ := dnsRrEncode_bytes hr hs h
  obtain ⟨code, hcode, hw, hputs⟩ := putName_bytes hr.name hm
  obtain ⟨n, rd, hgrows, -⟩ := hparts code hcode hw hputs
  exact ⟨_, hgrows⟩

end Run

/-- The numbers of type and class are those of a record that the generator makes. -/
structure SmallHead (rr : DnsRr Str) : Prop where
  type_pos : 0 < rr.rrType.toNat
  type_lt : rr.rrType.toNat < 192
  class_lt : rr.rrClass.toNat < 256

/-- Records that differ at most in their addresses and in whether the owner is empty. -/
structure Comparable (x y : DnsRr Str) : Prop where
  small_l : SmallHead x
  small_r : SmallHead y
  rrClass : x.rrClass = y.rrClass
  ttl : x.ttl = y.ttl
  owner : x.name.bytes = y.name.bytes ∨ x.name.bytes = [] ∨ y.name.bytes = []
  target : rrKind x.rrType = .cname → rrKind y.rrType = .cname →
    x.rdata.cname.bytes = y.rdata.cname.bytes

theorem Comparable.symm {x y : DnsRr Str} (h : Comparable x y) : Comparable y x :=
  ⟨h.small_r, h.small_l, h.rrClass.symm, h.ttl.symm,
    h.owner.imp Eq.symm Or.symm, fun hk hk' => (h.target hk' hk).symm⟩

theorem encU16_small {v : UInt16} (h : v.toNat < 256) : encU16 v = [0, UInt8.ofNat v.toNat] := by
  rw [encU16, Nat.div_eq_of_lt h]
  rfl

theorem encU16_inj {v v' : UInt16} (h : encU16 v = encU16 v') : v = v' := by
  rw [← decU16_encU16 v, h, decU16_encU16]

section Pair

variable {st st' : NameStore} {r r' : DnsRr Ptr} {x y : DnsRr Str} {s v v' : DnsEnc} {a a' : Unit}

theorem ShownAs.fixed (h : ShownAs st r x) (hx : SmallHead x) (n : UInt16) :
    ∃ c, fixedBytes r n = 0 :: UInt8.ofNat x.rrType.toNat :: 0 :: c := by
  obtain ⟨-, htype, hclass, -⟩ := RrSeen.mk.inj h.sees
  have htype : r.rrType = x.rrType := htype
  have hclass : r.rrClass = x.rrClass := hclass
  have hlt : x.rrType.toNat < 256 := hx.type_lt.trans (by decide)
  rw [fixedBytes, htype, hclass, encU16_small hlt, encU16_small hx.class_lt]
  exact ⟨_, rfl⟩

/-- The empty owner is told from any other one. -/
theorem owner_apart {code code' rest rest' : Bytes} {n n' : UInt16} (hr : ShownAs st r x)
    (hr' : ShownAs st' r' y) (hx : SmallHead x) (hy : SmallHead y) (hnil : x.name.bytes = [])
    (hne : y.name.bytes ≠ []) (hcode : NameBytes x.name.bytes code)
    (hcode' : NameBytes y.name.bytes code') :
    Apart (code ++ (fixedBytes r n ++ rest)) (code' ++ (fixedBytes r' n' ++ rest')) := by
  obtain ⟨c, hc⟩ := hr.fixed hx n
  obtain ⟨c', hc'⟩ := hr'.fixed hy n'
  have hroot : code = [0] := by
    rw [hnil] at hcode
    cases hcode with
    | root => rfl
    | pointer h => exact absurd rfl h
    | label h => exact absurd rfl h
  have hpos := hx.type_pos
  have hlt := hx.type_lt
  have hval : (UInt8.ofNat x.rrType.toNat).toNat = x.rrType.toNat := by
    rw [UInt8.toNat_ofNat', Nat.mod_eq_of_lt (by omega)]
  rw [hroot, hc, hc']
  apply root_apart hcode' hne (zero_notMem_bytes _)
  · intro h0
    have := congrArg UInt8.toNat h0
    rw [hval, UInt8.toNat_zero] at this
    omega
  · rw [UInt8.lt_iff_toNat_lt, hval]
    exact hlt

theorem rdata_apart {n n' : UInt16} {rd rd' : Bytes} (hlen : rd.length = rd'.length)
    (hne : rd ≠ rd') : Apart (fixedBytes r n ++ rd) (fixedBytes r' n' ++ rd') := by
  have hfixed : (fixedBytes r n).length = (fixedBytes r' n').length := rfl
  apply apart_of_length
  · rw [List.length_append, List.length_append, hfixed, hlen]
  · intro heq
    exact hne (List.append_inj_right heq hfixed)

/-- What is seen of records that differ in nothing but their addresses. -/
theorem seeAnswer_congr (hc : Comparable x y) (hname : x.name.bytes = y.name.bytes)
    (htype : x.rrType = y.rrType) (hnums : answerNums x = answerNums y) :
    seeAnswer x = seeAnswer y := by
  have hstrs : (rdataStrs x).map (fun s => Seen.text s.bytes) =
      (rdataStrs y).map fun s => Seen.text s.bytes := by
    rw [rdataStrs, rdataStrs, ← htype]
    by_cases hk : rrKind x.rrType = .cname
    · rw [if_pos hk, if_pos hk, List.map_singleton, List.map_singleton,
        hc.target hk (htype ▸ hk)]
    · rw [if_neg hk, if_neg hk]
  rw [seeAnswer, seeAnswer, hname, htype, hc.rrClass, hc.ttl, hnums, hstrs]

/-- Behind one owner the types or the addresses are told apart. -/
theorem rest_apart {n n' : UInt16} {rd rd' : Bytes} (hr : ShownAs st r x) (hr' : ShownAs st' r' y)
    (hc : Comparable x y) (hname : x.name.bytes = y.name.bytes) (hne : seeAnswer x ≠ seeAnswer y)
    (hrd : IsRdata r rd) (hrd' : IsRdata r' rd') :
    Apart (fixedBytes r n ++ rd) (fixedBytes r' n' ++ rd') := by
  have htype := hr.rrType
  have htype' := hr'.rrType
  by_cases hsame : x.rrType = y.rrType
  · have hneq : answerNums x ≠ answerNums y := fun h => hne (seeAnswer_congr hc hname hsame h)
    obtain ⟨-, -, -, -, hnums, -⟩ := RrSeen.mk.inj hr.sees
    obtain ⟨-, -, -, -, hnums', -⟩ := RrSeen.mk.inj hr'.sees
    have hnums : rdNums r.rrType r.rdata = answerNums x := hnums
    have hnums' : rdNums r'.rrType r'.rdata = answerNums y := hnums'
    rw [htype'.trans hsame.symm] at hnums'
    rw [IsRdata, htype'.trans hsame.symm] at hrd'
    rw [htype] at hnums
    rw [IsRdata, htype] at hrd
    rw [← hnums, ← hnums'] at hneq
    rcases hr.answer with hk | hk | hk
    · rw [hrd.1 hk, hrd'.1 hk]
      apply rdata_apart (by simp)
      intro heq
      simp only [rdNums, hk] at hneq
      exact hneq (congrArg RdNums.a (Vector.toList_inj.mp heq))
    · rw [hrd.2 hk, hrd'.2 hk]
      apply rdata_apart (by simp)
      intro heq
      simp only [rdNums, hk] at hneq
      exact hneq (congrArg RdNums.aaaa (Vector.toList_inj.mp heq))
    · simp only [rdNums, hk] at hneq
      exact absurd rfl hneq
  · have hhead : Apart (encU16 r.rrType) (encU16 r'.rrType) :=
      apart_of_length rfl fun h => hsame (by rw [← htype, ← htype', encU16_inj h])
    rw [fixedBytes, fixedBytes, List.append_assoc, List.append_assoc]
    exact hhead.append _ _

/-- Two records that do not look alike are told apart where their encodings begin. -/
theorem record_apart (hr : ShownAs st r x) (hr' : ShownAs st' r' y) (hc : Comparable x y)
    (hne : seeAnswer x ≠ seeAnswer y) (hs : s.pktLen ≤ s.pktBuf.length)
    (h : dnsRrEncode st r s = .ok a v) (h' : dnsRrEncode st' r' s = .ok a' v') :
    ∃ c c', Grows s v c ∧ Grows s v' c' ∧ Apart c c' := by
  obtain ⟨w, m, hm, hparts⟩ := dnsRrEncode_bytes hr hs h
  obtain ⟨w', m', hm', hparts'⟩ := dnsRrEncode_bytes hr' hs h'
  obtain ⟨code, hcode, hw, hputs⟩ := putName_bytes hr.name hm
  obtain ⟨code', hcode', hw', hputs'⟩ := putName_bytes hr'.name hm'
  obtain ⟨n, rd, hgrows, hrd⟩ := hparts code hcode hw hputs
  obtain ⟨n', rd', hgrows', hrd'⟩ := hparts' code' hcode' hw' hputs'
  by_cases hname : x.name.bytes = y.name.bytes
  · have hseen : seen st r.name = seen st' r'.name := by
      rw [hr.name.sees, hr'.name.sees, hname]
    rw [putName_seen hseen, hm'] at hm
    cases hm
    obtain ⟨n', rd', hgrows', hrd'⟩ := hparts' code (hname ▸ hcode) hw hputs
    exact ⟨_, _, hgrows, hgrows', (rest_apart hr hr' hc hname hne hrd hrd').behind code⟩
  · refine ⟨_, _, hgrows, hgrows', ?_⟩
    rcases hc.owner.resolve_left hname with hnil | hnil
    · have hother : y.name.bytes ≠ [] := fun h => hname (hnil.trans h.symm)
      exact owner_apart hr hr' hc.small_l hc.small_r hnil hother hcode hcode'
    · have hother : x.name.bytes ≠ [] := fun h => hname (h.trans hnil.symm)
      exact (owner_apart hr' hr hc.small_r hc.small_l hnil hother hcode' hcode).symm

end Pair

section Lists

variable {st st' : NameStore} {rs rs' : List (DnsRr Ptr)} {xs ys : List (DnsRr Str)}
  {s t t' : DnsEnc} {a a' : Unit}

theorem encRecords_grows (hr : List.Forall₂ (ShownAs st) rs xs) (hs : s.pktLen ≤ s.pktBuf.length)
    (h : encRecords st rs s = .ok a t) : ∃ c, Grows s t c := by
  induction hr generalizing s with
  | nil =>
    cases h
    exact ⟨[], grows_nil hs⟩
  | @cons r x rs xs hrx hrest ih =>
    rw [encRecords] at h
    obtain ⟨_, v, hv, h⟩ := (bind_ok _ _ _ _ _).mp h
    obtain ⟨d, hgrows⟩ := dnsRrEncode_grows hrx hs hv
    obtain ⟨c, hc⟩ := ih hgrows.fits h
    exact ⟨_, hgrows.trans hc⟩

/-- Lists of records that do not look alike are told apart. -/
theorem encRecords_apart (hr : List.Forall₂ (ShownAs st) rs xs)
    (hr' : List.Forall₂ (ShownAs st') rs' ys) (hc : List.Forall₂ Comparable xs ys)
    (hne : xs.map seeAnswer ≠ ys.map seeAnswer) (hs : s.pktLen ≤ s.pktBuf.length)
    (h : encRecords st rs s = .ok a t) (h' : encRecords st' rs' s = .ok a' t') :
    ∃ c c', Grows s t c ∧ Grows s t' c' ∧ Apart c c' := by
  induction hc generalizing rs rs' s with
  | nil => exact absurd rfl hne
  | @cons x y xs ys hxy hrest ih =>
    cases hr with
    | @cons r _ rs _ hrx hrs =>
      cases hr' with
      | @cons r' _ rs' _ hry hrs' =>
        rw [encRecords] at h h'
        obtain ⟨_, v, hv, h⟩ := (bind_ok _ _ _ _ _).mp h
        obtain ⟨_, v', hv', h'⟩ := (bind_ok _ _ _ _ _).mp h'
        by_cases hsee : seeAnswer x = seeAnswer y
        · have hrun : dnsRrEncode st r = dnsRrEncode st' r' :=
            dnsRrEncode_seen (hrx.sees.trans (hsee.trans hry.sees.symm))
          rw [hrun, hv'] at hv
          cases hv
          obtain ⟨d, hgrows⟩ := dnsRrEncode_grows hry hs hv'
          have htail : xs.map seeAnswer ≠ ys.map seeAnswer := by
            intro heq
            rw [List.map_cons, List.map_cons, hsee, heq] at hne
            exact hne rfl
          obtain ⟨c, c', hc, hc', hapart⟩ := ih hrs hrs' htail hgrows.fits h h'
          exact ⟨_, _, hgrows.trans hc, hgrows.trans hc', hapart.behind _⟩
        · obtain ⟨c, c', hc, hc', hapart⟩ := record_apart hrx hry hxy hsee hs hv hv'
          obtain ⟨d, hd⟩ := encRecords_grows hrs hc.fits h
          obtain ⟨d', hd'⟩ := encRecords_grows hrs' hc'.fits h'
          exact ⟨_, _, hc.trans hd, hc'.trans hd', hapart.append d d'⟩

theorem Grows.ne {c c' : Bytes} (h : Grows s t c) (h' : Grows s t' c') (hapart : Apart c c') :
    t.pktBuf.take t.pktLen ≠ t'.pktBuf.take t'.pktLen := by
  intro heq
  rw [h.pkt, h'.pkt] at heq
  have hcancel := List.append_cancel_left heq
  exact hapart [] [] (by rw [hcancel])

end Lists

end DnsPkt.ApartRecords
