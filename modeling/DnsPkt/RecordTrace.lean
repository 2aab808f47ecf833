import DnsPkt.EncoderTrace

/-!
# The writes of records and messages

A record is a segment of the packet: it begins where the entry before it
ended, and its writes touch nothing before it. Segments follow one another,
so a gap in one of them stays a gap in the message, and a walk that skips
names and lengths goes from one to the next.
-/

set_option autoImplicit false

namespace DnsPkt.RecordTrace
open DnsPkt.CheckedRun DnsPkt.CheckedRun.Run DnsPkt.Octets DnsPkt.Protocol DnsPkt.WireName
open DnsPkt.MessageStore DnsPkt.MessageSlots DnsPkt.MessageBuild DnsPkt.NameDecoder
open DnsPkt.NameEncoder DnsPkt.MessageEncoder DnsPkt.WriteTrace DnsPkt.EncoderTrace

variable {F : Fault → Prop}

theorem emits_encRrHdr {st : NameStore} {rr : DnsRr Ptr} (hF : F .wildRead) (hst : Tame st)
    (s : DnsEnc) : Emits F (encRrHdr st rr) s fun q ws t =>
      ∃ c, NameCode st rr.name c ∧ q = s.pktLen+c.length+8 ∧ t.pktLen = s.pktLen+c.length+10 ∧
        s.pktLen+c.length+10 ≤ s.pktBuf.length ∧ ws = [(s.pktLen, c), (s.pktLen+c.length,
          encU16 rr.rrType ++ encU16 rr.rrClass ++ encU32 rr.ttl ++ encU16 0)] := by
  refine (emits_mkspace (Q := fun w ws t => ws = [] ∧ w = s.pktLen ∧
    t = { s with pktLen := s.pktLen+(dnsNameMaxlen+10) } ∧
    s.pktLen+(dnsNameMaxlen+10) ≤ s.pktBuf.length) fun h => ⟨rfl, rfl, rfl, h⟩).bind
    fun w ws t _ h => ?_
  obtain ⟨rfl, rfl, rfl, hroom⟩ := h
  refine Traced.bind (emits_putName hF hst (by simp only; omega)) fun w' ws t ht h => ?_
  obtain ⟨hlen, c, hc, rfl, rfl⟩ := h
  have ht : t.pktBuf.length = s.pktBuf.length := ht
  have hle := hc.le
  refine (emits_putBuf (Q := fun _ ws u => ws = [(s.pktLen+c.length, encU16 rr.rrType ++
    encU16 rr.rrClass ++ encU32 rr.ttl ++ encU16 0)] ∧ u.pktLen = t.pktLen)
    (by simp only [List.length_append, length_encU16, length_encU32]; omega) ⟨rfl, rfl⟩).bind
    fun _ ws u _ h => ?_
  obtain ⟨rfl, hulen⟩ := h
  refine (emits_retspace (Q := fun _ ws v => ws = [] ∧ v.pktLen = s.pktLen+c.length+10)
    ⟨rfl, ?_⟩).bind fun _ ws v _ h => ?_
  · have hused : s.pktLen+c.length+10-s.pktLen = c.length+10 := by omega
    simp only [hulen, hlen, hused, spare]
    rw [if_pos (by omega)]
    omega
  · obtain ⟨rfl, hvlen⟩ := h
    exact traced_pure ⟨c, hc, rfl, hvlen, by omega, rfl⟩

/-- A stretch of the packet that is written after the one before it, without gaps where `G`
holds. At most three bytes are written beyond its end. -/
structure Segment (G : Prop) (s : DnsEnc) (ws : List Write) (t : DnsEnc) : Prop where
  grow : s.pktLen ≤ t.pktLen
  fits : t.pktLen ≤ s.pktBuf.length
  low : ∀ w ∈ ws, s.pktLen ≤ w.1
  high : ∀ w ∈ ws, w.1+w.2.length ≤ t.pktLen+3
  full : G → ∀ i, s.pktLen ≤ i → i < t.pktLen → Covers ws i
  gap : ¬ G → ∃ j, s.pktLen+3 ≤ j ∧ j < t.pktLen ∧ ¬ Covers ws j

/-- A gap is neither filled by what the stretch before spilled nor by what comes later. -/
theorem Segment.append {G G' : Prop} {s t u : DnsEnc} {ws ws' : List Write}
    (h : Segment G s ws t) (h' : Segment G' t ws' u) (hbuf : t.pktBuf.length = s.pktBuf.length) :
    Segment (G ∧ G') s (ws ++ ws') u := by
  have hgrow := h.grow
  have hgrow' := h'.grow
  refine ⟨hgrow.trans hgrow', hbuf ▸ h'.fits, ?_, ?_, ?_, ?_⟩
  · intro w hw
    rcases List.mem_append.mp hw with hw | hw
    · exact h.low w hw
    · exact hgrow.trans (h'.low w hw)
  · intro w hw
    rcases List.mem_append.mp hw with hw | hw
    · have := h.high w hw
      omega
    · exact h'.high w hw
  · intro hg i hi hlt
    rw [covers_append]
    by_cases hm : i < t.pktLen
    · exact .inl (h.full hg.1 i hi hm)
    · exact .inr (h'.full hg.2 i (Nat.le_of_not_lt hm) hlt)
  · intro hg
    by_cases h1 : G
    · obtain ⟨j, hj, hlt, hnot⟩ := h'.gap fun h2 => hg ⟨h1, h2⟩
      refine ⟨j, by omega, hlt, ?_⟩
      rw [covers_append]
      rintro (⟨w, hw, -, hend⟩ | hc)
      · have := h.high w hw
        omega
      · exact hnot hc
    · obtain ⟨j, hj, hlt, hnot⟩ := h.gap h1
      refine ⟨j, hj, by omega, ?_⟩
      rw [covers_append]
      rintro (hc | ⟨w, hw, hstart, -⟩)
      · exact hnot hc
      · have := h'.low w hw
        omega

theorem Segment.congr {G G' : Prop} {s t : DnsEnc} {ws : List Write} (h : Segment G s ws t)
    (hG : G ↔ G') : Segment G' s ws t :=
  ⟨h.grow, h.fits, h.low, h.high, fun hg => h.full (hG.mpr hg), fun hg => h.gap (mt hG.mp hg)⟩

theorem segment_of_appended {c : Bytes} {s t : DnsEnc} {ws : List Write} (h : Appended c s ws t) :
    Segment True s ws t := by
  obtain ⟨rfl, hlen, hfits⟩ := h
  refine ⟨by omega, by omega, by simp, ?_, fun _ i hi hlt => ?_, fun h => absurd trivial h⟩
  · simp only [List.mem_singleton, forall_eq]
    omega
  · exact covers_cons.mpr (.inl ⟨hi, by simp only; omega⟩)

/-- A record in the packet: its name, eight bytes, the length of its RDATA and the RDATA. -/
structure RecordWritten (st : NameStore) (rr : DnsRr Ptr) (s : DnsEnc) (ws : List Write)
    (t : DnsEnc) : Prop extends Segment (Gapless st rr) s ws t where
  frame : ∃ c, NameCode st rr.name c ∧ s.pktLen+c.length+10 ≤ t.pktLen ∧
    t.pktLen-(s.pktLen+c.length+10) < 2^16 ∧ ∀ b : Bytes, b.length = s.pktBuf.length →
      slice (writes ws b) s.pktLen c.length = c ∧
      slice (writes ws b) (s.pktLen+c.length+8) 2 =
        encU16 (UInt16.ofNat (t.pktLen-(s.pktLen+c.length+10)))

/-- The header, the RDATA and the length that is written last make a record. -/
theorem recordWritten_of_parts {st : NameStore} {rr : DnsRr Ptr} {s t u v : DnsEnc}
    {c fixed : Bytes}
    {ws : List Write} (hc : NameCode st rr.name c) (hfixed : fixed.length = 10)
    (ht : t.pktLen = s.pktLen+c.length+10) (htbuf : t.pktBuf.length = s.pktBuf.length)
    (hrd : RdataWritten st rr t ws u) (hw : Within s.pktBuf.length ws) (hv : v.pktLen = u.pktLen) :
    RecordWritten st rr s ([(s.pktLen, c), (s.pktLen+c.length, fixed)] ++ (ws ++
      [(s.pktLen+c.length+8, encU16 (UInt16.ofNat (u.pktLen-t.pktLen % 2^16)))])) v := by
  have hgrow := hrd.grow
  have hfits := hrd.fits
  have hpos := hc.pos
  have hlow := hrd.low
  have hhigh := hrd.high
  have hafter : ∀ w ∈ ws ++ [(s.pktLen+c.length+8,
      encU16 (UInt16.ofNat (u.pktLen-t.pktLen % 2^16)))], s.pktLen+c.length+2 ≤ w.1 := by
    intro w hw
    rcases List.mem_append.mp hw with hw | hw
    · have := hlow w hw
      omega
    · obtain rfl := List.mem_singleton.mp hw
      simp only
      omega
  have hwithin : Within s.pktBuf.length (ws ++ [(s.pktLen+c.length+8,
      encU16 (UInt16.ofNat (u.pktLen-t.pktLen % 2^16)))]) := by
    refine within_append.mpr ⟨hw, ?_⟩
    intro w hw
    obtain rfl := List.mem_singleton.mp hw
    rw [length_encU16]
    omega
  have hfront : Within s.pktBuf.length [(s.pktLen, c), (s.pktLen+c.length, fixed)] := by
    simp only [Within, List.mem_cons, List.not_mem_nil, or_false, forall_eq_or_imp, forall_eq]
    omega
  refine ⟨⟨by omega, by omega, ?_, ?_, ?_, ?_⟩, ⟨c, hc, by omega, ?_, fun b hb => ⟨?_, ?_⟩⟩⟩
  · intro w hw
    rcases List.mem_append.mp hw with hw | hw
    · simp only [List.mem_cons, List.not_mem_nil, or_false] at hw
      rcases hw with rfl | rfl
      · exact le_rfl
      · exact Nat.le_add_right _ _
    · have := hafter w hw
      omega
  · intro w hw
    simp only [List.cons_append, List.nil_append, List.mem_cons, List.mem_append,
      List.not_mem_nil, or_false] at hw
    rcases hw with rfl | rfl | hw | rfl
    · simp only
      omega
    · simp only
      omega
    · have := hhigh w hw
      omega
    · simp only [length_encU16]
      omega
  · intro hg i hi hlt
    simp only [List.cons_append, List.nil_append, covers_cons, covers_append]
    by_cases h1 : i < s.pktLen+c.length
    · exact .inl ⟨hi, h1⟩
    by_cases h2 : i < s.pktLen+c.length+10
    · exact .inr (.inl ⟨by omega, by omega⟩)
    · exact .inr (.inr (.inl (hrd.full hg i (by omega) (by omega))))
  · intro hg
    obtain ⟨j, hj, hlt, hnot⟩ := hrd.gap hg
    refine ⟨j, by omega, by omega, ?_⟩
    simp only [List.cons_append, List.nil_append, covers_cons, covers_append, not_covers_nil,
      or_false, length_encU16, not_or]
    exact ⟨by omega, by omega, hnot, by omega⟩
  · have := hrd.small
    omega
  · have hlen : (writes [(s.pktLen, c), (s.pktLen+c.length, fixed)] b).length = b.length :=
      length_writes (by rw [hb]; exact hfront)
    have htake := take_writes (b := writes [(s.pktLen, c), (s.pktLen+c.length, fixed)] b)
      (by rw [hlen, hb]; exact hwithin) hafter
    have hpatch : (patch b s.pktLen c).length = b.length := length_patch _ _ _ (by omega)
    rw [writes_append, slice_of_take htake (by omega)]
    change slice (patch (patch b s.pktLen c) (s.pktLen+c.length) fixed) s.pktLen c.length = c
    rw [slice_patch_before _ _ _ _ _ le_rfl (by omega), slice_patch_at _ _ _ (by omega)]
  · rw [← List.append_assoc, writes_append]
    have hlen : (writes ([(s.pktLen, c), (s.pktLen+c.length, fixed)] ++ ws) b).length = b.length :=
      length_writes (by rw [hb]; exact within_append.mpr ⟨hfront, hw⟩)
    have hval : UInt16.ofNat (u.pktLen-t.pktLen % 2^16) =
        UInt16.ofNat (v.pktLen-(s.pktLen+c.length+10)) := by
      rw [ofNat_sub_mod _ _ hgrow, hv, ht]
    have hat := slice_patch_at (writes ([(s.pktLen, c), (s.pktLen+c.length, fixed)] ++ ws) b)
      (s.pktLen+c.length+8) (encU16 (UInt16.ofNat (u.pktLen-t.pktLen % 2^16))) (by omega)
    rw [length_encU16] at hat
    rw [← hval]
    exact hat

/-- An `SRV` record that can reserve its two bytes finds room for the six it writes. -/
def SrvRoom (st : NameStore) (rr : DnsRr Ptr) (s : DnsEnc) : Prop :=
  rrKind rr.rrType = .srv → ∀ q t, encRrHdr st rr s = .ok q t →
    t.pktLen+2 ≤ s.pktBuf.length → t.pktLen+6 ≤ s.pktBuf.length

theorem emits_dnsRrEncode {st : NameStore} {rr : DnsRr Ptr} (hF : F .wildRead) (hst : Tame st)
    (hsize : rr.rdata.txtStr.length = dnsMaxTxt) (s : DnsEnc)
    (hsrv : SrvRoom st rr s ∨ ∀ i, F (.bufWrite i)) :
    Emits F (dnsRrEncode st rr) s fun _ => RecordWritten st rr s := by
  refine (emits_encRrHdr hF hst s).and_run.bind fun q ws t ht h => ?_
  obtain ⟨⟨c, hc, rfl, htlen, hfit, rfl⟩, hrun⟩ := h
  have ht : t.pktBuf.length = s.pktBuf.length := ht
  have hpos := hc.pos
  refine traced_get ?_ fun _ _ => rfl
  have hrd := emits_encRdata hF hst hsize t (by omega) (by omega) fun hk h2 =>
    hsrv.imp_left fun h => by
      rw [ht] at h2 ⊢
      exact h hk _ _ hrun h2
  rw [htlen, show s.pktLen+c.length+10-2 = s.pktLen+c.length+8 by omega] at hrd
  refine (hrd.imp (R := fun _ ws u => RdataWritten st rr t ws u ∧ Within t.pktBuf.length ws)
    fun _ ws u _ hw h => ⟨h, hw⟩).bind fun _ ws u hu h => ?_
  obtain ⟨hu1, hw⟩ := h
  have hu : u.pktBuf.length = t.pktBuf.length := hu
  refine traced_get ?_ fun _ _ => rfl
  have hgrow := hu1.grow
  have hfits := hu1.fits
  refine emits_putBuf (by rw [length_encU16]; omega) ?_
  exact recordWritten_of_parts hc (by rfl) htlen ht hu1 (ht ▸ hw) rfl

def skipEach (skip : ℕ → Option ℕ) : ℕ → ℕ → Option ℕ
  | 0, off => some off
  | n+1, off => (skip off).bind (skipEach skip n)

theorem skipEach_add {skip : ℕ → Option ℕ} {m n a b c : ℕ} (h : skipEach skip m a = some b)
    (h' : skipEach skip n b = some c) : skipEach skip (m+n) a = some c := by
  induction m generalizing a with
  | zero =>
    cases h
    rwa [Nat.zero_add]
  | succ m ih =>
    obtain ⟨d, hd, h⟩ := Option.bind_eq_some_iff.mp h
    rw [Nat.succ_add, skipEach, hd]
    exact ih h

def skipQuestion (b : Bytes) (off : ℕ) : Option ℕ :=
  (nameEnd b off).bind fun e => if e+4 ≤ b.length then some (e+4) else none

/-- A record: its name, ten bytes and as many as the last two of these say. -/
def skipRecord (b : Bytes) (off : ℕ) : Option ℕ :=
  (nameEnd b off).bind fun e =>
    let fin := e+10+(decU16 (slice b (e+8) 2)).toNat
    if fin ≤ b.length then some fin else none

/-- Every packet that begins with what was written satisfies `P`. -/
def Shows (P : Bytes → Prop) (s : DnsEnc) (ws : List Write) (t : DnsEnc) : Prop :=
  ∀ b b' : Bytes, b.length = s.pktBuf.length → t.pktLen ≤ b'.length →
    b'.take t.pktLen = (writes ws b).take t.pktLen → P b'

/-- What later segments write changes nothing before them. -/
theorem Shows.append {P P' : Bytes → Prop} {G : Prop} {s t u : DnsEnc} {ws ws' : List Write}
    (h : Shows P s ws t) (h' : Shows P' t ws' u) (hseg : Segment G t ws' u)
    (hbuf : t.pktBuf.length = s.pktBuf.length) (hw : Within s.pktBuf.length ws)
    (hw' : Within s.pktBuf.length ws') : Shows (fun b => P b ∧ P' b) s (ws ++ ws') u := by
  intro b b' hb hlen htake
  have hgrow := hseg.grow
  have hmid : (writes ws b).length = s.pktBuf.length := by rw [length_writes (hb ▸ hw), hb]
  rw [writes_append] at htake
  have hfront : b'.take t.pktLen = (writes ws b).take t.pktLen := by
    have h1 := congrArg (List.take t.pktLen) htake
    rw [List.take_take, List.take_take, Nat.min_eq_left hgrow] at h1
    rw [h1]
    exact take_writes (by rw [hmid]; exact hw') hseg.low
  exact ⟨h b b' hb (by omega) hfront, h' _ b' (by rw [hmid, hbuf]) hlen htake⟩

theorem Shows.imp {P P' : Bytes → Prop} {s t : DnsEnc} {ws : List Write} (h : Shows P s ws t)
    (hP : ∀ b, P b → P' b) : Shows P' s ws t :=
  fun b b' hb hlen htake => hP b' (h b b' hb hlen htake)

def Advances (skip : Bytes → ℕ → Option ℕ) (n : ℕ) (s : DnsEnc) (ws : List Write)
    (t : DnsEnc) : Prop := Shows (fun b => skipEach (skip b) n s.pktLen = some t.pktLen) s ws t

theorem RecordWritten.advances {st : NameStore} {rr : DnsRr Ptr} {s t : DnsEnc} {ws : List Write}
    (h : RecordWritten st rr s ws t) (hn : Labelled ((st.str rr.name).getD [])) :
    Advances skipRecord 1 s ws t := by
  intro b b' hb hlen htake
  obtain ⟨c, hc, hle, hsmall, hbytes⟩ := h.frame
  obtain ⟨hname, hlength⟩ := hbytes b hb
  rw [← slice_of_take htake (by omega)] at hname hlength
  have hend := (hc.skips hn).nameEnd hname
  have hval : (UInt16.ofNat (t.pktLen-(s.pktLen+c.length+10))).toNat =
      t.pktLen-(s.pktLen+c.length+10) := by
    rw [UInt16.toNat_ofNat']
    exact Nat.mod_eq_of_lt hsmall
  have hfin : s.pktLen+c.length+10+(t.pktLen-(s.pktLen+c.length+10)) = t.pktLen := by omega
  simp only [skipEach, skipRecord, hend, Option.bind_some, hlength, decU16_encU16, hval, hfin,
    if_pos hlen]

theorem emits_dnsEncQuest {st : NameStore} {quest : DnsQd Ptr} (hF : F .wildRead) (hst : Tame st)
    (s : DnsEnc) : Emits F (dnsEncQuest st quest) s fun _ ws t => Segment True s ws t ∧
      (Labelled ((st.str quest.qname).getD []) → Advances skipQuestion 1 s ws t) := by
  refine (emits_mkspace (Q := fun w ws t => ws = [] ∧ w = s.pktLen ∧
    t = { s with pktLen := s.pktLen+(dnsNameMaxlen+4) } ∧
    s.pktLen+(dnsNameMaxlen+4) ≤ s.pktBuf.length) fun h => ⟨rfl, rfl, rfl, h⟩).bind
    fun w ws t _ h => ?_
  obtain ⟨rfl, rfl, rfl, hroom⟩ := h
  refine Traced.bind (emits_putName hF hst (by simp only; omega)) fun w' ws t ht h => ?_
  obtain ⟨hlen, c, hc, rfl, rfl⟩ := h
  have ht : t.pktBuf.length = s.pktBuf.length := ht
  have hle := hc.le
  refine (emits_putBuf (Q := fun _ ws u => ws = [(s.pktLen+c.length, encU16 quest.qtype ++
    encU16 quest.qclass)] ∧ u.pktLen = t.pktLen)
    (by simp only [List.length_append, length_encU16]; omega) ⟨rfl, rfl⟩).bind fun _ ws u _ h => ?_
  obtain ⟨rfl, hulen⟩ := h
  have hspare : u.pktLen-spare (dnsNameMaxlen+4) (s.pktLen+c.length+4-s.pktLen) =
      s.pktLen+c.length+4 := by
    have hused : s.pktLen+c.length+4-s.pktLen = c.length+4 := by omega
    simp only [hulen, hlen, hused, spare]
    rw [if_pos (by omega)]
    omega
  refine (emits_retspace (Q := fun _ ws v => ws = [] ∧ v.pktLen = s.pktLen+c.length+4)
    ⟨rfl, hspare⟩).imp fun _ ws v _ _ h => ?_
  obtain ⟨rfl, hv⟩ := h
  simp only [List.nil_append, List.append_nil, List.cons_append]
  refine ⟨⟨by omega, by omega, ?_, ?_, fun _ i hi hlt => ?_, fun h => absurd trivial h⟩,
    fun hn b b' hb hblen htake => ?_⟩
  · simp only [List.mem_cons, List.not_mem_nil, or_false, forall_eq_or_imp, forall_eq]
    omega
  · simp only [List.mem_cons, List.not_mem_nil, or_false, forall_eq_or_imp, forall_eq,
      List.length_append, length_encU16]
    omega
  · simp only [covers_cons, not_covers_nil, or_false, List.length_append, length_encU16]
    omega
  · rw [hv] at htake hblen ⊢
    have hpatch : (patch b s.pktLen c).length = b.length := length_patch _ _ _ (by omega)
    have hname : slice b' s.pktLen c.length = c := by
      rw [slice_of_take htake (by omega)]
      change slice (patch (patch b s.pktLen c) (s.pktLen+c.length) _) s.pktLen c.length = c
      rw [slice_patch_before _ _ _ _ _ le_rfl (by omega), slice_patch_at _ _ _ (by omega)]
    have hend := (hc.skips hn).nameEnd hname
    simp only [skipEach, skipQuestion, hend, Option.bind_some, if_pos hblen]

def EntriesWritten (st : NameStore) (rrs : List (DnsRr Ptr)) (s : DnsEnc) (ws : List Write)
    (t : DnsEnc) : Prop :=
  Segment (∀ rr ∈ rrs, Gapless st rr) s ws t ∧
    ((∀ rr ∈ rrs, Labelled ((st.str rr.name).getD [])) → Advances skipRecord rrs.length s ws t)

theorem emits_encRecords {st : NameStore} (hF : F .wildRead) (hbuf : ∀ i, F (.bufWrite i))
    (hst : Tame st) (rrs : List (DnsRr Ptr))
    (hsize : ∀ rr ∈ rrs, rr.rdata.txtStr.length = dnsMaxTxt) (s : DnsEnc)
    (hs : s.pktLen ≤ s.pktBuf.length) :
    Emits F (encRecords st rrs) s fun _ => EntriesWritten st rrs s := by
  induction rrs generalizing s with
  | nil =>
    refine traced_pure ⟨⟨le_rfl, hs, by simp, by simp, fun _ i hi hlt => by omega, by simp⟩, ?_⟩
    intro _ b b' _ _ _
    rfl
  | cons rr rest ih =>
    have hrr := emits_dnsRrEncode hF hst (hsize rr (by simp)) s (.inr hbuf)
    refine (hrr.imp (R := fun _ ws t => RecordWritten st rr s ws t ∧ Within s.pktBuf.length ws)
      fun _ ws t _ hw h => ⟨h, hw⟩).bind fun _ ws t ht h => ?_
    obtain ⟨h, hw⟩ := h
    have ht : t.pktBuf.length = s.pktBuf.length := ht
    refine (ih (fun r hr => hsize r (by simp [hr])) t (ht ▸ h.fits)).imp fun _ ws' u _ hw' h' => ?_
    have hw' : Within s.pktBuf.length ws' := ht ▸ hw'
    refine ⟨(h.toSegment.append h'.1 ht).congr (by simp), fun hn => ?_⟩
    rw [List.length_cons, Nat.add_comm]
    exact ((h.advances (hn rr (by simp))).append (h'.2 fun r hr => hn r (by simp [hr])) h'.1 ht hw
      hw').imp fun b hb => skipEach_add hb.1 hb.2

def allRecords (m : DnsMsg) : List (DnsRr Ptr) := records m .an ++ (records m .ns ++ records m .ar)

theorem encRecords_append (st : NameStore) (xs ys : List (DnsRr Ptr)) :
    encRecords st (xs ++ ys) = (encRecords st xs >>= fun _ => encRecords st ys) := by
  induction xs with
  | nil => rfl
  | cons x xs ih => simp only [List.cons_append, encRecords, ih, bind_assoc]

/-- The header, the question and the records of all sections. -/
theorem encodeMsg_eq (m : DnsMsg) : encodeMsg m = (dnsEncMem (hdrBytes (syncHdr m)) >>= fun _ =>
    encodeQd m >>= fun _ => encRecords m.store (allRecords m)) := by
  simp only [encodeMsg, allRecords, encRecords_append]
  rfl

theorem emits_encodeQd {m : DnsMsg} (hF : F .wildRead) (hst : Tame m.store) (s : DnsEnc)
    (hs : s.pktLen ≤ s.pktBuf.length) : Emits F (encodeQd m) s fun _ ws t => Segment True s ws t ∧
      ((m.qdLen = 1 → Labelled ((m.store.str m.qd.qname).getD [])) →
        Advances skipQuestion m.qdLen s ws t) := by
  have hone : m.qdLen ≤ 1 := m.qd_fits
  refine traced_when (fun h => (emits_dnsEncQuest hF hst s).imp fun _ ws t _ _ hq => ?_) fun h => ?_
  · rw [h]
    exact ⟨hq.1, fun hn => hq.2 (hn rfl)⟩
  · have hzero : m.qdLen = 0 := by omega
    rw [hzero]
    refine ⟨⟨le_rfl, hs, by simp, by simp, fun _ i hi hlt => by omega, by simp⟩, ?_⟩
    intro _ b b' _ _ _
    rfl

/-- The names of a message that begin a question or a record are made of labels. -/
def Walkable (m : DnsMsg) : Prop :=
  (m.qdLen = 1 → Labelled ((m.store.str m.qd.qname).getD [])) ∧
    ∀ rr ∈ allRecords m, Labelled ((m.store.str rr.name).getD [])

/-- The packet of a message as the walk sees it. -/
def Framed (m : DnsMsg) (n : ℕ) (b : Bytes) : Prop :=
  slice b 0 dnsHdrLen = hdrBytes (syncHdr m) ∧
    ∃ mid, skipEach (skipQuestion b) m.qdLen dnsHdrLen = some mid ∧
      skipEach (skipRecord b) (allRecords m).length mid = some n

theorem emits_encodeMsg {m : DnsMsg} (hF : F .wildRead) (hbuf : ∀ i, F (.bufWrite i))
    (hst : Tame m.store) (hsize : ∀ rr ∈ allRecords m, rr.rdata.txtStr.length = dnsMaxTxt)
    (s : DnsEnc) (hs : s.pktLen = 0) : Emits F (encodeMsg m) s fun _ ws t =>
      Segment (∀ rr ∈ allRecords m, Gapless m.store rr) s ws t ∧
        (Walkable m → Shows (Framed m t.pktLen) s ws t) := by
  rw [encodeMsg_eq]
  refine ((emits_dnsEncMem (s := s)).imp
    (R := fun _ ws t => Appended (hdrBytes (syncHdr m)) s ws t ∧
    Within s.pktBuf.length ws) fun _ ws t _ hw h => ⟨h, hw⟩).bind fun _ ws1 t ht h1 => ?_
  obtain ⟨h1, hw1⟩ := h1
  have ht : t.pktBuf.length = s.pktBuf.length := ht
  have hseg1 := segment_of_appended h1
  have htlen : t.pktLen = dnsHdrLen := by
    rw [h1.len, hs]
    rfl
  have hshow1 : Shows (fun b => slice b 0 dnsHdrLen = hdrBytes (syncHdr m)) s ws1 t := by
    intro b b' hb _ htake
    have hfits := h1.fits
    rw [slice_of_take htake (by omega), h1.writes, hs]
    exact slice_patch_at b 0 (hdrBytes (syncHdr m)) (Nat.zero_le _)
  refine ((emits_encodeQd hF hst t (ht ▸ hseg1.fits)).imp (R := fun _ ws u => (Segment True t ws u ∧
    ((m.qdLen = 1 → Labelled ((m.store.str m.qd.qname).getD [])) →
      Advances skipQuestion m.qdLen t ws u)) ∧ Within t.pktBuf.length ws)
    fun _ ws u _ hw h => ⟨h, hw⟩).bind fun _ ws2 u hu h2 => ?_
  obtain ⟨⟨hseg2, hadv2⟩, hw2⟩ := h2
  have hu : u.pktBuf.length = t.pktBuf.length := hu
  refine (emits_encRecords hF hbuf hst (allRecords m) hsize u (hu ▸ hseg2.fits)).imp
    fun _ ws3 v _ hw3 h3 => ?_
  obtain ⟨hseg3, hadv3⟩ := h3
  have hw3 : Within t.pktBuf.length ws3 := hu ▸ hw3
  have hseg23 := hseg2.append hseg3 hu
  refine ⟨(hseg1.append hseg23 ht).congr (by simp), fun hn => ?_⟩
  have hshow23 := (hadv2 hn.1).append (hadv3 hn.2) hseg3 hu hw2 hw3
  refine (hshow1.append hshow23 hseg23 ht hw1 (ht ▸ within_append.mpr ⟨hw2, hw3⟩)).imp
    fun b hb => ?_
  rw [htlen] at hb
  exact ⟨hb.1, u.pktLen, hb.2.1, hb.2.2⟩

end DnsPkt.RecordTrace
