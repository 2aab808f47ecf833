import DnsPkt.MessageBuild
import DnsPkt.MessageEncoder
import DnsPkt.WriteTrace

/-!
# The writes of the encoder

The encoder never reads its buffer, so each of its functions makes one list
of writes for all contents of the buffer. A name, a block of bytes and a
string are one write at the end of the packet. `HINFO`, `MX`, `SRV` and `OPT`
write elsewhere.
-/

set_option autoImplicit false

namespace DnsPkt.EncoderTrace
open DnsPkt.CheckedRun DnsPkt.CheckedRun.Run DnsPkt.Octets DnsPkt.Protocol DnsPkt.WireName
open DnsPkt.MessageStore DnsPkt.MessageSlots DnsPkt.MessageBuild DnsPkt.NameCompression
open DnsPkt.NameEncoder DnsPkt.MessageEncoder DnsPkt.NameDecoder DnsPkt.WriteTrace

def encBuffer : Buffered DnsEnc where
  buf s := s.pktBuf
  withBuf s b := { s with pktBuf := b }
  buf_withBuf _ _ := rfl
  withBuf_withBuf _ _ _ := rfl
  withBuf_buf _ := rfl

abbrev Emits {α : Type} (F : Fault → Prop) (x : Enc α) (s : DnsEnc)
    (Q : α → List Write → DnsEnc → Prop) : Prop :=
  Traced encBuffer (fun e : ℤ => e = -1) F x s Q

/-- Wherever these bytes stand, a name that begins with them ends with them. -/
def Skips (c : Bytes) : Prop :=
  ∀ b off, slice b off c.length = c → skipName b c.length off = some (off+c.length)

theorem slice_cons {b : Bytes} {off : ℕ} {x : UInt8} {xs : Bytes}
    (h : slice b off (x :: xs).length = x :: xs) :
    b[off]? = some x ∧ slice b (off+1) xs.length = xs := by
  have hlt : off < b.length := by
    by_contra hge
    simp [slice, List.drop_eq_nil_of_le (Nat.le_of_not_lt hge)] at h
  rw [slice, List.drop_eq_getElem_cons hlt, List.length_cons, List.take_succ_cons] at h
  obtain ⟨h1, h2⟩ := List.cons.inj h
  exact ⟨by rw [List.getElem?_eq_getElem hlt, h1], h2⟩

theorem slice_append_eq {b : Bytes} {off : ℕ} {x y : Bytes}
    (h : slice b off (x ++ y).length = x ++ y) :
    slice b off x.length = x ∧ slice b (off+x.length) y.length = y := by
  have h1 := slice_slice b off (n := (x ++ y).length) (j := 0) (k := x.length) (by simp)
  have h2 := slice_slice b off (n := (x ++ y).length) (j := x.length) (k := y.length) (by simp)
  rw [h] at h1 h2
  rw [Nat.add_zero] at h1
  constructor
  · rw [← h1]
    simp [slice]
  · rw [← h2]
    simp [slice]

theorem skips_zero : Skips [0] := by
  intro b off h
  simp [skipName, (slice_cons h).1]

theorem skips_pointer (v : UInt16) : Skips (encU16 (0xC000 ||| v)) := by
  intro b off h
  have hv := Nat.left_le_or (m := v.toNat) (n := 49152)
  have hlt := (0xC000 ||| v).toNat_lt
  have hor : (0xC000 ||| v).toNat = 49152 ||| v.toNat := by
    rw [UInt16.toNat_or]
    rfl
  obtain ⟨h1, h2⟩ := slice_cons h
  obtain ⟨h3, -⟩ := slice_cons h2
  have hlen := get_lt h3
  have hhi : 192 ≤ (UInt8.ofNat ((0xC000 ||| v).toNat / 256)).toNat := by
    rw [UInt8.toNat_ofNat']
    omega
  have h0 : UInt8.ofNat ((0xC000 ||| v).toNat / 256) ≠ 0 := by
    intro h0
    rw [h0] at hhi
    simp at hhi
  simp only [length_encU16, skipName, h1, if_neg h0, if_pos hhi,
    if_pos (show off+2 ≤ b.length by omega)]

theorem skips_label {l c : Bytes} (hpos : 0 < l.length) (hle : l.length ≤ 63) (hc : Skips c) :
    Skips (UInt8.ofNat l.length :: l ++ c) := by
  intro b off h
  obtain ⟨h1, h2⟩ := slice_cons h
  obtain ⟨-, h3⟩ := slice_append_eq h2
  have hlen : (UInt8.ofNat l.length).toNat = l.length := by
    rw [UInt8.toNat_ofNat']
    omega
  have h0 : UInt8.ofNat l.length ≠ 0 := by
    intro h0
    rw [h0] at hlen
    simp at hlen
    omega
  have hrest := skipName_mono b _ (l.length+c.length) _ _ (by omega) (hc b (off+1+l.length) h3)
  rw [List.cons_append, List.length_cons, skipName, h1]
  simp only [if_neg h0, hlen, if_neg (show ¬ 192 ≤ l.length by omega), hrest, Option.some.injEq,
    List.length_append]
  omega

theorem Skips.nameEnd {c : Bytes} (h : Skips c) {b : Bytes} {off : ℕ}
    (hb : slice b off c.length = c) : nameEnd b off = some (off+c.length) := by
  have hlen : c.length ≤ b.length := by
    have := congrArg List.length hb
    rw [slice, List.length_take, List.length_drop] at this
    omega
  exact skipName_mono b _ _ _ _ (by omega) (h b off hb)

variable {F : Fault → Prop}

theorem emits_putBuf {w : ℕ} {b : Bytes} {s : DnsEnc} {Q : Unit → List Write → DnsEnc → Prop}
    (h : w+b.length ≤ s.pktBuf.length)
    (hq : Q () [(w, b)] { s with pktBuf := patch s.pktBuf w b }) : Emits F (putBuf w b) s Q := by
  have hwithin : Within s.pktBuf.length [(w, b)] := by simpa [Within] using h
  refine .ok () [(w, b)] { s with pktBuf := patch s.pktBuf w b } hwithin rfl hq fun c hc => ?_
  exact putBuf_run (s := { s with pktBuf := c }) (by simp only [hc]; exact h)

theorem writes_join {w : ℕ} {x y b : Bytes} (h : w+x.length ≤ b.length) :
    writes [(w, x ++ y)] b = writes [(w, x), (w+x.length, y)] b := (patch_patch b w x y h).symm

def codeRoom (name : Bytes) : ℕ := if name = [] then 1 else name.length+2

theorem codeRoom_le {name : Bytes} (h : name.length ≤ dnsNameMaxstr) :
    codeRoom name ≤ dnsNameMaxlen := by
  have h : name.length ≤ 253 := h
  rw [show (dnsNameMaxlen : ℕ) = 255 from rfl, codeRoom]
  split <;> omega

abbrev Labelled : Bytes → Prop := NameText fun _ => True

theorem labelled_after {name : Bytes} (h : Labelled name) (hne : name ≠ []) :
    0 < (firstLabel name).length ∧ Labelled (afterLabel name) := by
  obtain ⟨ls, -, hls, rfl⟩ := h
  cases ls with
  | nil => exact absurd rfl hne
  | cons l rest =>
    have hl := hls l (by simp)
    rw [firstLabel_dotted hl.no_dot, afterLabel_dotted hl.no_dot]
    exact ⟨hl.pos, rest, trivial, fun l h => hls l (by simp [h]), rfl⟩

/-- What `encode_name` wrote, unless a label was too long. -/
def NameWritten (w : ℕ) (name : Bytes) (s : DnsEnc) (r : Option ℕ) (ws : List Write)
    (t : DnsEnc) : Prop :=
  t.pktLen = s.pktLen ∧ (r = none ∨ ∃ c, r = some (w+c.length) ∧ ws = [(w, c)] ∧ 0 < c.length ∧
    c.length ≤ codeRoom name ∧ (Labelled name → Skips c))

theorem firstLabel_le (name : Bytes) : (firstLabel name).length ≤ name.length :=
  (List.takeWhile_sublist _).length_le

theorem room_after {name : Bytes} (hne : name ≠ []) :
    1+(firstLabel name).length+codeRoom (afterLabel name) ≤ codeRoom name := by
  have hle := firstLabel_le name
  rw [codeRoom, codeRoom, if_neg hne, afterLabel, List.length_drop]
  split
  · omega
  · next h =>
    have := List.length_pos_iff.mpr h
    rw [List.length_drop] at this
    omega

theorem storeSuffix_withBuf (name : Bytes) (w : ℕ) (s : DnsEnc) (b : Bytes) :
    storeSuffix name w (encBuffer.withBuf s b) = encBuffer.withBuf (storeSuffix name w s) b := by
  by_cases h : s.suffix.length < dnsMaxSuffix
  · simp [storeSuffix, encBuffer, h]
  · simp [storeSuffix, encBuffer, h]

theorem storeSuffix_pktLen (name : Bytes) (w : ℕ) (s : DnsEnc) :
    (storeSuffix name w s).pktLen = s.pktLen := by
  unfold storeSuffix
  split <;> rfl

theorem storeSuffix_pktBuf (name : Bytes) (w : ℕ) (s : DnsEnc) :
    (storeSuffix name w s).pktBuf = s.pktBuf := by
  unfold storeSuffix
  split <;> rfl

theorem take_firstLabel (name : Bytes) : name.take (firstLabel name).length = firstLabel name :=
  (List.prefix_iff_eq_take.mp (List.takeWhile_prefix _)).symm

/-- One label in front of the rest of a name. -/
theorem emits_label {w : ℕ} {name : Bytes} {s : DnsEnc} {x : Enc (Option ℕ)} (hne : name ≠ [])
    (hshort : (firstLabel name).length ≤ 63) (hroom : w+codeRoom name ≤ s.pktBuf.length)
    (hx : ∀ t : DnsEnc, t.pktBuf.length = s.pktBuf.length →
      Emits F x t (NameWritten (w+1+(firstLabel name).length) (afterLabel name) t)) :
    Emits F (putBuf w (UInt8.ofNat (firstLabel name).length :: firstLabel name) >>= fun _ => x) s
      (NameWritten w name s) := by
  have hfit := room_after hne
  have hcons : (UInt8.ofNat (firstLabel name).length :: firstLabel name).length =
      1+(firstLabel name).length := by
    rw [List.length_cons]
    omega
  refine Traced.mono (Q := fun r ws t => t.pktLen = s.pktLen ∧ (r = none ∨
    ∃ c, r = some (w+1+(firstLabel name).length+c.length) ∧
      ws = [(w, UInt8.ofNat (firstLabel name).length :: firstLabel name),
        (w+1+(firstLabel name).length, c)] ∧
      c.length ≤ codeRoom (afterLabel name) ∧ (Labelled (afterLabel name) → Skips c))) ?_ ?_
  · refine (emits_putBuf (Q := fun _ ws t =>
      ws = [(w, UInt8.ofNat (firstLabel name).length :: firstLabel name)] ∧ t.pktLen = s.pktLen)
      (by omega) ⟨rfl, rfl⟩).bind fun _ ws t ht h => ?_
    obtain ⟨rfl, hlen⟩ := h
    refine (hx t ht).imp fun r ws' u _ _ h => ?_
    obtain ⟨hu, h | ⟨c, hr, rfl, -, hle, hskip⟩⟩ := h
    · exact ⟨hu.trans hlen, .inl h⟩
    · exact ⟨hu.trans hlen, .inr ⟨c, hr, rfl, hle, hskip⟩⟩
  · intro r ws t _ hw h
    obtain ⟨hlen, hr | ⟨c, hr, rfl, hle, hskip⟩⟩ := h
    · exact ⟨ws, ⟨hlen, .inl hr⟩, hw, fun _ _ => rfl⟩
    · refine ⟨[(w, UInt8.ofNat (firstLabel name).length :: firstLabel name ++ c)],
        ⟨hlen, .inr ⟨_, ?_, rfl, ?_, ?_, ?_⟩⟩, ?_, fun b hb => ?_⟩
      · rw [hr, List.length_append, hcons]
        congr 1
        omega
      · rw [List.length_append, hcons]
        omega
      · rw [List.length_append, hcons]
        omega
      · intro hname
        obtain ⟨hpos, hafter⟩ := labelled_after hname hne
        exact skips_label hpos hshort (hskip hafter)
      · intro v hv
        obtain rfl := List.mem_singleton.mp hv
        rw [List.length_append, hcons, ← Nat.add_assoc, ← Nat.add_assoc]
        exact hw (w+1+(firstLabel name).length, c) (by simp)
      · have hb : b.length = s.pktBuf.length := hb
        rw [writes_join (by omega), hcons, ← Nat.add_assoc]

theorem emits_encodeLabels (offset k w : ℕ) (name : Bytes) (hk : name.length ≤ k)
    (hmax : name.length ≤ dnsNameMaxstr) (s : DnsEnc)
    (hroom : w+codeRoom name ≤ s.pktBuf.length) :
    Emits F (encodeLabels offset k w name) s (NameWritten w name s) := by
  have hroot (w : ℕ) (s : DnsEnc) (h : w+1 ≤ s.pktBuf.length) :
      Emits F (putBuf w [0] >>= fun _ => pure (some (w+1))) s (NameWritten w [] s) := by
    refine (emits_putBuf (Q := fun _ ws t => ws = [(w, [0])] ∧ t.pktLen = s.pktLen)
      h ⟨rfl, rfl⟩).bind fun _ ws t _ ht => traced_pure ?_
    rw [ht.1]
    exact ⟨ht.2, .inr ⟨[0], rfl, rfl, by simp, by simp [codeRoom], fun _ => skips_zero⟩⟩
  induction k generalizing w name s with
  | zero =>
    obtain rfl : name = [] := List.length_eq_zero_iff.mp (by omega)
    exact hroot w s hroom
  | succ k ih =>
    rw [encodeLabels]
    split
    · next h0 =>
      subst h0
      exact hroot w s hroom
    · next hne =>
      refine traced_get ?_ fun _ _ => rfl
      cases hfind : findSuffix s offset name with
      | some e =>
        have h2 : 2 ≤ codeRoom name := by
          rw [codeRoom, if_neg hne]
          omega
        refine (emits_putBuf (Q := fun _ ws t => ws = [(w, encU16 (0xC000 ||| e.offset))] ∧
          t.pktLen = s.pktLen) (by rw [length_encU16]; omega) ⟨rfl, rfl⟩).bind fun _ ws t _ ht =>
          traced_pure ?_
        rw [ht.1]
        exact ⟨ht.2, .inr ⟨_, rfl, rfl, by simp, h2, fun _ => skips_pointer e.offset⟩⟩
      | none =>
        have hle := firstLabel_le name
        have hmax' : name.length ≤ 253 := hmax
        have hlen : (firstLabel name).length % 256 = (firstLabel name).length :=
          Nat.mod_eq_of_lt (by omega)
        refine Traced.bind (traced_modify (Q := fun _ ws t => ws = [] ∧ t.pktLen = s.pktLen)
          ⟨rfl, storeSuffix_pktLen name w s⟩ (storeSuffix_withBuf name w s)
          (storeSuffix_pktBuf name w s)) fun _ ws s1 hs1 h1 => ?_
        obtain ⟨rfl, hlen1⟩ := h1
        have hs1 : s1.pktBuf.length = s.pktBuf.length := hs1
        simp only [hlen, take_firstLabel, List.nil_append]
        split
        · exact traced_pure ⟨hlen1, .inl rfl⟩
        · next hshort =>
          have hafter : (afterLabel name).length ≤ name.length-1 := by
            rw [afterLabel, List.length_drop]
            omega
          have hfit := room_after hne
          refine (emits_label hne (Nat.le_of_not_lt hshort) (by omega) fun t ht =>
            ih (w+1+(firstLabel name).length) (afterLabel name) (by omega) (by omega) t
              (by omega)).imp fun r ws t _ _ h => ?_
          exact ⟨h.1.trans hlen1, h.2⟩

theorem emits_fail {p : Prop} [Decidable p] {s : DnsEnc} {Q : Unit → List Write → DnsEnc → Prop}
    (hq : ¬ p → Q () [] s) : Emits F (when p (exit (-1))) s Q :=
  traced_when (fun _ => traced_exit rfl) hq

theorem emits_mkspace {n : ℕ} {s : DnsEnc} {Q : ℕ → List Write → DnsEnc → Prop}
    (hq : s.pktLen+n ≤ s.pktBuf.length → Q s.pktLen [] { s with pktLen := s.pktLen+n }) :
    Emits F (mkspace n) s Q := by
  refine traced_get ?_ fun b hb => ?_
  · refine (emits_fail (p := s.pktBuf.length < s.pktLen+n)
      (Q := fun _ ws t => ws = [] ∧ t = s ∧ s.pktLen+n ≤ s.pktBuf.length)
      fun h => ⟨rfl, rfl, by omega⟩).bind fun _ ws t _ h => ?_
    obtain ⟨rfl, rfl, hle⟩ := h
    exact (traced_modify (Q := fun _ ws u => ws = [] ∧ u = { t with pktLen := t.pktLen+n })
      ⟨rfl, rfl⟩ (fun _ => rfl) rfl).bind fun _ ws u _ h => traced_pure (by
        obtain ⟨rfl, rfl⟩ := h
        exact hq hle)
  · have hb : (encBuffer.withBuf s b).pktBuf.length = s.pktBuf.length := hb
    rw [hb]
    rfl

theorem emits_retspace {n : ℕ} {s : DnsEnc} {Q : Unit → List Write → DnsEnc → Prop}
    (hq : Q () [] { s with pktLen := s.pktLen-n }) : Emits F (retspace n) s Q := by
  refine traced_get ?_ fun _ _ => rfl
  refine (emits_fail (p := s.pktLen < n) (Q := fun _ ws t => ws = [] ∧ t = s)
    fun _ => ⟨rfl, rfl⟩).bind fun _ ws t _ h => ?_
  obtain ⟨rfl, rfl⟩ := h
  exact traced_modify hq (fun _ => rfl) rfl

theorem emits_strOf {st : NameStore} {p : Ptr} {s : DnsEnc}
    {Q : Option Bytes → List Write → DnsEnc → Prop} (hF : F .wildRead)
    (hq : p ≠ .wild → Q (st.str p) [] s) : Emits F (strOf st p) s Q := by
  cases p with
  | null => exact traced_pure (hq (by simp))
  | ref off => exact traced_pure (hq (by simp))
  | wild => exact traced_fault hF

structure NameCode (st : NameStore) (p : Ptr) (c : Bytes) : Prop where
  pos : 0 < c.length
  le : c.length ≤ dnsNameMaxlen
  skips : Labelled ((st.str p).getD []) → Skips c

theorem emits_putName {w : ℕ} {st : NameStore} {p : Ptr} {s : DnsEnc} (hF : F .wildRead)
    (hst : Tame st) (hroom : w+dnsNameMaxlen ≤ s.pktBuf.length) :
    Emits F (putName w st p) s fun w' ws t =>
      t.pktLen = s.pktLen ∧ ∃ c, NameCode st p c ∧ w' = w+c.length ∧ ws = [(w, c)] := by
  have hle := hst.str_le p
  have hcode := codeRoom_le hle
  refine (emits_strOf (Q := fun name ws t => ws = [] ∧ t = s ∧ name = st.str p) hF
    fun _ => ⟨rfl, rfl, rfl⟩).bind fun name ws t _ h => ?_
  obtain ⟨rfl, rfl, rfl⟩ := h
  refine (emits_encodeLabels w _ w ((st.str p).getD []) le_rfl hle t (by omega)).bind
    fun r ws u _ h => ?_
  obtain ⟨hlen, rfl | ⟨c, rfl, rfl, hpos, hcle, hskip⟩⟩ := h
  · exact traced_exit rfl
  · exact traced_pure ⟨hlen, c, ⟨hpos, hcle.trans hcode, hskip⟩, rfl, rfl⟩

structure Appended (c : Bytes) (s : DnsEnc) (ws : List Write) (t : DnsEnc) : Prop where
  writes : ws = [(s.pktLen, c)]
  len : t.pktLen = s.pktLen+c.length
  fits : s.pktLen+c.length ≤ s.pktBuf.length

theorem emits_dnsEncName {st : NameStore} {p : Ptr} {s : DnsEnc} (hF : F .wildRead)
    (hst : Tame st) : Emits F (dnsEncName st p) s fun _ ws t =>
      ∃ c, NameCode st p c ∧ Appended c s ws t := by
  refine (emits_mkspace (Q := fun w ws t => ws = [] ∧ w = s.pktLen ∧
    t = { s with pktLen := s.pktLen+dnsNameMaxlen } ∧
    s.pktLen+dnsNameMaxlen ≤ s.pktBuf.length) fun h => ⟨rfl, rfl, rfl, h⟩).bind
    fun w ws t _ h => ?_
  obtain ⟨rfl, rfl, rfl, hroom⟩ := h
  refine Traced.bind (emits_putName hF hst (by exact hroom)) fun w' ws t _ h => ?_
  obtain ⟨hlen, c, hc, rfl, rfl⟩ := h
  have hle := hc.le
  refine emits_retspace ⟨c, hc, ⟨rfl, ?_, by omega⟩⟩
  simp only [hlen, spare, Nat.add_sub_cancel_left, if_pos hle]
  omega

theorem emits_dnsEncMem {mem : Bytes} {s : DnsEnc} :
    Emits F (dnsEncMem mem) s fun _ => Appended mem s := by
  refine (emits_mkspace (Q := fun w ws t => ws = [] ∧ w = s.pktLen ∧
    t = { s with pktLen := s.pktLen+mem.length } ∧
    s.pktLen+mem.length ≤ s.pktBuf.length) fun h => ⟨rfl, rfl, rfl, h⟩).bind fun w ws t _ h => ?_
  obtain ⟨rfl, rfl, rfl, hroom⟩ := h
  exact emits_putBuf hroom ⟨rfl, rfl, hroom⟩

theorem dnsEncStr_eq (str : Bytes) :
    dnsEncStr str = dnsEncMem (UInt8.ofNat str.length :: str) := rfl

/-- Appending one block behind another is appending both. -/
theorem appended_join {x y : Bytes} {s t u : DnsEnc} {ws ws' : List Write}
    (h1 : Appended x s ws t) (h2 : Appended y t ws' u) (hbuf : t.pktBuf.length = s.pktBuf.length) :
    Appended (x ++ y) s [(s.pktLen, x ++ y)] u ∧ Within s.pktBuf.length [(s.pktLen, x ++ y)] ∧
      ∀ b : Bytes, b.length = s.pktBuf.length → writes [(s.pktLen, x ++ y)] b =
        writes (ws ++ ws') b := by
  have hlen1 := h1.len
  have hlen2 := h2.len
  have hfit := h2.fits
  have hfit1 := h1.fits
  refine ⟨⟨rfl, ?_, ?_⟩, ?_, fun b hb => ?_⟩
  · rw [List.length_append]
    omega
  · rw [List.length_append]
    omega
  · intro v hv
    obtain rfl := List.mem_singleton.mp hv
    rw [List.length_append]
    omega
  · rw [writes_join (by omega), h1.writes, h2.writes, hlen1]
    rfl

theorem emits_append {x : Enc Unit} {f : Unit → Enc Unit} {s : DnsEnc} {P Q R : Bytes → Prop}
    (hx : Emits F x s fun _ ws t => ∃ c, P c ∧ Appended c s ws t)
    (hf : ∀ t, t.pktBuf.length = s.pktBuf.length → t.pktLen ≤ t.pktBuf.length →
      Emits F (f ()) t fun _ ws u => ∃ c, Q c ∧ Appended c t ws u)
    (hR : ∀ c c', P c → Q c' → R (c ++ c')) :
    Emits F (x >>= f) s fun _ ws t => ∃ c, R c ∧ Appended c s ws t := by
  refine Traced.mono (Q := fun _ ws u => ∃ c c' t ws1 ws2, P c ∧ Q c' ∧ ws = ws1 ++ ws2 ∧
    Appended c s ws1 t ∧ Appended c' t ws2 u ∧ t.pktBuf.length = s.pktBuf.length) ?_ ?_
  · refine hx.bind fun _ ws t ht h => ?_
    obtain ⟨c, hc, h⟩ := h
    have hfit : t.pktLen ≤ t.pktBuf.length := by
      have ht : t.pktBuf.length = s.pktBuf.length := ht
      rw [h.len, ht]
      exact h.fits
    refine (hf t ht hfit).imp fun _ ws' u _ _ h' => ?_
    obtain ⟨c', hc', h'⟩ := h'
    exact ⟨c, c', t, ws, ws', hc, hc', rfl, h, h', ht⟩
  · intro _ ws u _ _ h
    obtain ⟨c, c', t, ws1, ws2, hc, hc', rfl, h1, h2, ht⟩ := h
    obtain ⟨ha, hw, heq⟩ := appended_join h1 h2 ht
    exact ⟨_, ⟨c ++ c', hR c c' hc hc', ha⟩, hw, heq⟩

/-- The records whose RDATA is written without gaps. -/
def Gapless (st : NameStore) (rr : DnsRr Ptr) : Prop :=
  rrKind rr.rrType ≠ .mx ∧
    (rrKind rr.rrType = .hinfo → (st.str rr.rdata.hinfoCpuStr).getD [] = [])

/-- The RDATA behind the ten fixed bytes of a record. Only `OPT` writes before its start, and
at most three bytes are written beyond its end. -/
structure RdataWritten (st : NameStore) (rr : DnsRr Ptr) (s : DnsEnc) (ws : List Write)
    (t : DnsEnc) : Prop where
  grow : s.pktLen ≤ t.pktLen
  fits : t.pktLen ≤ s.pktBuf.length
  small : t.pktLen-s.pktLen < 2^16
  low : ∀ w ∈ ws, s.pktLen-8 ≤ w.1
  high : ∀ w ∈ ws, w.1+w.2.length ≤ t.pktLen+3
  full : Gapless st rr → ∀ i, s.pktLen ≤ i → i < t.pktLen → Covers ws i
  gap : ¬ Gapless st rr → ∃ j, s.pktLen ≤ j ∧ j < t.pktLen ∧ ¬ Covers ws j

theorem Appended.rdata {st : NameStore} {rr : DnsRr Ptr} {c : Bytes} {s t : DnsEnc}
    {ws : List Write} (h : Appended c s ws t) (hc : c.length < 2^16) (hg : Gapless st rr) :
    RdataWritten st rr s ws t := by
  obtain ⟨rfl, hlen, hfits⟩ := h
  refine ⟨by omega, by omega, by omega, by simp, ?_, ?_, fun hn => absurd hg hn⟩
  · simp only [List.mem_singleton, forall_eq]
    omega
  · intro _ i hi hlt
    exact covers_cons.mpr (.inl ⟨hi, by simp only; omega⟩)

theorem emits_encTxt {st : NameStore} (hF : F .wildRead) (hst : Tame st) (ps : List Ptr)
    (s : DnsEnc) (hs : s.pktLen ≤ s.pktBuf.length) : Emits F (encTxt st ps) s fun _ ws t =>
      ∃ c, (c.length ≤ 254*ps.length ∧ ∀ p ∈ ps, p ≠ .wild) ∧ Appended c s ws t := by
  induction ps generalizing s with
  | nil =>
    refine Traced.mono (traced_pure (Q := fun _ ws t => ws = [] ∧ t = s) ⟨rfl, rfl⟩)
      fun _ ws t _ _ h => ?_
    obtain ⟨rfl, rfl⟩ := h
    refine ⟨[(t.pktLen, [])], ⟨[], by simp, ⟨rfl, rfl, hs⟩⟩, ?_, fun b _ => patch_nil b _⟩
    intro w hw
    obtain rfl := List.mem_singleton.mp hw
    exact hs
  | cons p rest ih =>
    refine (emits_strOf (Q := fun str ws t => ws = [] ∧ t = s ∧ str = st.str p ∧ p ≠ .wild) hF
      fun h => ⟨rfl, rfl, rfl, h⟩).bind fun str ws t _ h => ?_
    obtain ⟨rfl, rfl, rfl, hp⟩ := h
    have hle : ((st.str p).getD []).length ≤ 253 := hst.str_le p
    refine emits_append (P := fun c => c.length ≤ 254)
      (Q := fun c => c.length ≤ 254*rest.length ∧ ∀ q ∈ rest, q ≠ .wild) ?_ ?_ ?_
    · rw [dnsEncStr_eq]
      exact emits_dnsEncMem.imp fun _ ws t _ _ h => ⟨_, by rw [List.length_cons]; omega, h⟩
    · exact fun t _ hfit => ih t hfit
    · intro c c' hc hc'
      refine ⟨?_, ?_⟩
      · rw [List.length_append, List.length_cons]
        omega
      · intro q hq
        rcases List.mem_cons.mp hq with rfl | hq
        · exact hp
        · exact hc'.2 q hq

theorem emits_encHinfo {st : NameStore} {rr : DnsRr Ptr} (hF : F .wildRead) (hst : Tame st)
    (hk : rrKind rr.rrType = .hinfo) (s : DnsEnc) :
    Emits F (encHinfo st rr.rdata) s fun _ => RdataWritten st rr s := by
  have hcpu : ((st.str rr.rdata.hinfoCpuStr).getD []).length ≤ 253 := hst.str_le _
  have hos : ((st.str rr.rdata.hinfoOsStr).getD []).length ≤ 253 := hst.str_le _
  refine (emits_strOf (Q := fun str ws t => ws = [] ∧ t = s ∧ str = st.str rr.rdata.hinfoCpuStr) hF
    fun _ => ⟨rfl, rfl, rfl⟩).bind fun str ws t _ h => ?_
  obtain ⟨rfl, rfl, rfl⟩ := h
  refine (emits_strOf (Q := fun str ws u => ws = [] ∧ u = t ∧ str = st.str rr.rdata.hinfoOsStr) hF
    fun _ => ⟨rfl, rfl, rfl⟩).bind fun str ws s _ h => ?_
  obtain ⟨rfl, rfl, rfl⟩ := h
  have hg : Gapless st rr ↔ (st.str rr.rdata.hinfoCpuStr).getD [] = [] := by
    simp [Gapless, hk]
  generalize (st.str rr.rdata.hinfoCpuStr).getD [] = cpu at hcpu hg ⊢
  generalize (st.str rr.rdata.hinfoOsStr).getD [] = os at hos ⊢
  refine (emits_mkspace (Q := fun w ws t => ws = [] ∧ w = s.pktLen ∧
    t.pktLen = s.pktLen+(2+cpu.length+os.length) ∧
    s.pktLen+(2+cpu.length+os.length) ≤ s.pktBuf.length) fun h => ⟨rfl, rfl, rfl, h⟩).bind
    fun w ws t ht h => ?_
  obtain ⟨rfl, rfl, hlen, hroom⟩ := h
  have ht : t.pktBuf.length = s.pktBuf.length := ht
  refine (emits_putBuf (Q := fun _ ws u => ws = [(s.pktLen, UInt8.ofNat cpu.length :: cpu)] ∧
    u.pktLen = t.pktLen) (by rw [List.length_cons]; omega) ⟨rfl, rfl⟩).bind fun _ ws u hu h => ?_
  obtain ⟨rfl, hulen⟩ := h
  have hu : u.pktBuf.length = t.pktBuf.length := hu
  refine emits_putBuf (by rw [List.length_cons]; omega) ?_
  have hend : u.pktLen = s.pktLen+(2+cpu.length+os.length) := hulen.trans hlen
  have hcover (i : ℕ) : Covers ([] ++ ([] ++ ([] ++ ([(s.pktLen, UInt8.ofNat cpu.length :: cpu)] ++
      [(s.pktLen+1, UInt8.ofNat os.length :: os)])))) i ↔
      s.pktLen ≤ i ∧ (i < s.pktLen+(cpu.length+1) ∨ i < s.pktLen+1+(os.length+1)) := by
    simp only [List.nil_append, List.cons_append, covers_cons, not_covers_nil, or_false,
      List.length_cons]
    omega
  refine ⟨by simp only; omega, by simp only; omega, by simp only; omega, ?_, ?_, ?_, ?_⟩
  · simp only [List.nil_append, List.cons_append, List.mem_cons, List.not_mem_nil, or_false,
      forall_eq_or_imp, forall_eq]
    omega
  · simp only [List.nil_append, List.cons_append, List.mem_cons, List.not_mem_nil, or_false,
      forall_eq_or_imp, forall_eq, List.length_cons]
    omega
  · intro hgap i hi hlt
    have hzero : cpu.length = 0 := List.length_eq_zero_iff.mpr (hg.mp hgap)
    rw [hcover]
    simp only at hlt
    omega
  · intro hgap
    have hpos := List.length_pos_iff.mpr (mt hg.mpr hgap)
    refine ⟨s.pktLen+(1+cpu.length+os.length), by omega, by simp only; omega, ?_⟩
    rw [hcover]
    omega

theorem emits_encMx {st : NameStore} {rr : DnsRr Ptr} (hF : F .wildRead) (hst : Tame st)
    (hk : rrKind rr.rrType = .mx) (s : DnsEnc) :
    Emits F (encMx st rr.rdata) s fun _ => RdataWritten st rr s := by
  refine (emits_mkspace (Q := fun w ws t => ws = [] ∧ w = s.pktLen ∧ t.pktLen = s.pktLen+4 ∧
    s.pktLen+4 ≤ s.pktBuf.length) fun h => ⟨rfl, rfl, rfl, h⟩).bind fun w ws t ht h => ?_
  obtain ⟨rfl, rfl, hlen, hroom⟩ := h
  have ht : t.pktBuf.length = s.pktBuf.length := ht
  refine (emits_putBuf (Q := fun _ ws u => ws = [(s.pktLen, encU16 rr.rdata.mxPref)] ∧
    u.pktLen = t.pktLen) (by rw [length_encU16]; omega) ⟨rfl, rfl⟩).bind fun _ ws u hu h => ?_
  obtain ⟨rfl, hulen⟩ := h
  have hu : u.pktBuf.length = t.pktBuf.length := hu
  refine (emits_dnsEncName hF hst).imp fun _ ws v _ _ h => ?_
  obtain ⟨c, hc, rfl, hvlen, hfits⟩ := h
  have hpos := hc.pos
  have hle : c.length ≤ 255 := hc.le
  have hnot : ¬ Gapless st rr := fun h => h.1 hk
  refine ⟨by omega, by omega, by omega, ?_, ?_, fun h => absurd h hnot, fun _ => ?_⟩
  · simp only [List.nil_append, List.cons_append, List.mem_cons, List.not_mem_nil, or_false,
      forall_eq_or_imp, forall_eq]
    omega
  · simp only [List.nil_append, List.cons_append, List.mem_cons, List.not_mem_nil, or_false,
      forall_eq_or_imp, forall_eq, length_encU16]
    omega
  · refine ⟨s.pktLen+2, by omega, by omega, ?_⟩
    simp only [List.nil_append, List.cons_append, covers_cons, not_covers_nil, or_false,
      length_encU16]
    omega

/-- The three numbers of `SRV` need four bytes more than were reserved for them. -/
theorem emits_encSrv {st : NameStore} {rr : DnsRr Ptr} (hF : F .wildRead) (hst : Tame st)
    (hk : rrKind rr.rrType = .srv) (s : DnsEnc)
    (hroom6 : s.pktLen+2 ≤ s.pktBuf.length → s.pktLen+6 ≤ s.pktBuf.length ∨ ∀ i, F (.bufWrite i)) :
    Emits F (encSrv st rr.rdata) s fun _ => RdataWritten st rr s := by
  refine (emits_mkspace (Q := fun w ws t => ws = [] ∧ w = s.pktLen ∧ t.pktLen = s.pktLen+2 ∧
    s.pktLen+2 ≤ s.pktBuf.length) fun h => ⟨rfl, rfl, rfl, h⟩).bind fun w ws t ht h => ?_
  obtain ⟨rfl, rfl, hlen, hroom⟩ := h
  have ht : t.pktBuf.length = s.pktBuf.length := ht
  by_cases hfit : s.pktLen+6 ≤ s.pktBuf.length
  · refine (emits_putBuf (Q := fun _ ws u => ws = [(s.pktLen, encU16 rr.rdata.srvPrior ++
      encU16 rr.rdata.srvWeight ++ encU16 rr.rdata.srvPort)] ∧ u.pktLen = t.pktLen)
      (by simp only [List.length_append, length_encU16]; omega) ⟨rfl, rfl⟩).bind
      fun _ ws u hu h => ?_
    obtain ⟨rfl, hulen⟩ := h
    have hu : u.pktBuf.length = t.pktBuf.length := hu
    refine (emits_dnsEncName hF hst).imp fun _ ws v _ _ h => ?_
    obtain ⟨c, hc, rfl, hvlen, hfits⟩ := h
    have hpos := hc.pos
    have hle : c.length ≤ 255 := hc.le
    have hgap : Gapless st rr := by simp [Gapless, hk]
    refine ⟨by omega, by omega, by omega, ?_, ?_, ?_, fun h => absurd hgap h⟩
    · simp only [List.nil_append, List.cons_append, List.mem_cons, List.not_mem_nil, or_false,
        forall_eq_or_imp, forall_eq]
      omega
    · simp only [List.nil_append, List.cons_append, List.mem_cons, List.not_mem_nil, or_false,
        forall_eq_or_imp, forall_eq, List.length_append, length_encU16]
      omega
    · intro _ i hi hlt
      simp only [List.nil_append, List.cons_append, covers_cons, not_covers_nil, or_false,
        List.length_append, length_encU16]
      omega
  · refine .fault (.bufWrite (max s.pktLen s.pktBuf.length))
      ((hroom6 hroom).resolve_left hfit _) fun b hb => ?_
    have hb : b.length = s.pktBuf.length := hb.trans ht
    refine bind_of_fault ?_ _
    unfold putBuf
    rw [if_neg]
    · simp only [encBuffer, hb]
    · simp only [encBuffer, List.length_append, length_encU16, hb]
      simp [encU16]
      omega

theorem emits_encOpt {st : NameStore} {rr : DnsRr Ptr} (hk : rrKind rr.rrType = .opt) (s : DnsEnc)
    (h8 : 8 ≤ s.pktLen) (hs : s.pktLen ≤ s.pktBuf.length) :
    Emits F (encOpt rr.rdata (s.pktLen-2)) s fun _ => RdataWritten st rr s := by
  have hgap : Gapless st rr := by simp [Gapless, hk]
  refine emits_putBuf (by simp only [List.length_append, length_encU16]; omega) ?_
  refine ⟨le_rfl, hs, by simp, ?_, ?_, fun _ i hi hlt => ?_, fun h => absurd hgap h⟩
  · simp only [List.mem_singleton, forall_eq]
    omega
  · simp only [List.mem_singleton, forall_eq, List.length_append, length_encU16]
    omega
  · simp only at hlt
    omega

theorem length_txt_le {r : Rdata Ptr} (hsize : r.txtStr.length = dnsMaxTxt)
    (h : ∀ p ∈ txtPtrs r, p ≠ .wild) : (txtPtrs r).length ≤ 32 := by
  have hsize : r.txtStr.length = 32 := hsize
  by_contra hlong
  simp only [txtPtrs, List.length_map, List.length_range] at hlong
  refine h .wild (List.mem_map.mpr ⟨32, List.mem_range.mpr (by omega), ?_⟩) rfl
  rw [List.getD_eq_getElem?_getD, List.getElem?_eq_none (by omega)]
  rfl

/-- The RDATA of a record, where its array of strings has its size and an `SRV` record finds
the room that it does not ask for. -/
theorem emits_encRdata {st : NameStore} {rr : DnsRr Ptr} (hF : F .wildRead) (hst : Tame st)
    (hsize : rr.rdata.txtStr.length = dnsMaxTxt) (s : DnsEnc) (h8 : 8 ≤ s.pktLen)
    (hs : s.pktLen ≤ s.pktBuf.length)
    (hsrv : rrKind rr.rrType = .srv → s.pktLen+2 ≤ s.pktBuf.length →
      s.pktLen+6 ≤ s.pktBuf.length ∨ ∀ i, F (.bufWrite i)) :
    Emits F (encRdata st rr (s.pktLen-2)) s fun _ => RdataWritten st rr s := by
  have hname (hg : Gapless st rr) (p : Ptr) :
      Emits F (dnsEncName st p) s fun _ => RdataWritten st rr s :=
    (emits_dnsEncName hF hst).imp fun _ ws t _ _ h => by
      obtain ⟨c, hc, h⟩ := h
      have hle : c.length ≤ 255 := hc.le
      exact h.rdata (by omega) hg
  have hmem (hg : Gapless st rr) (b : Bytes) (hb : b.length < 2^16) :
      Emits F (dnsEncMem b) s fun _ => RdataWritten st rr s :=
    emits_dnsEncMem.imp fun _ ws t _ _ h => h.rdata hb hg
  unfold encRdata
  cases hk : rrKind rr.rrType with
  | a => exact hmem (by simp [Gapless, hk]) _ (by simp)
  | aaaa => exact hmem (by simp [Gapless, hk]) _ (by simp)
  | ns => exact hname (by simp [Gapless, hk]) _
  | cname => exact hname (by simp [Gapless, hk]) _
  | ptr => exact hname (by simp [Gapless, hk]) _
  | soa =>
    have hcode (p : Ptr) (s : DnsEnc) : Emits F (dnsEncName st p) s fun _ ws t =>
        ∃ c, c.length ≤ 255 ∧ Appended c s ws t :=
      (emits_dnsEncName hF hst).imp fun _ ws t _ _ h => by
        obtain ⟨c, hc, h⟩ := h
        exact ⟨c, hc.le, h⟩
    refine (emits_append (R := fun c => c.length ≤ 530) (hcode _ s) (fun t _ _ =>
      emits_append (R := fun c => c.length ≤ 275) (hcode _ t) (fun u _ _ =>
        emits_dnsEncMem.imp fun _ ws v _ _ h => ⟨_, rfl, h⟩) ?_) ?_).imp fun _ ws t _ _ h => ?_
    · rintro c c' hc rfl
      simp only [List.length_append, length_encU32]
      omega
    · intro c c' hc hc'
      rw [List.length_append]
      omega
    · obtain ⟨c, hc, h⟩ := h
      exact h.rdata (by omega) (by simp [Gapless, hk])
  | hinfo => exact emits_encHinfo hF hst hk s
  | mx => exact emits_encMx hF hst hk s
  | txt =>
    refine (emits_encTxt hF hst (txtPtrs rr.rdata) s hs).imp fun _ ws t _ _ h => ?_
    obtain ⟨c, ⟨hc, hwild⟩, h⟩ := h
    have hle := length_txt_le hsize hwild
    exact h.rdata (by omega) (by simp [Gapless, hk])
  | srv => exact emits_encSrv hF hst hk s (hsrv hk)
  | opt => exact emits_encOpt hk s h8 hs
  | any | other =>
    refine traced_pure ⟨le_rfl, hs, by simp, by simp, by simp, fun _ i hi hlt => ?_, fun h => ?_⟩
    · omega
    · exact absurd (by simp [Gapless, hk]) h

end DnsPkt.EncoderTrace
