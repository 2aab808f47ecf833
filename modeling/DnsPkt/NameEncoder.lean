import DnsPkt.NameCompression
import DnsPkt.NameDecoder
import DnsPkt.CheckedRun
import Mathlib.Data.List.Find

/-!
# The name encoder

`encode_name` writes through a pointer into the packet buffer and shares one
suffix table between all names of a packet. Every write is checked against
the end of the buffer. On names made of labels it does what the writer of
`NameCompression` does, with positions kept in 16 bits.
-/

set_option autoImplicit false

namespace DnsPkt.NameEncoder
open DnsPkt.CheckedRun DnsPkt.CheckedRun.Run DnsPkt.Octets DnsPkt.Protocol DnsPkt.WireName
open DnsPkt.NameCompression DnsPkt.NameDecoder

/-- `struct dns_suffix`, with the string its `name` points to. -/
structure DnsSuffix where
  name : Bytes
  offset : UInt16

/-- `struct dns_enc`; `pkt_max` is the length of the buffer. -/
structure DnsEnc where
  pktBuf : Bytes
  pktLen : ℕ
  suffix : List DnsSuffix
  suffix_fits : suffix.length ≤ dnsMaxSuffix

abbrev Enc := Run DnsEnc ℤ Fault

def putBuf (w : ℕ) (b : Bytes) : Enc Unit := fun s =>
  if b = [] ∨ w+b.length ≤ s.pktBuf.length then .ok () { s with pktBuf := patch s.pktBuf w b }
  else .fault (.bufWrite (max w s.pktBuf.length))

/-- The scan for a suffix match, with `strcasecmp` as equality of folded strings. -/
def findSuffix (s : DnsEnc) (offset : ℕ) (name : Bytes) : Option DnsSuffix :=
  s.suffix.find? fun e => e.offset.toNat < offset ∧ fold e.name = fold name

def storeSuffix (name : Bytes) (w : ℕ) (s : DnsEnc) : DnsEnc :=
  if h : s.suffix.length < dnsMaxSuffix then
    { s with
      suffix := s.suffix ++ [⟨name, UInt16.ofNat w⟩]
      suffix_fits := by
        rw [List.length_append]
        exact h }
  else s

/-- The loop of `encode_name`. Every round moves past a label, so the length
of the name bounds the rounds. `none` is the null pointer of a label that is
too long. -/
def encodeLabels (offset : ℕ) : ℕ → ℕ → Bytes → Enc (Option ℕ)
  | 0, w, _ => do
    putBuf w [0]
    pure (some (w+1))
  | k+1, w, name =>
    if name = [] then do
      putBuf w [0]
      pure (some (w+1))
    else do
      let s ← get
      match findSuffix s offset name with
      | some e => do
        putBuf w (encU16 (0xC000 ||| e.offset))
        pure (some (w+2))
      | none => do
        modify (storeSuffix name w)
        let len := (firstLabel name).length % 256
        if dnsLabelMaxstr < len then pure none
        else do
          putBuf w (UInt8.ofNat len :: name.take len)
          encodeLabels offset k (w+1+len) (afterLabel name)

/-- `encode_name`; a null name is written like an empty one. -/
def encodeName (w : ℕ) (name : Option Bytes) : Enc (Option ℕ) :=
  encodeLabels w (name.getD []).length w (name.getD [])

def toSuffix (e : Mark) : DnsSuffix := ⟨dotted e.labels, UInt16.ofNat e.offset⟩

/-- The encoder with other buffer contents and the first marks of a list. -/
def DnsEnc.with (s : DnsEnc) (buf : Bytes) (marks : List Mark) : DnsEnc :=
  { s with
    pktBuf := buf
    suffix := (marks.take dnsMaxSuffix).map toSuffix
    suffix_fits := by simp }

theorem putBuf_run {w : ℕ} {b : Bytes} {s : DnsEnc} (h : w+b.length ≤ s.pktBuf.length) :
    putBuf w b s = .ok () { s with pktBuf := patch s.pktBuf w b } :=
  if_pos (.inr h)

theorem take_take_snoc {α : Type} (N : ℕ) (xs : List α) (x : α) :
    (if (xs.take N).length < N then xs.take N ++ [x] else xs.take N) = (xs ++ [x]).take N := by
  rw [List.take_append, List.length_take]
  split_ifs with h
  · obtain ⟨k, hk⟩ : ∃ k, N-xs.length = k+1 := ⟨N-xs.length-1, by omega⟩
    rw [hk]
    simp
  · rw [show N-xs.length = 0 by omega]
    simp

theorem storeSuffix_with {s : DnsEnc} {marks : List Mark}
    (hs : s.suffix = (marks.take dnsMaxSuffix).map toSuffix) (ls : List Bytes) (w d : ℕ) :
    storeSuffix (dotted ls) w s = s.with s.pktBuf (marks ++ [⟨ls, w, d⟩]) := by
  have hsnoc := congrArg (List.map toSuffix) (take_take_snoc dnsMaxSuffix marks ⟨ls, w, d⟩)
  unfold storeSuffix DnsEnc.with
  split_ifs with h
  · rw [if_pos (by simpa [hs] using h)] at hsnoc
    simp only [hs, ← hsnoc, List.map_append, List.map_cons, List.map_nil, toSuffix]
  · rw [if_neg (by simpa [hs] using h)] at hsnoc
    simp only [← hsnoc, ← hs]

/-- Marks that a name may be compared with: suffixes made of labels, at
positions before the start of the name. -/
def Comparable (start : ℕ) (tab : List Mark) : Prop :=
  tab.length ≤ dnsMaxSuffix ∧ ∀ e ∈ tab, e.offset < start ∧ ∀ l ∈ e.labels, GoodLabel l

/-- The scan finds the first mark of the table. The suffixes that the same
name added before have more labels and do not match. -/
theorem findSuffix_eq {start : ℕ} {tab own : List Mark} {s : DnsEnc}
    (hs : s.suffix = ((tab ++ own).take dnsMaxSuffix).map toSuffix) (htab : Comparable start tab)
    {ls : List Bytes} (hls : ∀ l ∈ ls, IsLabel l)
    (hown : ∀ e ∈ own, ls.length < e.labels.length ∧ ∀ l ∈ e.labels, IsLabel l) :
    findSuffix s start (dotted ls) = (hit tab ls).map toSuffix := by
  have htest : ∀ e ∈ tab, (decide ((toSuffix e).offset.toNat < start ∧
      fold (toSuffix e).name = fold (dotted ls))) = decide (SameName e.labels ls) := by
    intro e he
    obtain ⟨hlt, hl⟩ := htab.2 e he
    have hoff : (UInt16.ofNat e.offset).toNat < start := by
      rw [UInt16.toNat_ofNat']
      exact (Nat.mod_le _ _).trans_lt hlt
    simp only [toSuffix, hoff, true_and, fold_dotted_inj (fun l h => (hl l h).toIsLabel) hls]
  have hmiss : ∀ e ∈ own.take (dnsMaxSuffix-tab.length),
      ¬ ((toSuffix e).offset.toNat < start ∧ fold (toSuffix e).name = fold (dotted ls)) := by
    rintro e he ⟨-, hf⟩
    obtain ⟨hlt, hl⟩ := hown e (List.mem_of_mem_take he)
    have := ((fold_dotted_inj hl hls).mp hf).length_eq
    omega
  rw [findSuffix, hs, List.take_append, List.take_of_length_le htab.1, List.map_append,
    List.find?_append, List.find?_map, List.find?_map]
  have hnone : (own.take (dnsMaxSuffix-tab.length)).find? ((fun e : DnsSuffix =>
      decide (e.offset.toNat < start ∧ fold e.name = fold (dotted ls))) ∘ toSuffix) = none := by
    rw [List.find?_eq_none]
    intro e he
    simpa using hmiss e he
  rw [hnone, hit]
  simp only [Option.map_none, Option.or_none]
  congr 1
  exact List.find?_congr htest

theorem encodeLabels_nil (offset k w : ℕ) (s : DnsEnc) (h : w+1 ≤ s.pktBuf.length) :
    encodeLabels offset k w [] s =
      .ok (some (w+1)) { s with pktBuf := patch s.pktBuf w [0] } := by
  have hput := putBuf_run (b := [0]) h
  cases k with
  | zero => exact bind_of_ok hput _
  | succ k =>
    rw [encodeLabels, if_pos rfl]
    exact bind_of_ok hput _

/-- The loop writes the code of the name and adds its fresh suffixes. -/
theorem encodeLabels_run {start : ℕ} {tab : List Mark} (htab : Comparable start tab) (d : ℕ)
    (ls : List Bytes) (hgood : ∀ l ∈ ls, GoodLabel l) (k w : ℕ) (hk : (dotted ls).length ≤ k)
    (own : List Mark)
    (hown : ∀ e ∈ own, ls.length < e.labels.length ∧ ∀ l ∈ e.labels, IsLabel l)
    (s : DnsEnc) (hs : s.suffix = ((tab ++ own).take dnsMaxSuffix).map toSuffix)
    (hroom : w+(code tab ls).length ≤ s.pktBuf.length) :
    encodeLabels start k w (dotted ls) s = .ok (some (w+(code tab ls).length))
      (s.with (patch s.pktBuf w (code tab ls)) (tab ++ own ++ fresh tab d w ls)) := by
  induction ls generalizing k w own s with
  | nil =>
    rw [dotted, encodeLabels_nil _ _ _ _ hroom]
    simp only [code, fresh, List.append_nil, DnsEnc.with, ← hs]
    rfl
  | cons l rest ih =>
    have hl := hgood l (by simp)
    have hne := dotted_cons_ne_nil hl.pos rest
    obtain ⟨k, rfl⟩ : ∃ k', k = k'+1 := by
      have := List.length_pos_iff.mpr hne
      exact ⟨k-1, by omega⟩
    rw [encodeLabels, if_neg hne, bind_of_ok (get_run s),
      findSuffix_eq hs htab (fun l h => (hgood l h).toIsLabel) hown]
    cases h : hit tab (l :: rest) with
    | some e =>
      have hcode := code_of_hit h
      rw [hcode] at hroom ⊢
      refine (bind_of_ok (putBuf_run hroom) _).trans ?_
      simp only [fresh, h, List.append_nil, DnsEnc.with, ← hs]
      rfl
    | none =>
      have hlen : (firstLabel (dotted (l :: rest))).length % 256 = l.length := by
        have := hl.le
        rw [firstLabel_dotted hl.no_dot]
        omega
      have htake : (dotted (l :: rest)).take l.length = l := by
        cases rest with
        | nil => simp [dotted]
        | cons m rest => simp [dotted]
      have hcode := code_of_miss h
      simp only [hcode, List.length_cons, List.length_append] at hroom
      have hcons : (UInt8.ofNat l.length :: l).length = 1+l.length := by
        simp
        omega
      simp only [Option.map_none]
      rw [bind_of_ok (modify_run _ s), storeSuffix_with hs (l :: rest) w d]
      simp only [hlen, htake, if_neg (Nat.not_lt.mpr hl.le), afterLabel_dotted hl.no_dot]
      rw [bind_of_ok (putBuf_run (by simp only [DnsEnc.with]; omega))]
      have hrest := ih (fun l hl => hgood l (by simp [hl])) k (w+1+l.length)
        (by rw [length_dotted_cons] at hk; split_ifs at hk with h0 <;> [simp [h0, dotted]; omega])
        (own ++ [⟨l :: rest, w, d⟩]) ?_
        { s.with s.pktBuf (tab ++ own ++ [⟨l :: rest, w, d⟩]) with
          pktBuf := patch s.pktBuf w (UInt8.ofNat l.length :: l) } ?_ ?_
      · refine hrest.trans ?_
        have hpatch := patch_patch s.pktBuf w (UInt8.ofNat l.length :: l) (code tab rest) (by omega)
        rw [hcons, ← Nat.add_assoc] at hpatch
        simp only [DnsEnc.with, fresh, h, hcode, hpatch, List.append_assoc, List.cons_append,
          List.nil_append, List.length_cons, List.length_append]
        congr 2
        omega
      · intro e he
        rcases List.mem_append.mp he with he | he
        · exact ⟨by have := (hown e he).1; simp only [List.length_cons] at this; omega,
            (hown e he).2⟩
        · obtain rfl := List.mem_singleton.mp he
          exact ⟨by simp, fun l h => (hgood l h).toIsLabel⟩
      · simp only [DnsEnc.with, List.append_assoc]
      · rw [length_patch _ _ _ (by omega)]
        omega

/-- A name with a label of more than 63 bytes is not written: no suffix from
before that label can be in the table. -/
theorem encodeLabels_long {start : ℕ} {tab : List Mark} (htab : Comparable start tab)
    (ls : List Bytes) (hls : ∀ l ∈ ls, IsLabel l ∧ l.length < 256)
    (hlong : ∃ l ∈ ls, dnsLabelMaxstr < l.length) (k w : ℕ) (hk : (dotted ls).length ≤ k)
    (own : List Mark)
    (hown : ∀ e ∈ own, ls.length < e.labels.length ∧ ∀ l ∈ e.labels, IsLabel l)
    (s : DnsEnc) (hs : s.suffix = ((tab ++ own).take dnsMaxSuffix).map toSuffix)
    (w' : ℕ) (t : DnsEnc) : encodeLabels start k w (dotted ls) s ≠ .ok (some w') t := by
  induction ls generalizing k w own s with
  | nil => simp at hlong
  | cons l rest ih =>
    obtain ⟨hl, hlt⟩ := hls l (by simp)
    have hne := dotted_cons_ne_nil hl.pos rest
    obtain ⟨k, rfl⟩ : ∃ k', k = k'+1 := by
      have := List.length_pos_iff.mpr hne
      exact ⟨k-1, by omega⟩
    rw [encodeLabels, if_neg hne, bind_of_ok (get_run s),
      findSuffix_eq hs htab (fun l h => (hls l h).1) hown]
    have hmiss : hit tab (l :: rest) = none := by
      refine Option.eq_none_iff_forall_ne_some.mpr fun e he => ?_
      obtain ⟨hmem, hsame⟩ := hit_mem he
      obtain ⟨x, hx, hxl⟩ := hlong
      have hmap : fold x ∈ e.labels.map fold := by
        rw [hsame]
        exact List.mem_map_of_mem hx
      obtain ⟨y, hy, hyx⟩ := List.mem_map.mp hmap
      have hle := ((htab.2 e hmem).2 y hy).le
      have := congrArg List.length hyx
      simp only [length_fold] at this
      rw [show (dnsLabelMaxstr : ℕ) = 63 from rfl] at hxl
      omega
    simp only [hmiss, Option.map_none]
    rw [bind_of_ok (modify_run _ s), storeSuffix_with hs (l :: rest) w 0]
    have hlen : (firstLabel (dotted (l :: rest))).length % 256 = l.length := by
      rw [firstLabel_dotted hl.no_dot]
      omega
    simp only [hlen, afterLabel_dotted hl.no_dot]
    by_cases hbig : dnsLabelMaxstr < l.length
    · rw [if_pos hbig]
      simp
    · rw [if_neg hbig]
      intro h
      obtain ⟨_, m, hm, h⟩ := (bind_ok _ _ _ _ _).mp h
      unfold putBuf at hm
      split at hm
      · cases hm
        refine ih (fun l hl => hls l (by simp [hl])) ?_ k (w+1+l.length) ?_
          (own ++ [⟨l :: rest, w, 0⟩]) ?_ _ ?_ h
        · obtain ⟨x, hx, hxl⟩ := hlong
          rcases List.mem_cons.mp hx with rfl | hx
          · exact absurd hxl hbig
          · exact ⟨x, hx, hxl⟩
        · rw [length_dotted_cons] at hk
          split_ifs at hk with h0
          · simp [h0, dotted]
          · omega
        · intro e he
          rcases List.mem_append.mp he with he | he
          · exact ⟨by have := (hown e he).1; simp only [List.length_cons] at this; omega,
              (hown e he).2⟩
          · obtain rfl := List.mem_singleton.mp he
            exact ⟨by simp, fun l h => (hls l h).1⟩
        · simp only [DnsEnc.with, List.append_assoc]
      · cases hm

/-- The encoder holds what the writer wrote: the same bytes and the same
table, with positions kept in 16 bits. -/
structure Tracks (w : Writer) (s : DnsEnc) : Prop where
  pkt : s.pktBuf.take w.pkt.length = w.pkt
  suffix : s.suffix = w.tab.map toSuffix
  tab : Comparable w.pkt.length w.tab

theorem Tracks.le {w : Writer} {s : DnsEnc} (h : Tracks w s) : w.pkt.length ≤ s.pktBuf.length := by
  have := congrArg List.length h.pkt
  rw [List.length_take] at this
  omega

theorem Comparable.mono {a b : ℕ} {tab : List Mark} (hab : a ≤ b) (h : Comparable a tab) :
    Comparable b tab :=
  ⟨h.1, fun e he => ⟨(h.2 e he).1.trans_le hab, (h.2 e he).2⟩⟩

theorem Tracks.raw {w : Writer} {s : DnsEnc} (h : Tracks w s) {b : Bytes}
    (hroom : w.pkt.length+b.length ≤ s.pktBuf.length) :
    Tracks (w.raw b) { s with pktBuf := patch s.pktBuf w.pkt.length b } where
  pkt := by
    simp only [Writer.raw, List.length_append]
    rw [take_patch _ _ _ hroom, h.pkt]
  suffix := h.suffix
  tab := h.tab.mono (by simp [Writer.raw])

theorem fresh_comparable {tab : List Mark} (d pos : ℕ) (ls : List Bytes)
    (hgood : ∀ l ∈ ls, GoodLabel l) :
    ∀ e ∈ fresh tab d pos ls, e.offset < pos+(code tab ls).length ∧
      ∀ l ∈ e.labels, GoodLabel l := by
  induction ls generalizing pos with
  | nil => simp [fresh]
  | cons l rest ih =>
    intro e he
    rw [fresh] at he
    cases h : hit tab (l :: rest) with
    | some e' => simp [h] at he
    | none =>
      simp only [h] at he
      simp only [code_of_miss h, List.length_cons, List.length_append]
      rcases List.mem_cons.mp he with rfl | he
      · exact ⟨by simp only; omega, hgood⟩
      · obtain ⟨h1, h2⟩ := ih (pos+1+l.length) (fun l hl => hgood l (by simp [hl])) e he
        exact ⟨by omega, h2⟩

/-- `encode_name` on a name made of labels is the writer's step. -/
theorem encodeName_run {w : Writer} {s : DnsEnc} (h : Tracks w s) {ls : List Bytes}
    (hgood : ∀ l ∈ ls, GoodLabel l)
    (hroom : (w.name dnsMaxSuffix ls).pkt.length ≤ s.pktBuf.length) :
    ∃ t, encodeName w.pkt.length (some (dotted ls)) s =
        .ok (some (w.name dnsMaxSuffix ls).pkt.length) t ∧
      Tracks (w.name dnsMaxSuffix ls) t ∧ t.pktBuf.length = s.pktBuf.length ∧
      t.pktLen = s.pktLen ∧ t.pktBuf.drop (w.name dnsMaxSuffix ls).pkt.length =
        s.pktBuf.drop (w.name dnsMaxSuffix ls).pkt.length := by
  simp only [Writer.name, List.length_append] at hroom ⊢
  have hfull : s.suffix = ((w.tab ++ []).take dnsMaxSuffix).map toSuffix := by
    rw [List.append_nil, List.take_of_length_le h.tab.1, h.suffix]
  have hrun := encodeLabels_run h.tab (depthOf (reuse w.tab ls)) ls hgood (dotted ls).length
    w.pkt.length le_rfl [] (by simp) s hfull hroom
  rw [List.append_nil] at hrun
  refine ⟨_, hrun, ⟨?_, rfl, ?_⟩, length_patch _ _ _ hroom, rfl, ?_⟩
  · simp only [DnsEnc.with, List.length_append]
    rw [take_patch _ _ _ hroom, h.pkt]
  · refine ⟨by simp, fun e he => ?_⟩
    rw [List.length_append]
    rcases List.mem_append.mp (List.mem_of_mem_take he) with he | he
    · exact ⟨by have := (h.tab.2 e he).1; omega, (h.tab.2 e he).2⟩
    · exact fresh_comparable _ _ ls hgood e he
  · simp only [DnsEnc.with, patch]
    rw [List.drop_append, List.drop_eq_nil_of_le (by simp), List.nil_append, List.drop_drop]
    congr 1
    simp only [List.length_append, List.length_take]
    omega

def encodeNames : ℕ → List (Bytes × Bytes) → Enc (List ℕ × ℕ)
  | w, [] => pure ([], w)
  | w, (gap, name) :: rest => do
    putBuf w gap
    match ← encodeName (w+gap.length) (some name) with
    | none => exit (-1)
    | some w' => do
      let (starts, fin) ← encodeNames w' rest
      pure ((w+gap.length) :: starts, fin)

structure GoodName (ls : List Bytes) : Prop where
  labels : ∀ l ∈ ls, GoodLabel l
  le : (dotted ls).length ≤ dnsNameMaxstr

instance (ls : List Bytes) : Decidable (GoodName ls) :=
  decidable_of_iff ((∀ l ∈ ls, GoodLabel l) ∧ (dotted ls).length ≤ dnsNameMaxstr)
    ⟨fun h => ⟨h.1, h.2⟩, fun h => ⟨h.labels, h.le⟩⟩

theorem GoodName.code_le {ls : List Bytes} (h : GoodName ls) (tab : List Mark) :
    (code tab ls).length ≤ dnsNameMaxlen := by
  have h1 := length_code_le tab ls h.labels
  have h2 : (dotted ls).length ≤ 253 := h.le
  rw [show (dnsNameMaxlen : ℕ) = 255 from rfl]
  split_ifs at h1 <;> omega

theorem encodeNames_run {w : Writer} {s : DnsEnc} (h : Tracks w s)
    (items : List (Bytes × List Bytes)) (hgood : ∀ p ∈ items, GoodName p.2)
    (hroom : w.pkt.length+(items.map fun p => p.1.length+dnsNameMaxlen).sum ≤ s.pktBuf.length) :
    ∃ t, encodeNames w.pkt.length (items.map fun p => (p.1, dotted p.2)) s =
        .ok ((w.placed dnsMaxSuffix items).map Placed.offset,
          (w.names dnsMaxSuffix items).pkt.length) t ∧
      Tracks (w.names dnsMaxSuffix items) t := by
  induction items generalizing w s with
  | nil => exact ⟨s, rfl, h⟩
  | cons item rest ih =>
    simp only [List.map_cons, List.sum_cons] at hroom ⊢
    have hname := hgood item (by simp)
    have hcode := hname.code_le w.tab
    have hraw := h.raw (b := item.1) (by omega)
    have hlen : (w.raw item.1).pkt.length = w.pkt.length+item.1.length := by simp [Writer.raw]
    have hlen' : ((w.raw item.1).name dnsMaxSuffix item.2).pkt.length =
        w.pkt.length+item.1.length+(code w.tab item.2).length := by
      simp [Writer.name, Writer.raw]
      omega
    have hbuf : (patch s.pktBuf w.pkt.length item.1).length = s.pktBuf.length :=
      length_patch _ _ _ (by omega)
    obtain ⟨t, ht, htrack, htlen, -⟩ := encodeName_run hraw hname.labels
      (by simp only [hlen', hbuf]; omega)
    obtain ⟨u, hu, hutrack⟩ := ih htrack (fun p hp => hgood p (by simp [hp]))
      (by rw [htlen, hlen', hbuf]; omega)
    refine ⟨u, ?_, hutrack⟩
    rw [encodeNames, bind_of_ok (putBuf_run (by omega)), ← hlen, bind_of_ok ht]
    dsimp only
    rw [bind_of_ok hu]
    rfl

end DnsPkt.NameEncoder
