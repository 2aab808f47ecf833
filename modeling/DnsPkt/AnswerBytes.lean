import Mathlib.Data.List.GetD
import DnsPkt.AnswerArguments
import DnsPkt.ResponseOptions

/-!
# The bytes that an answer leaves

The buffer of `add_sect` holds what was on the stack. A text that stops the decoder
at a fourth digit, or an IPv6 text behind a single colon, leaves some bytes of
its address as they were there. Every other answer fills in all that is read.
-/

set_option autoImplicit false

namespace DnsPkt.AnswerBytes
open DnsPkt.Octets DnsPkt.StepMachine DnsPkt.Protocol DnsPkt.MessageStore DnsPkt.AddressText
open DnsPkt.AddressRoundTrip DnsPkt.QuadText DnsPkt.ColonText DnsPkt.AddressBounds
open DnsPkt.AddressGrammar DnsPkt.AddressScan DnsPkt.AddressMeaning DnsPkt.AnswerArguments
open DnsPkt.ResponseOptions

/-- No row of four digits ends the address early, neither that of the whole text nor that behind
the last colon, and without a double colon no group is left out. -/
structure Filled (s : Bytes) : Prop where
  quad : ∀ os, ¬Overlong s os
  tail : ∀ r, Reads s r → Taken r → r.rest.head? = some 46 → ∀ os, ¬Overlong (r.ending.drop 1) os
  front : ∀ r, Reads s r → Taken r → Undoubled r.segs → ∀ u ∈ r.segs, u.digits ≠ []

section Text

variable {s m : Bytes} {r : Reading}

/-- Of a text with a colon behind its first digits the first decoder stores nothing. -/
theorem ip4_colon_kept (hr : Reads s r) (hsegs : r.segs ≠ []) (hover : ∀ os, ¬Overlong s os) :
    ip4StrDecode s m = (0, m) := by
  have hstart : s.drop 0 = s := rfl
  rcases octet_cases s with ⟨ds, tl, hs, hn, hlen, hv⟩ | ⟨ds, ch, tl, hs, hds, hlen, hch⟩ |
      ⟨ds, tl, hs, hn, hlen, hv, hstop⟩
  · obtain ⟨j, hj⟩ := ip4_over (o := (0, m)) (m := patch m 0 []) (q := 0) (n := 0) (k := 0) (a := 0)
      ds (hstart.trans hs) hn (by omega) (by omega) hv
    rw [ip4StrDecode_ends hj, patch_nil]
  · exact absurd ⟨ds, ch, tl, by simp, by simp, hds, hlen, hch, hs⟩ (hover [])
  · obtain ⟨u, us, hcons⟩ := List.exists_cons_of_ne_nil hsegs
    have htext := hr.text
    rw [hcons, segsText_cons, List.append_assoc, List.cons_append] at htext
    have hdot : ∀ ch ∈ tl.head?, isNumeral ch = false ∧ ch ≠ 46 := by
      intro ch hch
      refine ⟨hstop ch hch, ?_⟩
      rintro rfl
      obtain ⟨tl, rfl⟩ := List.head?_eq_some_iff.mp hch
      have hspan := span_unique (fun ch hch => numeral_hex (hn ch hch))
        (hr.segs u (by rw [hcons]; exact List.mem_cons_self ..)) (by simp [dot_not_hex])
        (by simp [colon_not_hex]) (hs.symm.trans htext)
      cases hspan.2
    obtain ⟨j, hj⟩ := ip4_stop (o := (0, m)) (m := m) (w := []) ds (hstart.trans hs) hn hlen hv
      (Nat.zero_le _) hdot
    rw [ip4StrDecode_ends hj, if_pos (Or.inl (by simp)), patch_nil]

theorem length_layout {g : Option ℕ} {w : Bytes} (hg : ∀ i ∈ g, i ≤ w.length) (hw : w.length ≤ 16)
    (hm : m.length = 16) : (layout g w m).length = 16 := by
  cases g with
  | none =>
    rw [layout, Option.elim_none, length_patch _ _ _ (by omega), hm]
  | some i =>
    have hi := hg i rfl
    simp only [layout, Option.elim_some, spread, List.take_append_drop, List.length_append,
      List.length_replicate, List.length_take, List.length_drop]
    omega

theorem length_segsBytes_full (us : List Segment) :
    (segsBytes us).length = 2*us.length ↔ ∀ u ∈ us, u.digits ≠ [] := by
  rw [length_segsBytes]
  have hcount : us.countP (fun u => u.digits ≠ []) = us.length ↔ ∀ u ∈ us, u.digits ≠ [] := by
    rw [List.countP_eq_length]
    simp
  rw [← hcount]
  omega

structure Stores (s : Bytes) (r : Reading) (v : Bytes) : Prop where
  runs : ∃ n, n ≠ 0 ∧ ∀ m : Bytes, m.length = 16 →
    ip6StrDecode s m = (n, layout (gapAt r.segs 0) (segsBytes r.segs ++ v) m)
  fits : (segsBytes r.segs ++ v).length ≤ 16
  full : Undoubled r.segs →
    ((segsBytes r.segs ++ v).length = 16 ↔ ∀ u ∈ r.segs, u.digits ≠ [])

theorem taken_stores (hr : Reads s r) (ht : Taken r) (hlen : s.length < 2^64)
    (htail : r.rest.head? = some 46 → ∀ os, ¬Overlong (r.ending.drop 1) os) :
    ∃ v, Stores s r v := by
  have hpos := length_segsText_pos ht
  have hroom := segs_room ht.passes
  have hfull := length_segsBytes_full r.segs
  by_cases hdot : r.rest.head? = some 46
  · obtain ⟨h6, hu, hend⟩ := ht.quad hdot
    obtain ⟨os, k, hq⟩ := hend.resolve_right fun ⟨os, ho⟩ => htail hdot os ho
    have hos : (os.map octetOf).length = 4 := by rw [List.length_map, (QuadFront.isQuad hq).1]
    refine ⟨os.map octetOf, ⟨_, ?_, fun m hm => taken_quad hr ht hdot hq hlen hm⟩, ?_,
      fun hun => ?_⟩
    · omega
    · rw [List.length_append]
      omega
    · have hsegs := hu hun
      rw [← hfull, List.length_append]
      omega
  · have hlast : (groupOf r.last).length = 2*if r.last ≠ [] then 1 else 0 := by
      rw [length_groupOf]
      split_ifs <;> rfl
    have hle := length_groupOf_le r.last
    refine ⟨groupOf r.last, ⟨_, ?_, fun m hm => taken_plain hr ht hdot hm⟩, ?_, fun hun => ?_⟩
    · omega
    · rw [List.length_append]
      omega
    · have hsegs := ht.plain hdot hun
      rw [← hfull, List.length_append]
      omega

theorem layout_fits {v : Bytes} (hfits : (segsBytes r.segs ++ v).length ≤ 16) (hm : m.length = 16) :
    (layout (gapAt r.segs 0) (segsBytes r.segs ++ v) m).length = 16 := by
  refine length_layout (fun i hi => ?_) hfits hm
  have := gap_within i hi
  rw [List.length_append]
  omega

/-- An accepted text stores sixteen bytes. -/
theorem taken_address (hr : Reads s r) (ht : Taken r) (hlen : s.length < 2^64)
    (hm : m.length = 16) :
    (ip6StrDecode s m).1 ≠ 0 ∧ (ip6StrDecode s m).2.length = 16 := by
  by_cases htail : r.rest.head? = some 46 ∧ ∃ os, Overlong (r.ending.drop 1) os
  · obtain ⟨hdot, os, hq⟩ := htail
    have hpos := length_segsText_pos ht
    have hroom := segs_room ht.passes
    have h6 := (ht.quad hdot).1
    have ho : os.length ≤ 3 := by
      obtain ⟨-, -, -, ho, -⟩ := hq
      exact ho
    have hquad := length_staleQuad ho hm (w := segsBytes r.segs) (by omega)
    rw [taken_stale hr ht hdot hq hlen hm]
    refine ⟨hpos.ne', layout_fits ?_ hm⟩
    rw [List.length_append]
    omega
  · obtain ⟨v, ⟨n, hn, hrun⟩, hfits, -⟩ := taken_stores hr ht hlen
      fun hdot os hq => htail ⟨hdot, os, hq⟩
    rw [hrun m hm]
    exact ⟨hn, layout_fits hfits hm⟩

/-- A filled text gives one address, whatever was stored before. -/
theorem filled_address (h : Filled s) (hr : Reads s r) (ht : Taken r) (hlen : s.length < 2^64)
    {m' : Bytes} (hm : m.length = 16) (hm' : m'.length = 16) :
    ip6StrDecode s m = ip6StrDecode s m' := by
  obtain ⟨v, ⟨n, hn, hrun⟩, hfits, hfull⟩ := taken_stores hr ht hlen (h.tail r hr ht)
  rw [hrun m hm, hrun m' hm']
  refine congrArg (Prod.mk n) (layout_same (fun hgap => ?_) hm hm')
  have hun := gapAt_eq_none.mp hgap
  exact (hfull hun).mpr (h.front r hr ht hun)

/-- The last byte of another one is what was stored before. -/
theorem unfilled_address (hr : Reads s r) (ht : Taken r) (hlen : s.length < 2^64)
    (hno : (r.rest.head? = some 46 ∧ ∃ os, Overlong (r.ending.drop 1) os) ∨
      Undoubled r.segs ∧ ∃ u ∈ r.segs, u.digits = []) (c : UInt8) :
    (ip6StrDecode s (List.replicate 16 c)).2.getLast? = some c := by
  have hm : (List.replicate 16 c).length = 16 := List.length_replicate
  by_cases htail : r.rest.head? = some 46 ∧ ∃ os, Overlong (r.ending.drop 1) os
  · obtain ⟨hdot, os, hq⟩ := htail
    have hroom := segs_room ht.passes
    have h6 := (ht.quad hdot).1
    have ho : os.length ≤ 3 := by
      obtain ⟨-, -, -, ho, -⟩ := hq
      exact ho
    rw [taken_stale hr ht hdot hq hlen hm]
    exact getLast?_layout gap_within (getLast?_staleQuad ho (by omega) c)
  · obtain ⟨hun, u, hu, hdigits⟩ := hno.resolve_left htail
    obtain ⟨v, ⟨n, hn, hrun⟩, hfits, hfull⟩ := taken_stores hr ht hlen
      fun hdot os hq => htail ⟨hdot, os, hq⟩
    have hshort : (segsBytes r.segs ++ v).length < 16 :=
      lt_of_le_of_ne hfits fun h => (hfull hun).mp h u hu hdigits
    obtain ⟨k, hk⟩ : ∃ k, 16-(segsBytes r.segs ++ v).length = k+1 :=
      ⟨16-(segsBytes r.segs ++ v).length-1, by omega⟩
    rw [hrun _ hm, gapAt_eq_none.mpr hun, layout, Option.elim_none, patch, List.take_zero,
      List.nil_append, Nat.zero_add, List.drop_replicate, hk, List.replicate_succ',
      ← List.append_assoc, List.getLast?_concat]

end Text

def readAnswer (name : Bytes) (tmp : AnswerBuf) : ℕ × Rdata Str :=
  let r := ipstrDecode name tmp.toList (dnsNameMaxlen+1)
  (r.1, tmpRdata r.1 r.2)

def quadOf (b : Bytes) : Rdata Str :=
  { zeroRdata none with a := Vector.ofFn fun i : Fin 4 => b.getD i 0 }

def addressOf (b : Bytes) : Rdata Str :=
  { zeroRdata none with aaaa := Vector.ofFn fun i : Fin 16 => b.getD i 0 }

def nameOf (b : Bytes) : Rdata Str :=
  { zeroRdata none with cname := some ⟨cstr b, zero_notMem_cstr b⟩ }

theorem quadOf_append {b : Bytes} (hb : b.length = 4) (x : Bytes) : quadOf (b ++ x) = quadOf b := by
  have hget : (fun i : Fin 4 => (b ++ x).getD i 0) = fun i : Fin 4 => b.getD i 0 :=
    funext fun i => List.getD_append _ _ _ _ (by omega)
  rw [quadOf, quadOf, hget]

theorem addressOf_append {b : Bytes} (hb : b.length = 16) (x : Bytes) :
    addressOf (b ++ x) = addressOf b := by
  have hget : (fun i : Fin 16 => (b ++ x).getD i 0) = fun i : Fin 16 => b.getD i 0 :=
    funext fun i => List.getD_append _ _ _ _ (by omega)
  rw [addressOf, addressOf, hget]

section Answer

variable {s : Bytes} {r : Reading} {os : List Bytes} {k : ℕ}

theorem length_buf (tmp : AnswerBuf) : tmp.toList.length = 256 := by simp

theorem length_front (tmp : AnswerBuf) : (tmp.toList.take 16).length = 16 := by
  have hbuf := length_buf tmp
  rw [List.length_take]
  omega

theorem readAnswer_quad (h : QuadFront s os k) (tmp : AnswerBuf) :
    readAnswer s tmp = (dnsTypeA, quadOf (os.map octetOf)) := by
  have hos : (os.map octetOf).length = 4 := by rw [List.length_map, (QuadFront.isQuad h).1]
  have hbuf := length_buf tmp
  rw [readAnswer, ipstrDecode_quad h (by omega), ← quadOf_append hos]
  rfl

theorem readAnswer_overlong (h : Overlong s os) (tmp : AnswerBuf) :
    readAnswer s tmp =
      (dnsTypeA, quadOf (os.map octetOf ++ (tmp.toList.take 4).drop os.length)) := by
  have hbuf := length_buf tmp
  have htake : (tmp.toList.take 4).length = 4 := by
    rw [List.length_take]
    omega
  have hl : os.length ≤ 3 := by
    obtain ⟨-, -, -, hl, -⟩ := h
    exact hl
  have hpatch : patch (tmp.toList.take 4) 0 (os.map octetOf) =
      os.map octetOf ++ (tmp.toList.take 4).drop os.length := by simp [patch]
  have hfour : (os.map octetOf ++ (tmp.toList.take 4).drop os.length).length = 4 := by
    simp only [List.length_append, List.length_map, List.length_drop, htake]
    omega
  have hdecode : ipstrDecode s tmp.toList (dnsNameMaxlen+1) = (dnsTypeA,
      os.map octetOf ++ (tmp.toList.take 4).drop os.length ++ tmp.toList.drop 4) := by
    rw [ipstrDecode, ip4StrDecode_overlong h htake.ge, hpatch]
    exact if_pos (by simp [sizeMax])
  rw [readAnswer, hdecode, ← quadOf_append hfour]
  rfl

theorem readAnswer_colons (hover : ∀ os, ¬Overlong s os) (hr : Reads s r) (ht : Taken r)
    (hlen : s.length < 2^64) (tmp : AnswerBuf) : readAnswer s tmp =
      (dnsTypeAaaa, addressOf (ip6StrDecode s (tmp.toList.take 16)).2) := by
  obtain ⟨hn, haddr⟩ := taken_address hr ht hlen (length_front tmp)
  have hdecode : ipstrDecode s tmp.toList (dnsNameMaxlen+1) =
      (dnsTypeAaaa, (ip6StrDecode s (tmp.toList.take 16)).2 ++ tmp.toList.drop 16) := by
    rw [ipstrDecode, ip4_colon_kept hr (taken_segs ht) hover]
    simp only [List.take_append_drop, ne_eq, not_true_eq_false, if_false, hn, not_false_eq_true,
      if_true]
  rw [readAnswer, hdecode, ← addressOf_append haddr]
  rfl

theorem readAnswer_name (hlen : s.length ≤ dnsNameMaxstr) (hover : ∀ os, ¬Overlong s os)
    (hfront : ∀ os k, ¬QuadFront s os k) (hr : Reads s r) (ht : ¬Taken r) (tmp : AnswerBuf) :
    readAnswer s tmp = (dnsTypeCname, nameOf s) := by
  have hs : s.length ≤ 253 := hlen
  have hbuf := length_buf tmp
  have hzero : (ip4StrDecode s (tmp.toList.take 4)).1 = 0 := by
    rcases ip4_cases s (tmp.toList.take 4) (by rw [List.length_take]; omega) with
      ⟨m', hz⟩ | ⟨os, ho⟩ | ⟨os, k, hq⟩
    · rw [hz]
    · exact absurd ho (hover os)
    · exact absurd hq (hfront os k)
  obtain ⟨m, m', hm, hres⟩ := ipstrDecode_refused (n := dnsNameMaxlen+1)
    (by omega : 16 ≤ tmp.toList.length) hzero
  have hroom : ¬dnsNameMaxlen+1 < s.length+1 := by
    simp only [dnsNameMaxlen]
    omega
  have hcstr : cstr (patch m' 0 (s ++ [0])) = cstr s := by
    rw [patch, List.take_zero, List.nil_append, List.append_assoc]
    exact cstr_append_zero s _
  rw [if_neg (by simpa using not_taken hr ht (by omega) hm), sliceTocstr, if_neg hroom,
    Option.elim_some] at hres
  have hrdata : tmpRdata dnsTypeCname (patch m' 0 (s ++ [0])) = nameOf s := by
    simp only [tmpRdata, nameOf, hcstr]
    rfl
  rw [readAnswer, hres]
  exact congrArg (Prod.mk dnsTypeCname) hrdata

/-- What an answer can be. -/
theorem answer_cases (s : Bytes) : (∃ os k, QuadFront s os k) ∨ (∃ os, Overlong s os) ∨
    ∃ r, Reads s r ∧ (∀ os, ¬Overlong s os) ∧ (∀ os k, ¬QuadFront s os k) := by
  by_cases hq : ∃ os k, QuadFront s os k
  · exact .inl hq
  by_cases ho : ∃ os, Overlong s os
  · exact .inr (.inl ho)
  obtain ⟨r, hr⟩ := reads_total s
  exact .inr (.inr ⟨r, hr, fun os h => ho ⟨os, h⟩, fun os k h => hq ⟨os, k, h⟩⟩)

/-- What was stored before has no say in the type, nor in a name. -/
theorem readAnswer_type (hlen : s.length ≤ dnsNameMaxstr) :
    (∀ tmp, (readAnswer s tmp).1 = dnsTypeA) ∨ (∀ tmp, (readAnswer s tmp).1 = dnsTypeAaaa) ∨
      ∀ tmp, readAnswer s tmp = (dnsTypeCname, nameOf s) := by
  have hs : s.length ≤ 253 := hlen
  rcases answer_cases s with ⟨os, k, hq⟩ | ⟨os, ho⟩ | ⟨r, hr, hover, hfront⟩
  · exact .inl fun tmp => by rw [readAnswer_quad hq]
  · exact .inl fun tmp => by rw [readAnswer_overlong ho]
  · by_cases ht : Taken r
    · exact .inr (.inl fun tmp => by rw [readAnswer_colons hover hr ht (by omega)])
    · exact .inr (.inr (readAnswer_name hlen hover hfront hr ht))

theorem readAnswer_filled (h : Filled s) (hlen : s.length ≤ dnsNameMaxstr) (tmp tmp' : AnswerBuf) :
    readAnswer s tmp = readAnswer s tmp' := by
  have hs : s.length ≤ 253 := hlen
  rcases answer_cases s with ⟨os, k, hq⟩ | ⟨os, ho⟩ | ⟨r, hr, hover, hfront⟩
  · rw [readAnswer_quad hq, readAnswer_quad hq]
  · exact absurd ho (h.quad os)
  · by_cases ht : Taken r
    · rw [readAnswer_colons hover hr ht (by omega), readAnswer_colons hover hr ht (by omega),
        filled_address h hr ht (by omega) (length_front tmp) (length_front tmp')]
    · rw [readAnswer_name hlen hover hfront hr ht, readAnswer_name hlen hover hfront hr ht]

def flatBuf (c : UInt8) : AnswerBuf := Vector.replicate _ c

theorem quadOf_last {b : Bytes} {c : UInt8} (h : b.getD 3 0 = c) : (quadOf b).a[3] = c := by
  simpa [quadOf] using h

theorem addressOf_last {b : Bytes} {c : UInt8} (hb : b.length = 16) (h : b.getLast? = some c) :
    (addressOf b).aaaa[15] = c := by
  rw [List.getLast?_eq_getElem?, hb] at h
  simp [addressOf, h]

/-- An answer that is not filled shows what was stored before. -/
theorem readAnswer_unfilled (h : ¬Filled s) (hlen : s.length ≤ dnsNameMaxstr) :
    (∀ c, (readAnswer s (flatBuf c)).1 = dnsTypeA ∧ (readAnswer s (flatBuf c)).2.a[3] = c) ∨
      ∀ c, (readAnswer s (flatBuf c)).1 = dnsTypeAaaa ∧
        (readAnswer s (flatBuf c)).2.aaaa[15] = c := by
  have hs : s.length ≤ 253 := hlen
  by_cases hover : ∃ os, Overlong s os
  · obtain ⟨os, ho⟩ := hover
    refine .inl fun c => ?_
    rw [readAnswer_overlong ho]
    refine ⟨rfl, quadOf_last ?_⟩
    obtain ⟨-, -, -, hl, -⟩ := ho
    have hflat : ((flatBuf c).toList.take 4).drop os.length = List.replicate (4-os.length) c := by
      rw [flatBuf, Vector.toList_replicate, List.take_replicate, List.drop_replicate]
      rfl
    rw [hflat, List.getD_append_right _ _ _ _ (by simpa using hl), List.length_map]
    simp only [List.getD_eq_getElem?_getD, List.getElem?_replicate]
    rw [if_pos (by omega), Option.getD_some]
  · have hno : ∃ r, Reads s r ∧ Taken r ∧
        ((r.rest.head? = some 46 ∧ ∃ os, Overlong (r.ending.drop 1) os) ∨
          Undoubled r.segs ∧ ∃ u ∈ r.segs, u.digits = []) := by
      by_contra hnone
      refine h ⟨fun os ho => hover ⟨os, ho⟩, fun r hr ht hdot os ho => ?_,
        fun r hr ht hun u hu hd => ?_⟩
      · exact hnone ⟨r, hr, ht, .inl ⟨hdot, os, ho⟩⟩
      · exact hnone ⟨r, hr, ht, .inr ⟨hun, u, hu, hd⟩⟩
    obtain ⟨r, hr, ht, hbad⟩ := hno
    refine .inr fun c => ?_
    have hflat : (flatBuf c).toList.take 16 = List.replicate 16 c := by
      rw [flatBuf, Vector.toList_replicate, List.take_replicate]
      rfl
    rw [readAnswer_colons (fun os ho => hover ⟨os, ho⟩) hr ht (by omega), hflat]
    have hlast := unfilled_address hr ht (by omega) hbad c
    obtain ⟨-, hsize⟩ := taken_address hr ht (by omega) (List.length_replicate (a := c))
    exact ⟨rfl, addressOf_last hsize hlast⟩

theorem filled_quad (h : QuadFront s os k) : Filled s := by
  have hm : (List.replicate 4 (0 : UInt8)).length = 4 := rfl
  have hsegs {r : Reading} (hr : Reads s r) (ht : Taken r) : False :=
    absurd (front_segs hr h) (taken_segs ht)
  refine ⟨fun os' ho => ?_, fun r hr ht => (hsegs hr ht).elim, fun r hr ht => (hsegs hr ht).elim⟩
  have hle := h.le
  have heq := (ip4StrDecode_front h hm.ge).symm.trans (ip4StrDecode_overlong ho hm.ge)
  have hcount := congrArg Prod.fst heq
  simp only [sizeMax] at hcount
  omega

end Answer

end DnsPkt.AnswerBytes
