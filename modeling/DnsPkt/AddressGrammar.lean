import DnsPkt.ColonText
import DnsPkt.QuadText

/-!
# The texts of IPv6 addresses

An address is eight groups of one to four hexadecimal digits with colons
between them. The last two groups may be a dotted quad, and one or more groups
of zeros may be a double colon, once. The relation between the texts and the
addresses is given for itself and then told from the reading of a text.
-/

set_option autoImplicit false

namespace DnsPkt.AddressGrammar
open DnsPkt.Octets DnsPkt.AddressText DnsPkt.AddressNotation DnsPkt.AddressRoundTrip
open DnsPkt.QuadText DnsPkt.ColonText

def IsGroup (ds : Bytes) : Prop := ds ≠ [] ∧ ds.length ≤ 4 ∧ ∀ ch ∈ ds, isHex ch = true

def groupOf (ds : Bytes) : Bytes := if ds = [] then [] else encU16 (UInt16.ofNat (hexOf 0 ds))

def groupsOf (gs : List Bytes) : Bytes := gs.flatMap groupOf

def IsQuad (os : List Bytes) : Prop := os.length = 4 ∧ ∀ o ∈ os, IsOctet o

def quadText (os : List Bytes) : Bytes := [46].intercalate os

inductive Piece : Bytes → Bytes → Prop where
  | group {ds : Bytes} (h : IsGroup ds) : Piece ds (groupOf ds)
  | quad {os : List Bytes} (h : IsQuad os) : Piece (quadText os) (os.map octetOf)

def spread (a b : Bytes) : Bytes := a ++ List.replicate (16-(a ++ b).length) 0 ++ b

inductive Denotes : Bytes → Bytes → Prop where
  | full {gs : List Bytes} {e v : Bytes} (hgs : ∀ g ∈ gs, IsGroup g) (he : Piece e v)
      (hsize : (groupsOf gs ++ v).length = 16) :
      Denotes (colon.intercalate (gs ++ [e])) (groupsOf gs ++ v)
  | gap {gs hs : List Bytes} {e v : Bytes} (hgs : ∀ g ∈ gs, IsGroup g) (hhs : ∀ g ∈ hs, IsGroup g)
      (he : Piece e v) (hsize : (groupsOf gs ++ (groupsOf hs ++ v)).length ≤ 14) :
      Denotes (colon.intercalate gs ++ [58, 58] ++ colon.intercalate (hs ++ [e]))
        (spread (groupsOf gs) (groupsOf hs ++ v))
  | openEnd {gs : List Bytes} (hgs : ∀ g ∈ gs, IsGroup g) (hsize : (groupsOf gs).length ≤ 14) :
      Denotes (colon.intercalate gs ++ [58, 58]) (spread (groupsOf gs) [])

def segsBytes (us : List Segment) : Bytes := us.flatMap fun u => groupOf u.digits

def Singles (us : List Segment) : Prop := ∀ u ∈ us, u.double = false ∧ IsGroup u.digits

theorem segsBytes_append (us vs : List Segment) :
    segsBytes (us ++ vs) = segsBytes us ++ segsBytes vs := by
  simp [segsBytes]

theorem groupsOf_digits (us : List Segment) : groupsOf (us.map Segment.digits) = segsBytes us := by
  simp [groupsOf, segsBytes, List.flatMap_map]

theorem intercalate_digits {us : List Segment} (hus : ∀ u ∈ us, u.double = false) (e : Bytes) :
    colon.intercalate (us.map Segment.digits ++ [e]) = segsText us ++ e := by
  induction us with
  | nil => simp [segsText]
  | cons u us ih =>
    rw [List.map_cons, List.cons_append, List.intercalate_cons_of_ne_nil (by simp),
      ih fun v hv => hus v (by simp [hv]), segsText_cons, hus u (by simp)]
    simp [colon]

theorem singles_of_groups {gs : List Bytes} (h : ∀ g ∈ gs, IsGroup g) :
    ∃ us, Singles us ∧ gs = us.map Segment.digits := by
  refine ⟨gs.map fun g => ⟨g, false⟩, ?_, by simp [Function.comp_def]⟩
  intro u hu
  obtain ⟨g, hg, rfl⟩ := List.mem_map.mp hu
  exact ⟨rfl, h g hg⟩

theorem Singles.groups {us : List Segment} (h : Singles us) :
    ∀ g ∈ us.map Segment.digits, IsGroup g := by
  intro g hg
  obtain ⟨u, hu, rfl⟩ := List.mem_map.mp hg
  exact (h u hu).2

/-- The groups in front of a double colon: there are none only where the text begins with it. -/
def Front (us : List Segment) (ds : Bytes) : Prop :=
  Singles us ∧ (ds = [] → us = []) ∧ (ds ≠ [] → IsGroup ds)

theorem front_text {us : List Segment} {ds : Bytes} (h : Front us ds) :
    ∃ gs, (∀ g ∈ gs, IsGroup g) ∧ groupsOf gs = segsBytes (us ++ [⟨ds, true⟩]) ∧
      colon.intercalate gs ++ [58, 58] = segsText (us ++ [⟨ds, true⟩]) := by
  obtain ⟨hus, hnil, hds⟩ := h
  by_cases hd : ds = []
  · rw [hd, hnil hd]
    exact ⟨[], by simp, rfl, rfl⟩
  · refine ⟨us.map Segment.digits ++ [ds], ?_, ?_, ?_⟩
    · intro g hg
      rcases List.mem_append.mp hg with hg | hg
      · exact hus.groups g hg
      · rw [List.mem_singleton.mp hg]
        exact hds hd
    · rw [segsBytes_append, ← groupsOf_digits us]
      simp [groupsOf, segsBytes]
    · rw [intercalate_digits (fun u hu => (hus u hu).1), segsText_append]
      simp [segsText, Segment.text]

theorem front_of_groups {gs : List Bytes} (h : ∀ g ∈ gs, IsGroup g) :
    ∃ us ds, Front us ds ∧ groupsOf gs = segsBytes (us ++ [⟨ds, true⟩]) ∧
      colon.intercalate gs ++ [58, 58] = segsText (us ++ [⟨ds, true⟩]) := by
  rcases List.eq_nil_or_concat gs with rfl | ⟨init, g, rfl⟩
  · exact ⟨[], [], ⟨by simp [Singles], by simp, by simp⟩, rfl, rfl⟩
  · rw [List.concat_eq_append] at h ⊢
    have hinit : ∀ x ∈ init, IsGroup x := fun x hx => h x (by simp [hx])
    obtain ⟨us, hus, rfl⟩ := singles_of_groups hinit
    have hg := h g (by simp)
    refine ⟨us, g, ⟨hus, fun hnil => absurd hnil hg.1, fun _ => hg⟩, ?_, ?_⟩
    · rw [segsBytes_append, ← groupsOf_digits us]
      simp [groupsOf, segsBytes]
    · rw [intercalate_digits (fun u hu => (hus u hu).1), segsText_append]
      simp [segsText, Segment.text]

def Close (us : List Segment) (e v : Bytes) : Prop := Piece e v ∨ us = [] ∧ e = [] ∧ v = []

theorem denotes_iff (s addr : Bytes) : Denotes s addr ↔
    (∃ us e v, Singles us ∧ Piece e v ∧ (segsBytes us ++ v).length = 16 ∧
      s = segsText us ++ e ∧ addr = segsBytes us ++ v) ∨
    ∃ us ds ws e v, Front us ds ∧ Singles ws ∧ Close ws e v ∧
      (segsBytes (us ++ [⟨ds, true⟩]) ++ (segsBytes ws ++ v)).length ≤ 14 ∧
      s = segsText (us ++ ⟨ds, true⟩ :: ws) ++ e ∧
      addr = spread (segsBytes (us ++ [⟨ds, true⟩])) (segsBytes ws ++ v) := by
  constructor
  · intro h
    cases h with
    | full hgs he hsize =>
      obtain ⟨us, hus, rfl⟩ := singles_of_groups hgs
      rw [groupsOf_digits] at hsize ⊢
      exact .inl ⟨us, _, _, hus, he, hsize, intercalate_digits (fun u hu => (hus u hu).1) _, rfl⟩
    | gap hgs hhs he hsize =>
      obtain ⟨us, ds, hf, hb, ht⟩ := front_of_groups hgs
      obtain ⟨ws, hws, rfl⟩ := singles_of_groups hhs
      rw [hb, groupsOf_digits] at hsize ⊢
      refine .inr ⟨us, ds, ws, _, _, hf, hws, .inl he, hsize, ?_, rfl⟩
      rw [ht, intercalate_digits (fun u hu => (hws u hu).1), ← List.append_assoc,
        ← segsText_append, List.append_assoc, List.singleton_append]
    | openEnd hgs hsize =>
      obtain ⟨us, ds, hf, hb, ht⟩ := front_of_groups hgs
      rw [hb] at hsize ⊢
      exact .inr ⟨us, ds, [], [], [], hf, by simp [Singles], .inr ⟨rfl, rfl, rfl⟩,
        by simpa [segsBytes] using hsize, by rw [ht, List.append_nil], rfl⟩
  · rintro (⟨us, e, v, hus, he, hsize, rfl, rfl⟩ | ⟨us, ds, ws, e, v, hf, hws, he, hsize, rfl, rfl⟩)
    · rw [← groupsOf_digits] at hsize ⊢
      rw [← intercalate_digits fun u hu => (hus u hu).1]
      exact .full hus.groups he hsize
    · obtain ⟨gs, hgs, hb, ht⟩ := front_text hf
      have hsplit : segsText (us ++ ⟨ds, true⟩ :: ws) = segsText (us ++ [⟨ds, true⟩]) ++
        segsText ws := by
        rw [← segsText_append, List.append_assoc, List.singleton_append]
      rw [hsplit, ← ht, ← hb]
      rw [← hb] at hsize
      rcases he with he | ⟨rfl, rfl, rfl⟩
      · rw [List.append_assoc _ (segsText ws), ← intercalate_digits (fun u hu => (hws u hu).1)]
        rw [← groupsOf_digits] at hsize ⊢
        exact .gap hgs hws.groups he hsize
      · rw [show segsText [] = [] from rfl, List.append_nil, List.append_nil]
        exact .openEnd hgs (by simpa [segsBytes] using hsize)

def EndValue (r : Reading) (v : Bytes) : Prop :=
  r.rest = [] ∧ v = groupOf r.last ∨ ∃ os, IsQuad os ∧ r.ending = quadText os ∧ v = os.map octetOf

/-- The number of groups that are written out, with two for a dotted quad. -/
def size (r : Reading) : ℕ :=
  r.segs.countP (fun u => u.digits ≠ []) + if r.rest ≠ [] then 2 else if r.last ≠ [] then 1 else 0

/-- No colon stands alone at the beginning or the end, no three of them in a row, a double
colon stands for one group at least, and the text is read to its end. -/
structure Formed (r : Reading) : Prop where
  front : ∀ u ∈ r.segs.head?, u.digits = [] → u.double = true
  inner : ∀ u ∈ r.segs.tail, u.digits ≠ []
  back : r.ending = [] → ∀ u ∈ r.segs.getLast?, u.double = true
  gap : (∃ u ∈ r.segs, u.double = true) → size r ≤ 7
  whole : r.rest = [] ∨ ∃ os, IsQuad os ∧ r.ending = quadText os

def Undoubled (us : List Segment) : Prop := ∀ u ∈ us, u.double = false

def gapAt : List Segment → ℕ → Option ℕ
  | [], _ => none
  | u :: us, n =>
    let n := n+(groupOf u.digits).length
    if u.double then some n else gapAt us n

/-- The address of the bytes `w` with the gap at the given place, over the old bytes. -/
def layout (g : Option ℕ) (w m : Bytes) : Bytes :=
  g.elim (patch m 0 w) fun q => spread (w.take q) (w.drop q)

theorem gapAt_undoubled {us : List Segment} (h : Undoubled us) (n : ℕ) : gapAt us n = none := by
  induction us generalizing n with
  | nil => rfl
  | cons u us ih =>
    simp only [gapAt, h u (by simp), Bool.false_eq_true, ↓reduceIte]
    exact ih (fun v hv => h v (by simp [hv])) _

theorem gapAt_doubled {us : List Segment} (h : Undoubled us) (ds : Bytes) (ws : List Segment)
    (n : ℕ) : gapAt (us ++ ⟨ds, true⟩ :: ws) n =
      some (n+(segsBytes (us ++ [⟨ds, true⟩])).length) := by
  induction us generalizing n with
  | nil => simp [gapAt, segsBytes]
  | cons u us ih =>
    simp only [List.cons_append, gapAt, h u (by simp), Bool.false_eq_true, ↓reduceIte]
    rw [ih fun v hv => h v (by simp [hv])]
    simp [segsBytes]
    omega

theorem layout_gap (a b m : Bytes) : layout (some a.length) (a ++ b) m = spread a b := by
  simp [layout]

theorem layout_full {w m : Bytes} (hw : w.length = 16) (hm : m.length = 16) :
    layout none w m = w := by
  rw [layout, Option.elim_none, patch, List.take_zero, List.nil_append,
    List.drop_eq_nil_of_le (by omega), List.append_nil]

theorem length_groupOf (ds : Bytes) : (groupOf ds).length = if ds ≠ [] then 2 else 0 := by
  by_cases h : ds = [] <;> simp [groupOf, h]

theorem length_segsBytes (us : List Segment) :
    (segsBytes us).length = 2*us.countP (fun u => u.digits ≠ []) := by
  induction us with
  | nil => rfl
  | cons u us ih =>
    rw [segsBytes, List.flatMap_cons, List.length_append, List.countP_cons, length_groupOf]
    rw [segsBytes] at ih
    by_cases h : u.digits = []
    · simp [h, ih]
    · simp only [h, ih, ne_eq, not_false_eq_true, decide_true, ↓reduceIte]
      omega

theorem quad_four {os : List Bytes} (h : IsQuad os) : ∃ a b c d, os = [a, b, c, d] := by
  obtain ⟨a, rest, rfl⟩ := List.exists_cons_of_length_eq_add_one h.1
  obtain ⟨b, c, d, rfl⟩ := List.length_eq_three.mp (Nat.succ.inj h.1)
  exact ⟨a, b, c, d, rfl⟩

theorem dot_mem_quadText {os : List Bytes} (h : IsQuad os) : (46 : UInt8) ∈ quadText os := by
  obtain ⟨a, b, c, d, rfl⟩ := quad_four h
  simp [quadText, List.intercalate_cons_cons]

theorem EndValue.length {s v : Bytes} {r : Reading} (h : Reads s r) (hv : EndValue r v) :
    (segsBytes r.segs ++ v).length = 2*size r := by
  rw [List.length_append, length_segsBytes, size]
  rcases hv with ⟨hrest, rfl⟩ | ⟨os, hos, he, rfl⟩
  · rw [hrest, length_groupOf]
    by_cases hl : r.last = []
    · simp [hl]
    · simp only [hl, ne_eq, not_true_eq_false, not_false_eq_true, ↓reduceIte]
      omega
  · have hrest : r.rest ≠ [] := by
      intro hnil
      have hmem := dot_mem_quadText hos
      rw [← he, Reading.ending, hnil, List.append_nil] at hmem
      have := h.last 46 hmem
      rw [dot_not_hex] at this
      cases this
    rw [if_pos hrest, List.length_map, hos.1]
    omega

/-- A piece has a reading without segments. -/
theorem Piece.reads {e v : Bytes} (h : Piece e v) : ∃ r, r.segs = [] ∧ r.ending = e ∧ Reads e r ∧
    EndValue r v ∧ (r.rest = [] ∨ ∃ os, IsQuad os ∧ r.ending = quadText os) ∧
    ∃ c, e.head? = some c ∧ isHex c = true := by
  cases h with
  | group h =>
    obtain ⟨c, t, hc⟩ := List.exists_cons_of_ne_nil h.1
    refine ⟨⟨[], e, []⟩, rfl, by simp [Reading.ending], ?_, .inl ⟨rfl, rfl⟩, .inl rfl, c,
      by rw [hc]; rfl, h.2.2 c (by rw [hc]; simp)⟩
    exact ⟨by simp [segsText, Reading.ending], by simp, h.2.2, trivial, by simp⟩
  | @quad os h =>
    obtain ⟨a, b, c, d, rfl⟩ := quad_four h
    obtain ⟨hlen, ho⟩ := h
    have ha := ho a (by simp)
    have htext : quadText [a, b, c, d] = a ++ 46 :: quadText [b, c, d] := by
      simp [quadText, List.intercalate_cons_cons]
    have hnum : ∀ ch ∈ a, isHex ch = true := fun ch hch => by
      rw [isHex, ha.2.2.1 ch hch]
      rfl
    obtain ⟨x, t, hx⟩ := List.exists_cons_of_ne_nil ha.1
    have hend : Reading.ending ⟨[], a, 46 :: quadText [b, c, d]⟩ = quadText [a, b, c, d] :=
      htext.symm
    refine ⟨⟨[], a, 46 :: quadText [b, c, d]⟩, rfl, hend, ?_, .inr ⟨_, ⟨hlen, ho⟩, hend, rfl⟩,
      .inr ⟨_, ⟨hlen, ho⟩, hend⟩, x, by rw [htext, hx]; rfl, hnum x (by rw [hx]; simp)⟩
    exact ⟨by rw [hend]; simp [segsText], by simp, hnum, trivial, by simp [dot_not_hex]⟩

theorem not_colon_of_hex {t : Bytes} {c : UInt8} (h : t.head? = some c) (hc : isHex c = true) :
    t.head? ≠ some 58 := by
  rw [h]
  rintro heq
  cases heq
  cases hc

theorem IsGroup.head {ds : Bytes} (h : IsGroup ds) (t : Bytes) : (ds ++ t).head? ≠ some 58 := by
  obtain ⟨c, x, rfl⟩ := List.exists_cons_of_ne_nil h.1
  exact not_colon_of_hex rfl (h.2.2 c (by simp))

theorem Singles.spaced {us : List Segment} (h : Singles us) {t : Bytes}
    (ht : us ≠ [] → t.head? ≠ some 58) : Spaced us t := by
  induction us with
  | nil => trivial
  | cons u us ih =>
    have hus : Singles us := fun v hv => h v (by simp [hv])
    refine ⟨fun _ => ?_, ih hus fun _ => ht (by simp)⟩
    cases us with
    | nil => simpa [segsText] using ht (by simp)
    | cons w ws =>
      rw [segsText_cons, List.append_assoc]
      exact (hus w (by simp)).2.head _

theorem singles_hex {us : List Segment} (h : Singles us) :
    ∀ u ∈ us, ∀ ch ∈ u.digits, isHex ch = true := fun u hu => (h u hu).2.2.2

/-- Segments in front of a piece, read together with it. -/
theorem reads_segs {r : Reading} {e : Bytes} (h : Reads e r) (hnil : r.segs = [])
    {us : List Segment}
    (hus : ∀ u ∈ us, ∀ ch ∈ u.digits, isHex ch = true) (hsp : Spaced us e) :
    Reads (segsText us ++ e) ⟨us, r.last, r.rest⟩ where
  text := by
    have htext := h.text
    rw [hnil, segsText, List.flatMap_nil, List.nil_append] at htext
    rw [htext]
    rfl
  segs := hus
  last := h.last
  spaced := by
    have htext := h.text
    rw [hnil, segsText, List.flatMap_nil, List.nil_append] at htext
    rwa [htext] at hsp
  stop := h.stop

theorem Singles.undoubled {us : List Segment} (h : Singles us) : Undoubled us :=
  fun u hu => (h u hu).1

theorem Singles.no_double {us : List Segment} (h : Singles us) :
    ¬∃ u ∈ us, u.double = true := by
  rintro ⟨u, hu, hd⟩
  rw [(h u hu).1] at hd
  cases hd

theorem ending_ne_nil {r : Reading} {e : Bytes} (he : r.ending = e) {c : UInt8}
    (hc : e.head? = some c) : r.ending ≠ [] := by
  rw [he]
  rintro rfl
  cases hc

theorem full_formed {s e v addr : Bytes} {r : Reading} {us : List Segment} (h : Reads s r)
    (hus : Singles us) (he : Piece e v) (hsize : (segsBytes us ++ v).length = 16)
    (hs : s = segsText us ++ e) (haddr : addr = segsBytes us ++ v) :
    Formed r ∧ ∃ v, EndValue r v ∧ ∀ m : Bytes, m.length = 16 →
      addr = layout (gapAt r.segs 0) (segsBytes r.segs ++ v) m := by
  obtain ⟨r', hnil, hend, hr, hv, hwhole, c, hc, hhex⟩ := he.reads
  have hread := reads_segs hr hnil (singles_hex hus)
    (hus.spaced fun _ => not_colon_of_hex hc hhex)
  rw [← hs] at hread
  obtain rfl := reads_unique h hread
  refine ⟨⟨?_, ?_, ?_, ?_, hwhole⟩, v, hv, fun m hm => ?_⟩
  · exact fun u hu hd => absurd hd (hus u (List.mem_of_mem_head? hu)).2.1
  · exact fun u hu => (hus u (List.mem_of_mem_tail hu)).2.1
  · exact fun hnil => absurd hnil (ending_ne_nil hend hc)
  · exact fun hd => absurd hd hus.no_double
  · rw [gapAt_undoubled hus.undoubled, layout_full hsize hm]
    exact haddr

theorem front_spaced {us ws : List Segment} {ds e : Bytes} (hf : Front us ds) (hws : Singles ws)
    (he : e.head? ≠ some 58) : Spaced (us ++ ⟨ds, true⟩ :: ws) e := by
  refine spaced_append.mpr ⟨hf.1.spaced fun hne => ?_, nofun, hws.spaced fun _ => he⟩
  have hd : ds ≠ [] := fun hd => hne (hf.2.1 hd)
  rw [segsText_cons, List.append_assoc]
  exact (hf.2.2 hd).head _

theorem front_hex {us ws : List Segment} {ds : Bytes} (hf : Front us ds) (hws : Singles ws) :
    ∀ u ∈ us ++ ⟨ds, true⟩ :: ws, ∀ ch ∈ u.digits, isHex ch = true := by
  intro u hu
  rcases List.mem_append.mp hu with hu | hu
  · exact singles_hex hf.1 u hu
  rcases List.mem_cons.mp hu with rfl | hu
  · by_cases hd : ds = []
    · rw [hd]
      simp
    · exact (hf.2.2 hd).2.2
  · exact singles_hex hws u hu

/-- The end of a text behind a double colon has a reading. -/
theorem Close.reads {ws : List Segment} {e v : Bytes} (h : Close ws e v) : ∃ r, r.segs = [] ∧
    r.ending = e ∧ Reads e r ∧ EndValue r v ∧
    (r.rest = [] ∨ ∃ os, IsQuad os ∧ r.ending = quadText os) ∧ e.head? ≠ some 58 ∧
    (e = [] → ws = []) := by
  rcases h with he | ⟨rfl, rfl, rfl⟩
  · obtain ⟨r, hnil, hend, hr, hv, hwhole, c, hc, hhex⟩ := he.reads
    refine ⟨r, hnil, hend, hr, hv, hwhole, not_colon_of_hex hc hhex, ?_⟩
    rintro rfl
    cases hc
  · refine ⟨⟨[], [], []⟩, rfl, rfl, ?_, .inl ⟨rfl, rfl⟩, .inl rfl, by simp, fun _ => rfl⟩
    exact ⟨rfl, by simp, by simp, trivial, by simp⟩

theorem gap_formed {s e v addr ds : Bytes} {r : Reading} {us ws : List Segment} (h : Reads s r)
    (hf : Front us ds) (hws : Singles ws) (he : Close ws e v)
    (hsize : (segsBytes (us ++ [⟨ds, true⟩]) ++ (segsBytes ws ++ v)).length ≤ 14)
    (hs : s = segsText (us ++ ⟨ds, true⟩ :: ws) ++ e)
    (haddr : addr = spread (segsBytes (us ++ [⟨ds, true⟩])) (segsBytes ws ++ v)) :
    Formed r ∧ ∃ v, EndValue r v ∧ ∀ m : Bytes, m.length = 16 →
      addr = layout (gapAt r.segs 0) (segsBytes r.segs ++ v) m := by
  obtain ⟨r', hnil, hend, hr, hv, hwhole, hhead, hclose⟩ := he.reads
  have hread := reads_segs hr hnil (front_hex hf hws) (front_spaced hf hws hhead)
  rw [← hs] at hread
  obtain rfl := reads_unique h hread
  have hbytes : segsBytes (us ++ ⟨ds, true⟩ :: ws) ++ v =
      segsBytes (us ++ [⟨ds, true⟩]) ++ (segsBytes ws ++ v) := by
    rw [← List.append_assoc, ← segsBytes_append, List.append_assoc, List.singleton_append]
  refine ⟨⟨?_, ?_, ?_, ?_, hwhole⟩, v, hv, fun m hm => ?_⟩
  · intro u hu hd
    cases us with
    | nil =>
      cases hu
      rfl
    | cons x us =>
      cases hu
      exact absurd hd (hf.1 u (by simp)).2.1
  · intro u hu
    cases us with
    | nil => exact (hws u hu).2.1
    | cons x us =>
      rcases List.mem_append.mp hu with hu | hu
      · exact (hf.1 u (by simp [hu])).2.1
      rcases List.mem_cons.mp hu with rfl | hu
      · exact fun hd => absurd (hf.2.1 hd) (by simp)
      · exact (hws u hu).2.1
  · intro hnil u hu
    have hws' := hclose (by rw [← hend]; exact hnil)
    simp only [hws', List.getLast?_concat, Option.mem_some_iff] at hu
    rw [← hu]
  · intro _
    have := hv.length hread
    rw [hbytes] at this
    omega
  · rw [gapAt_doubled hf.1.undoubled, Nat.zero_add, hbytes, layout_gap]
    exact haddr

/-- A text that denotes an address is well formed, and its reading gives the address. -/
theorem Denotes.formed {s addr : Bytes} {r : Reading} (hd : Denotes s addr) (h : Reads s r) :
    Formed r ∧ ∃ v, EndValue r v ∧ ∀ m : Bytes, m.length = 16 →
      addr = layout (gapAt r.segs 0) (segsBytes r.segs ++ v) m := by
  rcases (denotes_iff s addr).mp hd with ⟨us, e, v, hus, he, hsize, hs, haddr⟩ |
    ⟨us, ds, ws, e, v, hf, hws, he, hsize, hs, haddr⟩
  · exact full_formed h hus he hsize hs haddr
  · exact gap_formed h hf hws he hsize hs haddr

def OnceDoubled (us : List Segment) : Prop :=
  Undoubled us ∨ ∃ vs ds ws, us = vs ++ ⟨ds, true⟩ :: ws ∧ Undoubled vs ∧ Undoubled ws

theorem group_of_segment {s : Bytes} {r : Reading} (h : Reads s r)
    (h4 : ∀ u ∈ r.segs, u.digits.length ≤ 4) {u : Segment} (hu : u ∈ r.segs) (hne : u.digits ≠ []) :
    IsGroup u.digits := ⟨hne, h4 u hu, h.segs u hu⟩

theorem EndValue.piece {s v : Bytes} {r : Reading} (hv : EndValue r v) (h : Reads s r)
    (h4 : r.last.length ≤ 4) : Piece r.ending v ∨ r.ending = [] ∧ v = [] := by
  rcases hv with ⟨hrest, rfl⟩ | ⟨os, hos, he, rfl⟩
  · rw [Reading.ending, hrest, List.append_nil]
    by_cases hl : r.last = []
    · exact .inr ⟨hl, by rw [hl]; rfl⟩
    · exact .inl (.group ⟨hl, h4, h.last⟩)
  · rw [he]
    exact .inl (.quad hos)

/-- Without a double colon every colon stands behind digits. -/
theorem Formed.digits {r : Reading} (hf : Formed r) (hu : Undoubled r.segs) :
    ∀ u ∈ r.segs, u.digits ≠ [] := by
  intro u hmem hd
  cases hs : r.segs with
  | nil =>
    rw [hs] at hmem
    cases hmem
  | cons x us =>
    have hfront := hf.front u
    have hinner := hf.inner u
    rw [hs] at hmem hfront hinner
    rcases List.mem_cons.mp hmem with rfl | hmem'
    · have := hfront rfl hd
      rw [hu u (by rw [hs]; simp)] at this
      cases this
    · exact hinner hmem' hd

theorem Formed.full {s v : Bytes} {r : Reading} (hf : Formed r) (h : Reads s r)
    (h4 : ∀ u ∈ r.segs, u.digits.length ≤ 4) (hl : r.last.length ≤ 4) (hu : Undoubled r.segs)
    (hsize : size r = 8) (hv : EndValue r v) {m : Bytes} (hm : m.length = 16) :
    Denotes s (layout (gapAt r.segs 0) (segsBytes r.segs ++ v) m) := by
  have hlen := hv.length h
  rw [hsize] at hlen
  rw [gapAt_undoubled hu, layout_full hlen hm]
  have hne := hf.digits hu
  have hsingles : Singles r.segs := fun u hmem =>
    ⟨hu u hmem, group_of_segment h h4 hmem (hne u hmem)⟩
  rcases hv.piece h hl with hp | ⟨he, rfl⟩
  · exact (denotes_iff _ _).mpr (.inl ⟨r.segs, r.ending, v, hsingles, hp, hlen, h.text, rfl⟩)
  · rcases List.eq_nil_or_concat r.segs with hs | ⟨us, u, hs⟩
    · rw [hs] at hlen
      cases hlen
    · rw [List.concat_eq_append] at hs
      have := hf.back he u (by rw [hs]; simp)
      rw [hu u (by rw [hs]; simp)] at this
      cases this

theorem Formed.doubled {s v ds : Bytes} {r : Reading} {us ws : List Segment} (hf : Formed r)
    (h : Reads s r) (h4 : ∀ u ∈ r.segs, u.digits.length ≤ 4) (hl : r.last.length ≤ 4)
    (hs : r.segs = us ++ ⟨ds, true⟩ :: ws) (hus : Undoubled us) (hws : Undoubled ws)
    (hv : EndValue r v) (m : Bytes) :
    Denotes s (layout (gapAt r.segs 0) (segsBytes r.segs ++ v) m) := by
  have hbytes : segsBytes r.segs ++ v =
      segsBytes (us ++ [⟨ds, true⟩]) ++ (segsBytes ws ++ v) := by
    rw [hs, ← List.append_assoc, ← segsBytes_append, List.append_assoc, List.singleton_append]
  have hlen := hv.length h
  have hgap := hf.gap ⟨⟨ds, true⟩, by rw [hs]; simp, rfl⟩
  rw [hbytes] at hlen ⊢
  have hat := gapAt_doubled hus ds ws 0
  rw [Nat.zero_add, ← hs] at hat
  rw [hat, layout_gap]
  have hgroup : ∀ u ∈ r.segs, u.digits ≠ [] → IsGroup u.digits := fun u => group_of_segment h h4
  have hinner := hf.inner
  have hfront := hf.front
  rw [hs] at hgroup hinner hfront
  have hfr : Front us ds := by
    refine ⟨fun u hu => ⟨hus u hu, hgroup u (by simp [hu]) ?_⟩, ?_, hgroup ⟨ds, true⟩ (by simp)⟩
    · cases us with
      | nil => cases hu
      | cons x us =>
        rcases List.mem_cons.mp hu with rfl | hu'
        · intro hd
          have := hfront u rfl hd
          rw [hus u hu] at this
          cases this
        · exact hinner u (by simp [hu'])
    · intro hd
      cases us with
      | nil => rfl
      | cons x us => exact absurd hd (hinner ⟨ds, true⟩ (by simp))
  have hwsg : Singles ws := by
    refine fun u hu => ⟨hws u hu, hgroup u (by simp [hu]) (hinner u ?_)⟩
    cases us <;> simp [hu]
  have hclose : Close ws r.ending v := by
    rcases hv.piece h hl with hp | ⟨he, hnil⟩
    · exact .inl hp
    · refine .inr ⟨?_, he, hnil⟩
      have hback := hf.back he
      rcases List.eq_nil_or_concat ws with hw | ⟨vs, u, hw⟩
      · exact hw
      · rw [List.concat_eq_append] at hw
        have := hback u (by
          rw [hs, hw, ← List.cons_append, ← List.append_assoc, List.getLast?_concat]
          rfl)
        rw [hws u (by rw [hw]; simp)] at this
        cases this
  refine (denotes_iff _ _).mpr (.inr ⟨us, ds, ws, r.ending, v, hfr, hwsg, hclose, by omega,
    ?_, rfl⟩)
  rw [← hs]
  exact h.text

/-- A well-formed text denotes the address its reading gives. -/
theorem Formed.denotes {s v : Bytes} {r : Reading} (hf : Formed r) (h : Reads s r)
    (h4 : ∀ u ∈ r.segs, u.digits.length ≤ 4) (hl : r.last.length ≤ 4) (hone : OnceDoubled r.segs)
    (hsize : Undoubled r.segs → size r = 8) (hv : EndValue r v) {m : Bytes} (hm : m.length = 16) :
    Denotes s (layout (gapAt r.segs 0) (segsBytes r.segs ++ v) m) := by
  rcases hone with hu | ⟨us, ds, ws, hs, hus, hws⟩
  · exact hf.full h h4 hl hu (hsize hu) hv hm
  · exact hf.doubled h h4 hl hs hus hws hv m

end DnsPkt.AddressGrammar
