import DnsPkt.WireName

/-!
# Suffix compression of names

A writer appends to a packet and keeps a bounded table of the name suffixes
it wrote, each with its position. A name is written label by label until
what is left of it stands in the table up to case; a pointer then takes the
place of the rest. Every suffix in the table can be read back from the packet
at its position, whatever is appended later. This needs pointers below
2^14, the largest target that the fourteen bits of a pointer hold.
-/

set_option autoImplicit false

namespace DnsPkt.NameCompression
open DnsPkt.Octets DnsPkt.WireName

def dotted : List Bytes → Bytes
  | [] => []
  | [l] => l
  | l :: m :: rest => l ++ 46 :: dotted (m :: rest)

structure IsLabel (l : Bytes) : Prop where
  pos : 0 < l.length
  no_dot : (46 : UInt8) ∉ l
  no_nul : (0 : UInt8) ∉ l

structure GoodLabel (l : Bytes) : Prop extends IsLabel l where
  le : l.length ≤ 63

instance (l : Bytes) : Decidable (GoodLabel l) :=
  decidable_of_iff (0 < l.length ∧ l.length ≤ 63 ∧ (46 : UInt8) ∉ l ∧ (0 : UInt8) ∉ l)
    ⟨fun ⟨h1, h2, h3, h4⟩ => ⟨⟨h1, h3, h4⟩, h2⟩, fun h => ⟨h.pos, h.le, h.no_dot, h.no_nul⟩⟩

/-- Names that differ in the case of letters only. -/
def SameName (a b : List Bytes) : Prop := a.map fold = b.map fold

instance (a b : List Bytes) : Decidable (SameName a b) :=
  inferInstanceAs (Decidable (a.map fold = b.map fold))

theorem SameName.cons {a b : List Bytes} (h : SameName a b) (l : Bytes) :
    SameName (l :: a) (l :: b) := by
  simp only [SameName, List.map_cons] at *
  rw [h]

theorem SameName.length_eq {a b : List Bytes} (h : SameName a b) : a.length = b.length := by
  simpa using congrArg List.length h

theorem dotted_cons_ne_nil {l : Bytes} (h : 0 < l.length) (rest : List Bytes) :
    dotted (l :: rest) ≠ [] := by
  cases rest with
  | nil => exact List.length_pos_iff.mp h
  | cons m rest => simp [dotted]

theorem length_dotted_cons (l : Bytes) (rest : List Bytes) :
    (dotted (l :: rest)).length =
      l.length+(if rest = [] then 0 else 1+(dotted rest).length) := by
  cases rest with
  | nil => simp [dotted]
  | cons m rest =>
    simp [dotted]
    omega

theorem lower_eq_dot (c : UInt8) : lower c = 46 ↔ c = 46 := by
  have table : ∀ i : Fin 256, lower (UInt8.ofNat i) = 46 ↔ UInt8.ofNat i = 46 := by
    decide +kernel
  simpa using table ⟨c.toNat, c.toNat_lt⟩

theorem dot_mem_fold (l : Bytes) : (46 : UInt8) ∈ fold l ↔ (46 : UInt8) ∈ l := by
  simp [fold, lower_eq_dot]

theorem fold_dotted (ls : List Bytes) : fold (dotted ls) = dotted (ls.map fold) := by
  induction ls with
  | nil => rfl
  | cons l rest ih =>
    cases rest with
    | nil => rfl
    | cons m rest =>
      simp only [dotted, fold_append, List.map_cons] at ih ⊢
      rw [← ih]
      rfl

def firstLabel (name : Bytes) : Bytes := name.takeWhile (· ≠ 46)

def afterLabel (name : Bytes) : Bytes := name.drop ((firstLabel name).length+1)

theorem firstLabel_dotted {l : Bytes} (h : (46 : UInt8) ∉ l) (rest : List Bytes) :
    firstLabel (dotted (l :: rest)) = l := by
  have hall : ∀ x ∈ l, decide (x ≠ 46) = true := by
    intro x hx
    simpa using fun h0 : x = 46 => h (h0 ▸ hx)
  cases rest with
  | nil => exact List.takeWhile_eq_self_iff.mpr hall
  | cons m rest =>
    rw [dotted, firstLabel, List.takeWhile_append_of_pos hall]
    simp

theorem afterLabel_dotted {l : Bytes} (h : (46 : UInt8) ∉ l) (rest : List Bytes) :
    afterLabel (dotted (l :: rest)) = dotted rest := by
  rw [afterLabel, firstLabel_dotted h]
  cases rest with
  | nil => simp [dotted]
  | cons m rest => simp [dotted]

theorem dotted_injective {a b : List Bytes} (ha : ∀ l ∈ a, 0 < l.length ∧ (46 : UInt8) ∉ l)
    (hb : ∀ l ∈ b, 0 < l.length ∧ (46 : UInt8) ∉ l) (h : dotted a = dotted b) : a = b := by
  induction a generalizing b with
  | nil =>
    cases b with
    | nil => rfl
    | cons m rest => exact absurd h.symm (dotted_cons_ne_nil (hb m (by simp)).1 rest)
  | cons l rest ih =>
    cases b with
    | nil => exact absurd h (dotted_cons_ne_nil (ha l (by simp)).1 rest)
    | cons m rest' =>
      have h1 := congrArg firstLabel h
      rw [firstLabel_dotted (ha l (by simp)).2, firstLabel_dotted (hb m (by simp)).2] at h1
      have h2 := congrArg afterLabel h
      rw [afterLabel_dotted (ha l (by simp)).2, afterLabel_dotted (hb m (by simp)).2] at h2
      rw [h1, ih (fun l hl => ha l (by simp [hl])) (fun l hl => hb l (by simp [hl])) h2]

/-- Comparing the texts without case is comparing the labels without case. -/
theorem fold_dotted_inj {a b : List Bytes} (ha : ∀ l ∈ a, IsLabel l)
    (hb : ∀ l ∈ b, IsLabel l) : fold (dotted a) = fold (dotted b) ↔ SameName a b := by
  have hgood {c : List Bytes} (hc : ∀ l ∈ c, IsLabel l) :
      ∀ l ∈ c.map fold, 0 < l.length ∧ (46 : UInt8) ∉ l := by
    intro l hl
    obtain ⟨k, hk, rfl⟩ := List.mem_map.mp hl
    exact ⟨by simpa using (hc k hk).pos, mt (dot_mem_fold k).mp (hc k hk).no_dot⟩
  rw [fold_dotted, fold_dotted]
  exact ⟨dotted_injective (hgood ha) (hgood hb), congrArg dotted⟩

theorem length_dotted_same {a b : List Bytes} (h : SameName a b) :
    (dotted a).length = (dotted b).length := by
  rw [← length_fold, fold_dotted, h, ← fold_dotted, length_fold]

/-- A suffix that was written: its labels, its position and the number of
pointers on the way to its end. -/
structure Mark where
  labels : List Bytes
  offset : ℕ
  depth : ℕ

structure Writer where
  pkt : Bytes
  tab : List Mark

def hit (tab : List Mark) (ls : List Bytes) : Option Mark :=
  tab.find? fun e => SameName e.labels ls

def reuse (tab : List Mark) : List Bytes → Option Mark
  | [] => none
  | l :: rest => match hit tab (l :: rest) with
    | some e => some e
    | none => reuse tab rest

def depthOf : Option Mark → ℕ
  | some e => e.depth+1
  | none => 0

def pointer (off : ℕ) : Bytes := encU16 (0xC000 ||| UInt16.ofNat off)

def code (tab : List Mark) : List Bytes → Bytes
  | [] => [0]
  | l :: rest => match hit tab (l :: rest) with
    | some e => pointer e.offset
    | none => UInt8.ofNat l.length :: (l ++ code tab rest)

def fresh (tab : List Mark) (d : ℕ) : ℕ → List Bytes → List Mark
  | _, [] => []
  | pos, l :: rest => match hit tab (l :: rest) with
    | some _ => []
    | none => ⟨l :: rest, pos, d⟩ :: fresh tab d (pos+1+l.length) rest

def Writer.raw (w : Writer) (b : Bytes) : Writer := { w with pkt := w.pkt ++ b }

def Writer.name (N : ℕ) (w : Writer) (ls : List Bytes) : Writer where
  pkt := w.pkt ++ code w.tab ls
  tab := (w.tab ++ fresh w.tab (depthOf (reuse w.tab ls)) w.pkt.length ls).take N

theorem hit_mem {tab : List Mark} {ls : List Bytes} {e : Mark} (h : hit tab ls = some e) :
    e ∈ tab ∧ SameName e.labels ls :=
  ⟨List.mem_of_find?_eq_some h, by simpa using List.find?_some h⟩

/-- A reused mark is in the table and names a suffix. -/
theorem reuse_mem {tab : List Mark} {ls : List Bytes} {e : Mark} (h : reuse tab ls = some e) :
    e ∈ tab ∧ e.labels.length ≤ ls.length := by
  induction ls with
  | nil => simp [reuse] at h
  | cons l rest ih =>
    rw [reuse] at h
    cases hh : hit tab (l :: rest) with
    | some e' =>
      simp only [hh, Option.some.injEq] at h
      subst h
      exact ⟨(hit_mem hh).1, (hit_mem hh).2.length_eq.le⟩
    | none =>
      simp only [hh] at h
      obtain ⟨h1, h2⟩ := ih h
      exact ⟨h1, by simp only [List.length_cons]; omega⟩

theorem code_of_hit {tab : List Mark} {l : Bytes} {rest : List Bytes} {e : Mark}
    (h : hit tab (l :: rest) = some e) : code tab (l :: rest) = pointer e.offset := by
  simp only [code, h]

theorem code_of_miss {tab : List Mark} {l : Bytes} {rest : List Bytes}
    (h : hit tab (l :: rest) = none) :
    code tab (l :: rest) = UInt8.ofNat l.length :: (l ++ code tab rest) := by
  simp only [code, h]

theorem reuse_of_hit {tab : List Mark} {l : Bytes} {rest : List Bytes} {e : Mark}
    (h : hit tab (l :: rest) = some e) : reuse tab (l :: rest) = some e := by
  simp only [reuse, h]

theorem reuse_of_miss {tab : List Mark} {l : Bytes} {rest : List Bytes}
    (h : hit tab (l :: rest) = none) : reuse tab (l :: rest) = reuse tab rest := by
  simp only [reuse, h]

theorem length_code_le (tab : List Mark) (ls : List Bytes) (hgood : ∀ l ∈ ls, GoodLabel l) :
    (code tab ls).length ≤ if ls = [] then 1 else (dotted ls).length+2 := by
  induction ls with
  | nil => simp [code]
  | cons l rest ih =>
    have ih := ih fun l hl => hgood l (by simp [hl])
    have hpos := (hgood l (by simp)).pos
    rw [if_neg (by simp), length_dotted_cons]
    cases h : hit tab (l :: rest) with
    | some e =>
      rw [code_of_hit h, pointer, length_encU16]
      omega
    | none =>
      simp only [code_of_miss h, List.length_cons, List.length_append]
      split_ifs at ih ⊢ <;> omega

theorem pointer_bytes {off : ℕ} (h : off < 2^14) :
    ∃ hi lo, pointer off = [hi, lo] ∧ 192 ≤ hi.toNat ∧ target hi lo = off := by
  have hv : (0xC000 ||| UInt16.ofNat off).toNat = 49152+off := by
    rw [UInt16.toNat_or, UInt16.toNat_ofNat', Nat.mod_eq_of_lt (by omega)]
    have := Nat.two_pow_add_eq_or_of_lt h 3
    simpa using this.symm
  refine ⟨_, _, rfl, ?_, ?_⟩
  · rw [hv, UInt8.toNat_ofNat']
    omega
  · simp only [hv, target, UInt8.toNat_ofNat']
    omega

structure MarkOk (T : ℕ) (pkt : Bytes) (e : Mark) : Prop where
  least : T ≤ e.offset
  good : ∀ l ∈ e.labels, GoodLabel l
  reads : ∃ ls, Reads 63 T pkt e.offset e.depth ls (dotted ls) ∧ SameName ls e.labels
  depth_lt : e.depth < e.labels.length

theorem MarkOk.extend {T : ℕ} {a b : Bytes} (hp : a <+: b) {e : Mark} (h : MarkOk T a e) :
    MarkOk T b e := by
  obtain ⟨ls, hr, hs⟩ := h.reads
  exact ⟨h.least, h.good, ⟨ls, hr.extend hp, hs⟩, h.depth_lt⟩

theorem get_at {a b : Bytes} {x : UInt8} {y : Bytes} (h : a ++ x :: y <+: b) :
    b[a.length]? = some x :=
  get_extend h (by simp)

theorem reads_nonzero {M T : ℕ} {pkt : Bytes} {off j : ℕ} {ls : List Bytes} {text : Bytes}
    (h : Reads M T pkt off j ls text) (hne : ls ≠ []) {c : UInt8} (hc : pkt[off]? = some c) :
    c ≠ 0 := by
  rintro rfl
  cases h with
  | root => exact hne rfl
  | label len next g hpos =>
    obtain rfl : 0 = len := get_inj hc g
    simp at hpos
  | pointer hi lo g hh =>
    obtain rfl : 0 = hi := get_inj hc g
    simp at hh

section Written

variable {T : ℕ} {tab : List Mark} {b : Bytes}

/-- The bytes of a name read back as the name, wherever they stand behind
the marks they refer to. -/
theorem code_reads (htab : ∀ e ∈ tab, MarkOk T b e) (ls : List Bytes)
    (hgood : ∀ l ∈ ls, GoodLabel l) (hnear : ∀ e, reuse tab ls = some e → e.offset < 2^14)
    (a : Bytes) (hb : a ++ code tab ls <+: b) :
    ∃ ls', Reads 63 T b a.length (depthOf (reuse tab ls)) ls' (dotted ls') ∧ SameName ls' ls := by
  induction ls generalizing a with
  | nil => exact ⟨[], .root (get_at hb), rfl⟩
  | cons l rest ih =>
    cases h : hit tab (l :: rest) with
    | some e =>
      obtain ⟨hmem, hsame⟩ := hit_mem h
      obtain ⟨hi, lo, hp, hh, ht⟩ := pointer_bytes (hnear e (reuse_of_hit h))
      obtain ⟨ls', hr, hs⟩ := (htab e hmem).reads
      rw [code_of_hit h, hp] at hb
      have h1 := get_at hb
      have h2 : b[a.length+1]? = some lo := get_extend hb (by simp)
      rw [← ht] at hr
      rw [reuse_of_hit h]
      refine ⟨ls', .pointer hi lo h1 hh h2 ?_ hr, hs.trans hsame⟩
      rw [ht]
      exact (htab e hmem).least
    | none =>
      have hl := hgood l (by simp)
      have hlen : (UInt8.ofNat l.length).toNat = l.length := by
        have := hl.le
        rw [UInt8.toNat_ofNat']
        omega
      rw [code_of_miss h] at hb
      have h1 := get_at hb
      have hb' : (a ++ UInt8.ofNat l.length :: l) ++ code tab rest <+: b := by simpa using hb
      obtain ⟨ls', hr, hs⟩ := ih (fun l hl => hgood l (by simp [hl]))
        (fun e he => hnear e ((reuse_of_miss h).trans he)) _ hb'
      have hpos : (a ++ UInt8.ofNat l.length :: l).length =
          a.length+1+(UInt8.ofNat l.length).toNat := by
        simp [hlen]
        omega
      obtain ⟨next, hnext⟩ : ∃ next, b[(a ++ UInt8.ofNat l.length :: l).length]? = some next :=
        ⟨_, List.getElem?_eq_getElem hr.lt⟩
      have hslice : slice b (a.length+1) (UInt8.ofNat l.length).toNat = l := by
        rw [hlen, slice_extend hb (a.length+1) l.length (by simp; omega)]
        have := slice_at_end (a ++ [UInt8.ofNat l.length]) l (code tab rest)
        simpa using this
      -- The separator is left out exactly where the root follows the label.
      have hsep : separator next ++ dotted ls' = if ls' = [] then [] else 46 :: dotted ls' := by
        by_cases hne : ls' = []
        · obtain rfl : rest = [] := List.eq_nil_of_length_eq_zero (hne ▸ hs.length_eq).symm
          have h0 : b[(a ++ UInt8.ofNat l.length :: l).length]? = some 0 := get_at hb'
          obtain rfl : next = 0 := get_inj hnext h0
          simp [hne, separator, dotted]
        · simp [hne, separator, reads_nonzero hr hne hnext]
      rw [hpos] at hr hnext
      have hle := hl.le
      have hread := Reads.label (UInt8.ofNat l.length) next h1 (by rw [hlen]; exact hl.pos)
        (show _ ≤ 63 by omega) (by omega) hnext hr
      rw [hslice, hsep] at hread
      rw [reuse_of_miss h]
      refine ⟨l :: ls', ?_, hs.cons l⟩
      cases ls' with
      | nil => simpa [dotted] using hread
      | cons m ls' => simpa [dotted] using hread

theorem depth_lt_of_miss (htab : ∀ e ∈ tab, MarkOk T b e) {l : Bytes} {rest : List Bytes}
    (h : hit tab (l :: rest) = none) :
    depthOf (reuse tab (l :: rest)) < (l :: rest).length := by
  rw [reuse_of_miss h]
  cases hr : reuse tab rest with
  | none => simp [depthOf]
  | some e =>
    obtain ⟨hmem, hle⟩ := reuse_mem hr
    have := (htab e hmem).depth_lt
    simp only [depthOf, List.length_cons]
    omega

theorem fresh_ok (htab : ∀ e ∈ tab, MarkOk T b e) (ls : List Bytes)
    (hgood : ∀ l ∈ ls, GoodLabel l) (hnear : ∀ e, reuse tab ls = some e → e.offset < 2^14)
    (a : Bytes) (ha : T ≤ a.length) (hb : a ++ code tab ls <+: b) :
    ∀ m ∈ fresh tab (depthOf (reuse tab ls)) a.length ls, MarkOk T b m := by
  induction ls generalizing a with
  | nil => simp [fresh]
  | cons l rest ih =>
    intro m hm
    rw [fresh] at hm
    cases h : hit tab (l :: rest) with
    | some e => simp [h] at hm
    | none =>
      simp only [h] at hm
      rcases List.mem_cons.mp hm with rfl | hm
      · exact ⟨ha, hgood, code_reads htab _ hgood hnear a hb, depth_lt_of_miss htab h⟩
      · rw [reuse_of_miss h] at hm
        have hb' : (a ++ UInt8.ofNat l.length :: l) ++ code tab rest <+: b := by
          simpa [code_of_miss h] using hb
        refine ih (fun l hl => hgood l (by simp [hl]))
          (fun e he => hnear e ((reuse_of_miss h).trans he)) _ (by simp; omega) hb' m ?_
        rwa [show (a ++ UInt8.ofNat l.length :: l).length = a.length+1+l.length by simp; omega]

end Written

structure Writer.Sound (T : ℕ) (w : Writer) : Prop where
  least : T ≤ w.pkt.length
  marks : ∀ e ∈ w.tab, MarkOk T w.pkt e

theorem Writer.Sound.raw {T : ℕ} {w : Writer} (h : w.Sound T) (b : Bytes) : (w.raw b).Sound T where
  least := by
    have := h.least
    simp only [Writer.raw, List.length_append]
    omega
  marks e he := (h.marks e he).extend (List.prefix_append w.pkt b)

theorem Writer.Sound.name {T : ℕ} {w : Writer} (h : w.Sound T) (N : ℕ) {ls : List Bytes}
    (hgood : ∀ l ∈ ls, GoodLabel l) (hnear : ∀ e, reuse w.tab ls = some e → e.offset < 2^14) :
    (w.name N ls).Sound T := by
  have htab : ∀ e ∈ w.tab, MarkOk T (w.pkt ++ code w.tab ls) e :=
    fun e he => (h.marks e he).extend (List.prefix_append _ _)
  constructor
  · have := h.least
    simp only [Writer.name, List.length_append]
    omega
  · intro e he
    rcases List.mem_append.mp (List.mem_of_mem_take he) with he | he
    · exact htab e he
    · exact fresh_ok htab ls hgood hnear w.pkt h.least (List.prefix_refl _) e he

theorem Writer.Sound.behind {T : ℕ} {w : Writer} (h : w.Sound T) {ls : List Bytes} {e : Mark}
    (he : reuse w.tab ls = some e) : e.offset < w.pkt.length := by
  obtain ⟨ls', hr, -⟩ := (h.marks e (reuse_mem he).1).reads
  exact hr.lt

inductive Along (pkt : Bytes) : ℕ → ℕ → Prop
  | here (off : ℕ) : Along pkt off off
  | label {off q : ℕ} (len : UInt8) (h : pkt[off]? = some len) (hpos : 0 < len.toNat)
      (hle : len.toNat ≤ 63) (rest : Along pkt (off+1+len.toNat) q) : Along pkt off q

/-- A pointer in a written name goes to the mark that the name reuses. -/
theorem code_pointer {tab : List Mark} {b : Bytes} (ls : List Bytes)
    (hgood : ∀ l ∈ ls, GoodLabel l) (hnear : ∀ e, reuse tab ls = some e → e.offset < 2^14)
    (a : Bytes) (hb : a ++ code tab ls <+: b) {q : ℕ} (hq : Along b a.length q) {hi lo : UInt8}
    (h1 : b[q]? = some hi) (hh : 192 ≤ hi.toNat) (h2 : b[q+1]? = some lo) :
    ∃ e, reuse tab ls = some e ∧ target hi lo = e.offset := by
  induction ls generalizing a with
  | nil =>
    have h0 : b[a.length]? = some 0 := get_at hb
    cases hq with
    | here =>
      obtain rfl : hi = 0 := get_inj h1 h0
      simp at hh
    | label len h hpos =>
      obtain rfl : len = 0 := get_inj h h0
      simp at hpos
  | cons l rest ih =>
    cases h : hit tab (l :: rest) with
    | some e =>
      obtain ⟨hi', lo', hp, hh', ht⟩ := pointer_bytes (hnear e (reuse_of_hit h))
      rw [code_of_hit h, hp] at hb
      have g1 := get_at hb
      have g2 : b[a.length+1]? = some lo' := get_extend hb (by simp)
      cases hq with
      | here =>
        obtain rfl : hi = hi' := get_inj h1 g1
        obtain rfl : lo = lo' := get_inj h2 g2
        exact ⟨e, reuse_of_hit h, ht⟩
      | label len g hpos hle =>
        obtain rfl : len = hi' := get_inj g g1
        omega
    | none =>
      have hlen : (UInt8.ofNat l.length).toNat = l.length := by
        have := (hgood l (by simp)).le
        rw [UInt8.toNat_ofNat']
        omega
      rw [code_of_miss h] at hb
      have g1 := get_at hb
      cases hq with
      | here =>
        obtain rfl := get_inj h1 g1
        have := (hgood l (by simp)).le
        omega
      | label len g hpos hle rest' =>
        obtain rfl := get_inj g g1
        rw [reuse_of_miss h]
        refine ih (fun l hl => hgood l (by simp [hl]))
          (fun e he => hnear e ((reuse_of_miss h).trans he)) (a ++ UInt8.ofNat l.length :: l)
          (by simpa using hb) ?_
        rwa [show (a ++ UInt8.ofNat l.length :: l).length = a.length+1+l.length by simp; omega,
          ← hlen]

structure Placed where
  offset : ℕ
  labels : List Bytes
  mark : Option Mark

def Writer.names (N : ℕ) : Writer → List (Bytes × List Bytes) → Writer
  | w, [] => w
  | w, (gap, ls) :: rest => Writer.names N ((w.raw gap).name N ls) rest

def Writer.placed (N : ℕ) : Writer → List (Bytes × List Bytes) → List Placed
  | _, [] => []
  | w, (gap, ls) :: rest =>
    ⟨(w.raw gap).pkt.length, ls, reuse w.tab ls⟩ :: Writer.placed N ((w.raw gap).name N ls) rest

theorem names_grow (N : ℕ) (w : Writer) (items : List (Bytes × List Bytes)) :
    w.pkt <+: (w.names N items).pkt := by
  induction items generalizing w with
  | nil => exact List.prefix_refl _
  | cons item rest ih =>
    have h1 : w.pkt <+: ((w.raw item.1).name N item.2).pkt :=
      (List.prefix_append w.pkt item.1).trans (List.prefix_append _ _)
    exact h1.trans (ih _)

section Sequence

variable {T N : ℕ}

/-- Names that start below 2^14 need no pointer past it. -/
theorem placed_near {w : Writer} (h : w.Sound T) {items : List (Bytes × List Bytes)}
    (hgood : ∀ p ∈ items, ∀ l ∈ p.2, GoodLabel l)
    (hlow : ∀ p ∈ w.placed N items, p.offset < 2^14) :
    ∀ p ∈ w.placed N items, ∀ e, p.mark = some e → e.offset < 2^14 := by
  induction items generalizing w with
  | nil => simp [Writer.placed]
  | cons item rest ih =>
    simp only [Writer.placed, List.mem_cons, forall_eq_or_imp] at hlow ⊢
    have hhead : ∀ e, reuse w.tab item.2 = some e → e.offset < 2^14 := by
      intro e he
      have hb := (h.raw item.1).behind he
      exact hb.trans hlow.1
    exact ⟨hhead, ih ((h.raw item.1).name N (hgood item (by simp)) hhead)
      (fun p hp => hgood p (by simp [hp])) hlow.2⟩

/-- Every name of a sequence reads back from the final packet. -/
theorem placed_reads {w : Writer} (h : w.Sound T) {items : List (Bytes × List Bytes)}
    (hgood : ∀ p ∈ items, ∀ l ∈ p.2, GoodLabel l)
    (hnear : ∀ p ∈ w.placed N items, ∀ e, p.mark = some e → e.offset < 2^14) :
    ∀ p ∈ w.placed N items, ∃ ls, SameName ls p.labels ∧
      Reads 63 T (w.names N items).pkt p.offset (depthOf p.mark) ls (dotted ls) := by
  induction items generalizing w with
  | nil => simp [Writer.placed]
  | cons item rest ih =>
    simp only [Writer.placed, List.mem_cons, forall_eq_or_imp] at hnear ⊢
    have hgood' := hgood item (by simp)
    have hnext := (h.raw item.1).name N hgood' hnear.1
    constructor
    · obtain ⟨ls, hr, hs⟩ := code_reads (fun e he => ((h.raw item.1).marks e he).extend
        (List.prefix_append _ (code w.tab item.2))) item.2 hgood' hnear.1 (w.raw item.1).pkt
        (List.prefix_refl _)
      exact ⟨ls, hs, hr.extend (names_grow N ((w.raw item.1).name N item.2) rest)⟩
    · exact ih hnext (fun p hp => hgood p (by simp [hp])) hnear.2

/-- Every pointer inside a name of a sequence goes to a position before it. -/
theorem placed_pointer {w : Writer} (h : w.Sound T) {items : List (Bytes × List Bytes)}
    (hgood : ∀ p ∈ items, ∀ l ∈ p.2, GoodLabel l)
    (hnear : ∀ p ∈ w.placed N items, ∀ e, p.mark = some e → e.offset < 2^14) :
    ∀ p ∈ w.placed N items, ∀ q hi lo, Along (w.names N items).pkt p.offset q →
      (w.names N items).pkt[q]? = some hi → 192 ≤ hi.toNat →
      (w.names N items).pkt[q+1]? = some lo → target hi lo < p.offset := by
  induction items generalizing w with
  | nil => simp [Writer.placed]
  | cons item rest ih =>
    simp only [Writer.placed, List.mem_cons, forall_eq_or_imp] at hnear ⊢
    have hgood' := hgood item (by simp)
    constructor
    · intro q hi lo hq h1 hh h2
      have hgrow := names_grow N ((w.raw item.1).name N item.2) rest
      obtain ⟨e, he, ht⟩ := code_pointer item.2 hgood' hnear.1 (w.raw item.1).pkt hgrow hq h1 hh h2
      rw [ht]
      exact (h.raw item.1).behind he
    · exact ih ((h.raw item.1).name N hgood' hnear.1) (fun p hp => hgood p (by simp [hp])) hnear.2

end Sequence

end DnsPkt.NameCompression
