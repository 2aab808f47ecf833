import DnsPkt.NameCompression

/-!
# Packets of names and raw bytes

A packet is a sequence of compressed names and raw bytes. As long as it stays
within 2^14 bytes every name in it reads back, with no more pointers than
labels. Records are such sequences with the length of their last part in
front of it.
-/

set_option autoImplicit false

namespace DnsPkt.PacketWriter
open DnsPkt.Octets DnsPkt.WireName DnsPkt.NameCompression

theorem code_skips {tab : List Mark} {b : Bytes} (ls : List Bytes)
    (hgood : ∀ l ∈ ls, GoodLabel l) (hnear : ∀ e, reuse tab ls = some e → e.offset < 2^14)
    (a : Bytes) (hb : a ++ code tab ls <+: b) :
    skipName b (ls.length+1) a.length = some (a.length+(code tab ls).length) := by
  induction ls generalizing a with
  | nil => simp [skipName, code, get_at hb]
  | cons l rest ih =>
    rw [List.length_cons, skipName]
    cases h : hit tab (l :: rest) with
    | some e =>
      obtain ⟨hi, lo, hp, hh, -⟩ := pointer_bytes (hnear e (reuse_of_hit h))
      have hlen := hb.length_le
      rw [code_of_hit h, hp] at hb hlen ⊢
      have hne : hi ≠ 0 := by rintro rfl; simp at hh
      simp only [List.length_append, List.length_cons, List.length_nil] at hlen
      simp [get_at hb, hne, hh, show a.length+2 ≤ b.length by omega]
    | none =>
      have hl := hgood l (by simp)
      have hlen : (UInt8.ofNat l.length).toNat = l.length := by
        have := hl.le
        rw [UInt8.toNat_ofNat']
        omega
      have hne : UInt8.ofNat l.length ≠ 0 := by
        intro h0
        have hpos := hl.pos
        rw [h0] at hlen
        simp at hlen
        omega
      rw [code_of_miss h] at hb
      have hrest := ih (fun l hl => hgood l (by simp [hl]))
        (fun e he => hnear e ((reuse_of_miss h).trans he)) (a ++ UInt8.ofNat l.length :: l)
        (by simpa using hb)
      have hpos : (a ++ UInt8.ofNat l.length :: l).length = a.length+1+l.length := by
        simp
        omega
      have hle := hl.le
      rw [hpos] at hrest
      simp only [get_at hb, if_neg hne, hlen, if_neg (show ¬ 192 ≤ l.length by omega), hrest,
        code_of_miss h, List.length_cons, List.length_append, Option.some.injEq]
      omega

theorem depthOf_reuse_le {T : ℕ} {w : Writer} (h : w.Sound T) (ls : List Bytes) :
    depthOf (reuse w.tab ls) ≤ ls.length := by
  cases hr : reuse w.tab ls with
  | none => simp [depthOf]
  | some e =>
    obtain ⟨hmem, hle⟩ := reuse_mem hr
    have := (h.marks e hmem).depth_lt
    simp only [depthOf]
    omega

theorem Sound.near {T : ℕ} {w : Writer} (h : w.Sound T) (hlow : w.pkt.length ≤ 2^14)
    (ls : List Bytes) : ∀ e, reuse w.tab ls = some e → e.offset < 2^14 :=
  fun _ he => (h.behind he).trans_le hlow

/-- A name that a sound writer writes below 2^14 reads back from every
extension of the packet. -/
theorem written_name {T : ℕ} {w : Writer} (h : w.Sound T) (hlow : w.pkt.length ≤ 2^14) (N : ℕ)
    {ls : List Bytes} (hgood : ∀ l ∈ ls, GoodLabel l) {b : Bytes}
    (hb : (w.name N ls).pkt <+: b) :
    ∃ ls', Reads 63 T b w.pkt.length (depthOf (reuse w.tab ls)) ls' (dotted ls') ∧
      SameName ls' ls ∧ nameEnd b w.pkt.length = some (w.name N ls).pkt.length := by
  have hnear := Sound.near h hlow ls
  have hmarks : ∀ e ∈ w.tab, MarkOk T b e := fun e he =>
    (h.marks e he).extend ((List.prefix_append w.pkt (code w.tab ls)).trans hb)
  obtain ⟨ls', hr, hs⟩ := code_reads hmarks ls hgood hnear w.pkt hb
  refine ⟨ls', hr, hs, ?_⟩
  have hskip := code_skips ls hgood hnear w.pkt hb
  rw [← List.length_append] at hskip
  exact hr.ends_of_skip hskip

inductive Part where
  | raw (b : Bytes)
  | name (ls : List Bytes)

def part (N : ℕ) (w : Writer) : Part → Writer
  | .raw b => w.raw b
  | .name ls => w.name N ls

def parts (N : ℕ) (w : Writer) (ps : List Part) : Writer := ps.foldl (part N) w

def Part.Good : Part → Prop
  | .raw _ => True
  | .name ls => ∀ l ∈ ls, GoodLabel l

theorem part_grow (N : ℕ) (w : Writer) (p : Part) : w.pkt <+: (part N w p).pkt := by
  cases p <;> exact List.prefix_append _ _

theorem parts_grow (N : ℕ) (w : Writer) (ps : List Part) : w.pkt <+: (parts N w ps).pkt := by
  induction ps generalizing w with
  | nil => exact List.prefix_refl _
  | cons p rest ih => exact (part_grow N w p).trans (ih (part N w p))

theorem sound_part {T N : ℕ} {w : Writer} (h : w.Sound T) (hlow : w.pkt.length ≤ 2^14) {p : Part}
    (hp : p.Good) : (part N w p).Sound T := by
  cases p with
  | raw b => exact h.raw b
  | name ls => exact h.name N hp (Sound.near h hlow ls)

theorem sound_parts {T N : ℕ} {w : Writer} (h : w.Sound T) {ps : List Part}
    (hlow : (parts N w ps).pkt.length ≤ 2^14) (hp : ∀ p ∈ ps, p.Good) :
    (parts N w ps).Sound T := by
  induction ps generalizing w with
  | nil => exact h
  | cons p rest ih =>
    have hle := ((part_grow N w p).trans (parts_grow N (part N w p) rest)).length_le
    exact ih (sound_part h (hle.trans hlow) (hp p (by simp))) hlow fun q hq => hp q (by simp [hq])

/-- What follows in a packet depends on its length and the table only. -/
theorem parts_tail (N : ℕ) (ps : List Part) (w w' : Writer) (hlen : w.pkt.length = w'.pkt.length)
    (htab : w.tab = w'.tab) : ∃ tail, (parts N w ps).pkt = w.pkt ++ tail ∧
      (parts N w' ps).pkt = w'.pkt ++ tail ∧ (parts N w ps).tab = (parts N w' ps).tab := by
  induction ps generalizing w w' with
  | nil => exact ⟨[], by simp [parts], by simp [parts], htab⟩
  | cons p rest ih =>
    have hstep : ∃ x, (part N w p).pkt = w.pkt ++ x ∧ (part N w' p).pkt = w'.pkt ++ x ∧
        (part N w p).tab = (part N w' p).tab := by
      cases p with
      | raw b => exact ⟨b, rfl, rfl, htab⟩
      | name ls =>
        exact ⟨code w.tab ls, rfl, by rw [htab]; rfl, by simp only [part, Writer.name, htab, hlen]⟩
    obtain ⟨x, h1, h2, h3⟩ := hstep
    obtain ⟨y, g1, g2, g3⟩ := ih (part N w p) (part N w' p) (by rw [h1, h2]; simp [hlen]) h3
    exact ⟨x ++ y, by rw [← List.append_assoc, ← h1]; exact g1,
      by rw [← List.append_assoc, ← h2]; exact g2, g3⟩

/-- No name of a sequence is read through more than `J` pointers. -/
def Shallow (N J : ℕ) (w : Writer) : List Part → Prop
  | [] => True
  | .raw b :: rest => Shallow N J (w.raw b) rest
  | .name ls :: rest => depthOf (reuse w.tab ls) ≤ J ∧ Shallow N J (w.name N ls) rest

theorem shallow_of_labels {T N J : ℕ} {w : Writer} (h : w.Sound T) {ps : List Part}
    (hlow : (parts N w ps).pkt.length ≤ 2^14) (hp : ∀ p ∈ ps, p.Good)
    (hJ : ∀ ls, .name ls ∈ ps → ls.length ≤ J) : Shallow N J w ps := by
  induction ps generalizing w with
  | nil => trivial
  | cons p rest ih =>
    have hle := ((part_grow N w p).trans (parts_grow N (part N w p) rest)).length_le
    have hrest := ih (sound_part h (hle.trans hlow) (hp p (by simp))) hlow
      (fun q hq => hp q (by simp [hq])) fun ls hls => hJ ls (by simp [hls])
    cases p with
    | raw b => exact hrest
    | name ls => exact ⟨(depthOf_reuse_le h ls).trans (hJ ls (by simp)), hrest⟩

def nameCount : List Part → ℕ
  | [] => 0
  | .raw _ :: rest => nameCount rest
  | .name _ :: rest => nameCount rest+1

theorem nameCount_raws (bs : List Bytes) : nameCount (bs.map .raw) = 0 := by
  induction bs with
  | nil => rfl
  | cons b rest ih => exact ih

def Below (k : ℕ) (w : Writer) : Prop := ∀ e ∈ w.tab, e.depth < k

theorem fresh_depth {tab : List Mark} {d pos : ℕ} {ls : List Bytes} :
    ∀ e ∈ fresh tab d pos ls, e.depth = d := by
  induction ls generalizing pos with
  | nil => exact fun e he => absurd he List.not_mem_nil
  | cons l rest ih =>
    intro e he
    rw [fresh] at he
    cases hh : hit tab (l :: rest) with
    | some e' =>
      simp only [hh] at he
      cases he
    | none =>
      simp only [hh] at he
      rcases List.mem_cons.mp he with rfl | he
      · rfl
      · exact ih e he

theorem Below.mono {j k : ℕ} {w : Writer} (h : Below j w) (hjk : j ≤ k) : Below k w :=
  fun e he => (h e he).trans_le hjk

theorem Below.depthOf_le {k : ℕ} {w : Writer} (h : Below k w) (ls : List Bytes) :
    depthOf (reuse w.tab ls) ≤ k := by
  cases hr : reuse w.tab ls with
  | none => exact Nat.zero_le _
  | some e => exact h e (reuse_mem hr).1

/-- A name adds one pointer at most. -/
theorem Below.name {k : ℕ} {w : Writer} (h : Below k w) (N : ℕ) (ls : List Bytes) :
    Below (k+1) (w.name N ls) := by
  intro e he
  rcases List.mem_append.mp (List.mem_of_mem_take he) with he | he
  · exact (h e he).trans (Nat.lt_succ_self k)
  · rw [fresh_depth e he]
    exact Nat.lt_succ_of_le (h.depthOf_le ls)

theorem shallow_of_count {N J k : ℕ} {w : Writer} (h : Below k w) {ps : List Part}
    (hJ : k+nameCount ps ≤ J) : Shallow N J w ps ∧ Below (k+nameCount ps) (parts N w ps) := by
  induction ps generalizing w k with
  | nil => exact ⟨trivial, h⟩
  | cons p rest ih =>
    cases p with
    | raw b => exact ih h hJ
    | name ls =>
      rw [nameCount] at hJ ⊢
      obtain ⟨hshallow, hbelow⟩ := ih (h.name N ls) (by omega)
      refine ⟨⟨(h.depthOf_le ls).trans (by omega), hshallow⟩, ?_⟩
      rw [← Nat.add_assoc, Nat.add_right_comm]
      exact hbelow

structure Record where
  owner : List Bytes
  fixed : Bytes
  data : List Part

def Record.Good (r : Record) : Prop := (∀ l ∈ r.owner, GoodLabel l) ∧ ∀ p ∈ r.data, p.Good

def ahead (N : ℕ) (w : Writer) (r : Record) (len : Bytes) : Writer :=
  (w.name N r.owner).raw (r.fixed ++ len)

def dataLen (N : ℕ) (w : Writer) (r : Record) : ℕ :=
  (parts N (ahead N w r [0, 0]) r.data).pkt.length-(ahead N w r [0, 0]).pkt.length

def record (N : ℕ) (w : Writer) (r : Record) : Writer :=
  parts N (ahead N w r (encU16 (UInt16.ofNat (dataLen N w r)))) r.data

def Record.parts (r : Record) (len : Bytes) : List Part :=
  .name r.owner :: .raw (r.fixed ++ len) :: r.data

theorem record_parts (N : ℕ) (w : Writer) (r : Record) :
    record N w r = PacketWriter.parts N w (r.parts (encU16 (UInt16.ofNat (dataLen N w r)))) := rfl

theorem ahead_grow (N : ℕ) (w : Writer) (r : Record) (len : Bytes) :
    w.pkt <+: (ahead N w r len).pkt :=
  (List.prefix_append w.pkt (code w.tab r.owner)).trans (List.prefix_append _ _)

theorem record_grow (N : ℕ) (w : Writer) (r : Record) : w.pkt <+: (record N w r).pkt :=
  (ahead_grow N w r _).trans (parts_grow N _ _)

theorem sound_record {T N : ℕ} {w : Writer} (h : w.Sound T) {r : Record} (hr : r.Good)
    (hlow : (record N w r).pkt.length ≤ 2^14) : (record N w r).Sound T := by
  have hle := (record_grow N w r).length_le
  exact sound_parts ((h.name N hr.1 (Sound.near h (hle.trans hlow) r.owner)).raw _) hlow hr.2

/-- The length field holds the length of the data. -/
theorem record_length (N : ℕ) (w : Writer) (r : Record) :
    (record N w r).pkt.length =
      (ahead N w r (encU16 (UInt16.ofNat (dataLen N w r)))).pkt.length+dataLen N w r := by
  have hlen : (ahead N w r [0, 0]).pkt.length =
      (ahead N w r (encU16 (UInt16.ofNat (dataLen N w r)))).pkt.length := by
    simp [ahead, Writer.raw]
  obtain ⟨tail, h1, h2, -⟩ := parts_tail N r.data _ _ hlen rfl
  rw [record, h2, List.length_append]
  congr 1
  rw [dataLen, h1, List.length_append]
  omega

def records (N : ℕ) (w : Writer) (rs : List Record) : Writer := rs.foldl (record N) w

theorem records_grow (N : ℕ) (w : Writer) (rs : List Record) : w.pkt <+: (records N w rs).pkt := by
  induction rs generalizing w with
  | nil => exact List.prefix_refl _
  | cons r rest ih => exact (record_grow N w r).trans (ih (record N w r))

def nameSize (ls : List Bytes) : ℕ := if ls = [] then 1 else (dotted ls).length+2

def Part.size : Part → ℕ
  | .raw b => b.length
  | .name ls => nameSize ls

def Record.size (r : Record) : ℕ :=
  nameSize r.owner+r.fixed.length+2+(r.data.map Part.size).sum

theorem parts_length_le (N : ℕ) (w : Writer) (ps : List Part) (hp : ∀ p ∈ ps, p.Good) :
    (parts N w ps).pkt.length ≤ w.pkt.length+(ps.map Part.size).sum := by
  induction ps generalizing w with
  | nil => simp [parts]
  | cons p rest ih =>
    have hhead : (part N w p).pkt.length ≤ w.pkt.length+p.size := by
      cases p with
      | raw b => simp [part, Writer.raw, Part.size]
      | name ls =>
        have := length_code_le w.tab ls (hp (.name ls) (by simp))
        simp only [part, Writer.name, List.length_append, Part.size, nameSize]
        omega
    have := ih (part N w p) fun q hq => hp q (by simp [hq])
    simp only [parts, List.foldl_cons, List.map_cons, List.sum_cons] at this ⊢
    omega

theorem record_length_le (N : ℕ) (w : Writer) {r : Record} (hr : r.Good) :
    (record N w r).pkt.length ≤ w.pkt.length+r.size := by
  have h1 := parts_length_le N (ahead N w r (encU16 (UInt16.ofNat (dataLen N w r)))) r.data hr.2
  have h2 := length_code_le w.tab r.owner hr.1
  simp only [ahead, Writer.raw, Writer.name, List.length_append, length_encU16] at h1
  simp only [record, Record.size, nameSize, ahead, Writer.raw, Writer.name]
  omega

theorem records_length_le (N : ℕ) (w : Writer) (rs : List Record) (hr : ∀ r ∈ rs, r.Good) :
    (records N w rs).pkt.length ≤ w.pkt.length+(rs.map Record.size).sum := by
  induction rs generalizing w with
  | nil => simp [records]
  | cons r rest ih =>
    have h1 := record_length_le N w (hr r (by simp))
    have h2 := ih (record N w r) fun q hq => hr q (by simp [hq])
    simp only [records, List.foldl_cons, List.map_cons, List.sum_cons] at h2 ⊢
    omega

theorem sound_records {T N : ℕ} {w : Writer} (h : w.Sound T) {rs : List Record}
    (hr : ∀ r ∈ rs, r.Good) (hlow : (records N w rs).pkt.length ≤ 2^14) :
    (records N w rs).Sound T := by
  induction rs generalizing w with
  | nil => exact h
  | cons r rest ih =>
    have hle := (records_grow N (record N w r) rest).length_le
    exact ih (sound_record h (hr r (by simp)) (hle.trans hlow))
      (fun q hq => hr q (by simp [hq])) hlow

end DnsPkt.PacketWriter
