import DnsPkt.NameEncoder

/-!
# Names without compression

With an empty suffix table `encode_name` writes the pieces between the dots
of its string one after another, each behind its length, and a zero byte.
An empty piece is written as a zero byte, where a reader takes the name to
end. So the bytes are one name unless a piece is empty. A dot at the end
makes no empty piece, because the loop ends with the string.
-/

set_option autoImplicit false

namespace DnsPkt.PlainName
open DnsPkt.CheckedRun DnsPkt.CheckedRun.Run DnsPkt.Octets DnsPkt.Protocol DnsPkt.WireName
open DnsPkt.NameCompression DnsPkt.NameEncoder

def splitDots : ℕ → Bytes → List Bytes
  | 0, _ => []
  | k+1, name => if name = [] then [] else firstLabel name :: splitDots k (afterLabel name)

def pieces (name : Bytes) : List Bytes := splitDots name.length name

theorem length_firstLabel_le (name : Bytes) : (firstLabel name).length ≤ name.length :=
  (List.takeWhile_sublist _).length_le

theorem take_firstLabel (name : Bytes) : name.take (firstLabel name).length = firstLabel name :=
  (List.prefix_iff_eq_take.mp (List.takeWhile_prefix _)).symm

theorem length_afterLabel (name : Bytes) :
    (afterLabel name).length = name.length-((firstLabel name).length+1) := List.length_drop

theorem length_code_pieces (k : ℕ) (name : Bytes) :
    (code [] (splitDots k name)).length ≤ name.length+2 := by
  induction k generalizing name with
  | zero => simp [splitDots, code]
  | succ k ih =>
    unfold splitDots
    by_cases hname : name = []
    · simp [hname, code]
    · rw [if_neg hname, code_of_miss rfl]
      have hrest := ih (afterLabel name)
      have hfirst := length_firstLabel_le name
      rw [length_afterLabel] at hrest
      by_cases hlast : (firstLabel name).length = name.length
      · have hnil : afterLabel name = [] := List.drop_eq_nil_of_le (by omega)
        have hone : (code [] (splitDots k [])).length = 1 := by cases k <;> rfl
        simp only [hnil, List.length_cons, List.length_append, hone]
        omega
      · simp only [List.length_cons, List.length_append]
        omega

theorem isLabel_pieces {k : ℕ} {name : Bytes} (h0 : (0 : UInt8) ∉ name) :
    ∀ l ∈ splitDots k name, (46 : UInt8) ∉ l ∧ (0 : UInt8) ∉ l := by
  induction k generalizing name with
  | zero => simp [splitDots]
  | succ k ih =>
    unfold splitDots
    by_cases hname : name = []
    · simp [hname]
    · rw [if_neg hname]
      intro l hl
      rcases List.mem_cons.mp hl with rfl | hl
      · refine ⟨fun hdot => ?_, fun hz => h0 ((List.takeWhile_sublist _).subset hz)⟩
        have := List.mem_takeWhile_imp hdot
        simp at this
      · exact ih (fun hz => h0 ((List.drop_sublist _ _).subset hz)) l hl

theorem findSuffix_longer {s : DnsEnc} {name : Bytes}
    (h : ∀ e ∈ s.suffix, name.length < e.name.length) (offset : ℕ) :
    findSuffix s offset name = none := by
  refine List.find?_eq_none.mpr fun e he => ?_
  simp only [decide_eq_true_eq, not_and]
  intro _ hfold
  have hlen := congrArg List.length hfold
  rw [length_fold, length_fold] at hlen
  have := h e he
  omega

theorem mem_storeSuffix {name : Bytes} {w : ℕ} {s : DnsEnc} {e : DnsSuffix}
    (h : e ∈ (storeSuffix name w s).suffix) : e ∈ s.suffix ∨ e.name = name := by
  unfold storeSuffix at h
  split at h
  · rcases List.mem_append.mp h with h | h
    · exact .inl h
    · rw [List.mem_singleton.mp h]
      exact .inr rfl
  · exact .inl h

theorem pktBuf_storeSuffix (name : Bytes) (w : ℕ) (s : DnsEnc) :
    (storeSuffix name w s).pktBuf = s.pktBuf := by
  unfold storeSuffix
  split <;> rfl

/-- What the loop makes of the pieces of a name: it fails at a piece that is too long, or
writes them all. -/
inductive Plain (s : DnsEnc) (w : ℕ) (ls : List Bytes) : Outcome DnsEnc ℤ Fault (Option ℕ) → Prop
  | long (t : DnsEnc) (h : ∃ l ∈ ls, dnsLabelMaxstr < l.length) : Plain s w ls (.ok none t)
  | written (t : DnsEnc) (h : ∀ l ∈ ls, l.length ≤ dnsLabelMaxstr)
      (hbuf : t.pktBuf = patch s.pktBuf w (code [] ls)) :
      Plain s w ls (.ok (some (w+(code [] ls).length)) t)

theorem Plain.cons {s s' : DnsEnc} {w : ℕ} {l : Bytes} {ls : List Bytes}
    {o : Outcome DnsEnc ℤ Fault (Option ℕ)} (h : Plain s' (w+1+l.length) ls o)
    (hl : l.length ≤ dnsLabelMaxstr)
    (hbuf : s'.pktBuf = patch s.pktBuf w (UInt8.ofNat l.length :: l))
    (hfit : w+1+l.length ≤ s.pktBuf.length) : Plain s w (l :: ls) o := by
  have hcode : code [] (l :: ls) = (UInt8.ofNat l.length :: l) ++ code [] ls := code_of_miss rfl
  have hlen : (UInt8.ofNat l.length :: l).length = l.length+1 := rfl
  cases h with
  | long t h =>
    obtain ⟨l', hl', hlong⟩ := h
    exact .long t ⟨l', List.mem_cons_of_mem _ hl', hlong⟩
  | written t h ht =>
    have hend : w+1+l.length+(code [] ls).length = w+(code [] (l :: ls)).length := by
      rw [hcode, List.length_append, hlen]
      omega
    rw [hend]
    refine .written t (List.forall_mem_cons.mpr ⟨hl, h⟩) ?_
    have hpatch := patch_patch s.pktBuf w (UInt8.ofNat l.length :: l) (code [] ls) (by omega)
    rw [ht, hbuf, hcode, ← hpatch, hlen, show w+(l.length+1) = w+1+l.length by omega]

theorem encodeLabels_plain (offset k w : ℕ) {name : Bytes} {s : DnsEnc} (hk : name.length ≤ k)
    (hlen : name.length ≤ dnsNameMaxstr) (hlong : ∀ e ∈ s.suffix, name.length < e.name.length)
    (hroom : w+(code [] (splitDots k name)).length ≤ s.pktBuf.length) :
    Plain s w (splitDots k name) (encodeLabels offset k w name s) := by
  have hnil (k w : ℕ) (s : DnsEnc) (h : w+(code [] (splitDots k [])).length ≤ s.pktBuf.length) :
      Plain s w (splitDots k []) (encodeLabels offset k w [] s) := by
    have hp : splitDots k [] = [] := by cases k <;> rfl
    rw [hp] at h ⊢
    rw [encodeLabels_nil _ _ _ _ h]
    exact .written _ (by simp) rfl
  induction k generalizing w name s with
  | zero =>
    obtain rfl : name = [] := List.eq_nil_of_length_eq_zero (by omega)
    exact hnil 0 w s hroom
  | succ k ih =>
    by_cases hname : name = []
    · subst hname
      exact hnil (k+1) w s hroom
    have hfirst := length_firstLabel_le name
    have hpos : 0 < name.length := List.length_pos_iff.mpr hname
    have hmod : (firstLabel name).length % 256 = (firstLabel name).length :=
      Nat.mod_eq_of_lt (lt_of_le_of_lt (hfirst.trans hlen) (by decide))
    have hafter := length_afterLabel name
    rw [splitDots, if_neg hname] at hroom ⊢
    rw [code_of_miss rfl, List.length_cons, List.length_append] at hroom
    rw [encodeLabels, if_neg hname, bind_of_ok (get_run s), findSuffix_longer hlong]
    dsimp only
    rw [bind_of_ok (modify_run _ _), hmod]
    by_cases hbig : dnsLabelMaxstr < (firstLabel name).length
    · rw [if_pos hbig]
      exact .long _ ⟨_, List.mem_cons_self, hbig⟩
    have hbuf := pktBuf_storeSuffix name w s
    have hfit : w+(UInt8.ofNat (firstLabel name).length :: firstLabel name).length ≤
        s.pktBuf.length := by
      rw [List.length_cons]
      omega
    rw [if_neg hbig, take_firstLabel, bind_of_ok (putBuf_run (by rw [hbuf]; exact hfit)), hbuf]
    refine Plain.cons (ih _ (by omega) (by omega) ?_ ?_) (by omega) rfl (by omega)
    · intro e he
      rcases mem_storeSuffix he with he | he
      · have := hlong e he
        omega
      · rw [he]
        omega
    · dsimp only
      rw [length_patch _ _ _ hfit]
      omega

/-- A reader skips the pieces up to the first empty one. -/
theorem skip_code (ls : List Bytes) (hle : ∀ l ∈ ls, l.length ≤ 63) (a c : Bytes) (k : ℕ)
    (hk : ls.length < k) : skipName (a ++ (code [] ls ++ c)) k a.length =
      some (a.length+(code [] (ls.takeWhile (· ≠ []))).length) := by
  induction ls generalizing a k with
  | nil =>
    obtain ⟨k, rfl⟩ : ∃ k', k = k'+1 := ⟨k-1, by simp at hk; omega⟩
    simp [skipName, code]
  | cons l rest ih =>
    obtain ⟨k, rfl⟩ : ∃ k', k = k'+1 := ⟨k-1, by omega⟩
    have hl := hle l List.mem_cons_self
    have hget : (a ++ (code [] (l :: rest) ++ c))[a.length]? = some (UInt8.ofNat l.length) := by
      rw [code_of_miss rfl]
      simp
    have hnat : (UInt8.ofNat l.length).toNat = l.length := by
      rw [UInt8.toNat_ofNat']
      omega
    rw [skipName, hget]
    dsimp only
    by_cases hempty : l = []
    · subst hempty
      simp [code]
    · have hpos : 0 < l.length := List.length_pos_iff.mpr hempty
      have hne : UInt8.ofNat l.length ≠ 0 := by
        intro h0
        have := congrArg UInt8.toNat h0
        rw [hnat] at this
        simp at this
        exact hempty this
      have hsplit : a ++ (code [] (l :: rest) ++ c) =
          (a ++ UInt8.ofNat l.length :: l) ++ (code [] rest ++ c) := by
        rw [code_of_miss rfl]
        simp
      have hstep := ih (fun l' hl' => hle l' (List.mem_cons_of_mem _ hl'))
        (a ++ UInt8.ofNat l.length :: l) k (by simp only [List.length_cons] at hk; omega)
      rw [if_neg hne, hnat, if_neg (by omega), hsplit]
      rw [show (a ++ UInt8.ofNat l.length :: l).length =
        a.length+1+l.length by simp; omega] at hstep
      rw [hstep, List.takeWhile_cons_of_pos (by simpa using hempty), code_of_miss rfl]
      simp only [List.length_cons, List.length_append]
      congr 1
      omega

theorem length_lt_code (ls : List Bytes) : ls.length < (code [] ls).length := by
  induction ls with
  | nil => exact Nat.zero_lt_one
  | cons l rest ih =>
    rw [code_of_miss rfl, List.length_cons, List.length_cons, List.length_append]
    omega

theorem code_whole_iff (ls : List Bytes) :
    (code [] (ls.takeWhile (· ≠ []))).length = (code [] ls).length ↔ [] ∉ ls := by
  induction ls with
  | nil => simp
  | cons l rest ih =>
    by_cases hempty : l = []
    · subst hempty
      have := length_lt_code rest
      refine iff_of_false ?_ (by simp)
      rw [code_of_miss rfl]
      simp only [List.takeWhile_cons, ne_eq, not_true_eq_false, decide_false, Bool.false_eq_true,
        if_false, code, List.length_cons, List.length_nil, List.nil_append]
      omega
    · have hrest : [] ∉ l :: rest ↔ [] ∉ rest := by simp [Ne.symm hempty]
      rw [hrest, ← ih, List.takeWhile_cons_of_pos (by simpa using hempty), code_of_miss rfl,
        code_of_miss rfl]
      simp

theorem nameEnd_code {ls : List Bytes} (hle : ∀ l ∈ ls, l.length ≤ 63) {b : Bytes} {w : ℕ}
    (hfit : w+(code [] ls).length ≤ b.length) : nameEnd (patch b w (code [] ls)) w =
      some (w+(code [] (ls.takeWhile (· ≠ []))).length) := by
  have hw : (b.take w).length = w := by
    rw [List.length_take]
    omega
  have hlong := length_lt_code ls
  have hskip := skip_code ls hle (b.take w) (b.drop (w+(code [] ls).length))
    ((patch b w (code [] ls)).length+1) (by rw [length_patch _ _ _ hfit]; omega)
  rw [hw] at hskip
  rw [nameEnd, ← hskip, patch, List.append_assoc]

theorem expands_code {ls : List Bytes} (hgood : ∀ l ∈ ls, GoodLabel l) {b : Bytes} {w : ℕ}
    (hfit : w+(code [] ls).length ≤ b.length) :
    ∃ ls', Expands (patch b w (code [] ls)) w ls' := by
  have hw : (b.take w).length = w := by
    rw [List.length_take]
    omega
  have hreuse : reuse [] ls = none := by
    induction ls with
    | nil => rfl
    | cons l rest ih =>
      refine (reuse_of_miss rfl).trans (ih (fun l' hl' => hgood l' (List.mem_cons_of_mem _ hl')) ?_)
      rw [code_of_miss rfl, List.length_cons, List.length_append] at hfit
      omega
  have htab : ∀ e ∈ ([] : List Mark), MarkOk 0 (patch b w (code [] ls)) e := by simp
  have hpre : b.take w ++ code [] ls <+: patch b w (code [] ls) := List.prefix_append _ _
  obtain ⟨ls', hr, -⟩ := code_reads htab ls hgood (by simp [hreuse]) (b.take w) hpre
  rw [hw] at hr
  exact ⟨ls', hr.expands le_rfl⟩

/-- The bytes from `w` to the returned position are one name, or no position was returned. -/
def NullOrName (w : ℕ) (r : Option ℕ) (t : DnsEnc) : Prop :=
  ∀ w', r = some w' → nameEnd t.pktBuf w = some w' ∧ ∃ ls, Expands t.pktBuf w ls

/-- With an empty table the encoder fails or writes one name, exactly when no piece of the
string is empty or some piece is too long. -/
theorem plain_name_iff {name : Bytes} (h0 : (0 : UInt8) ∉ name)
    (hlen : name.length ≤ dnsNameMaxstr) {s : DnsEnc} (hempty : s.suffix = []) {w : ℕ}
    (hroom : w+dnsNameMaxlen ≤ s.pktBuf.length) :
    ∃ r t, encodeName w (some name) s = .ok r t ∧
      (NullOrName w r t ↔
        [] ∉ pieces name ∨ ∃ l ∈ pieces name, dnsLabelMaxstr < l.length) := by
  have hcode := length_code_pieces name.length name
  have hfit : w+(code [] (pieces name)).length ≤ s.pktBuf.length :=
    (Nat.add_le_add_left (hcode.trans (Nat.add_le_add_right hlen 2)) w).trans hroom
  have hplain := encodeLabels_plain w name.length w le_rfl hlen (by simp [hempty]) hfit
  change Plain s w (pieces name) (encodeName w (some name) s) at hplain
  generalize encodeName w (some name) s = o at hplain
  cases hplain with
  | long t h => exact ⟨none, t, rfl, iff_of_true (by simp [NullOrName]) (.inr h)⟩
  | written t hle hbuf =>
    refine ⟨_, t, rfl, ?_⟩
    have hshort : ¬ ∃ l ∈ pieces name, dnsLabelMaxstr < l.length := by
      rintro ⟨l, hl, hlong⟩
      have := hle l hl
      omega
    rw [or_iff_left hshort, ← code_whole_iff]
    constructor
    · intro h
      have hend := (h _ rfl).1
      rw [hbuf, nameEnd_code hle hfit, Option.some.injEq] at hend
      omega
    · intro hwhole w' hw'
      obtain rfl := Option.some.inj hw'
      rw [hbuf, nameEnd_code hle hfit, hwhole]
      refine ⟨rfl, expands_code (fun l hl => ?_) hfit⟩
      have hnonempty := (code_whole_iff _).mp hwhole
      obtain ⟨hdot, hnul⟩ := isLabel_pieces h0 l hl
      exact ⟨⟨List.length_pos_iff.mpr fun h => hnonempty (h ▸ hl), hdot, hnul⟩, hle l hl⟩

def emptyEnc : DnsEnc := ⟨List.replicate 300 0, 0, [], Nat.zero_le _⟩

theorem trailing_dot_is_name : ∃ r t, encodeName 0 (some [97, 46]) emptyEnc = .ok r t ∧
    NullOrName 0 r t := by
  have h0 : (0 : UInt8) ∉ [97, 46] := by decide
  have hsize : emptyEnc.pktBuf.length = 300 := List.length_replicate
  have hroom : 0+dnsNameMaxlen ≤ emptyEnc.pktBuf.length := by
    rw [hsize]
    decide
  obtain ⟨r, t, hrun, h⟩ := plain_name_iff h0 (by decide) rfl hroom
  exact ⟨r, t, hrun, h.mpr (.inl (by decide))⟩

theorem lone_dot_is_no_name : ∃ r t, encodeName 0 (some [46]) emptyEnc = .ok r t ∧
    ¬ NullOrName 0 r t := by
  have hrun : (encodeName 0 (some [46]) emptyEnc).result.map
      (fun p => (p.1, nameEnd p.2.pktBuf 0)) = some (some 2, some 1) := by decide +kernel
  obtain ⟨r, t, hr, hp⟩ := Outcome.eq_ok hrun
  simp only [Prod.mk.injEq] at hp
  refine ⟨r, t, hr, fun h => ?_⟩
  have := (h 2 hp.1).1
  rw [hp.2] at this
  cases this

end DnsPkt.PlainName
