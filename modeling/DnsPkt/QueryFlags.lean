import DnsPkt.GeneratedFrame
import DnsPkt.StepMachine
import Mathlib.Data.List.Induction

/-!
# Lists of query flags

`set_dns_flags` of `dns_gen.c` reads a list such as `AD:1|CD:0` through slices
of the argument. The list is read entry by entry, and the last entry that names
a flag decides on it.
-/

set_option autoImplicit false

namespace DnsPkt.QueryFlags
open DnsPkt.Octets DnsPkt.StepMachine DnsPkt.MessageStore DnsPkt.MessageDecoder

/-- The bytes that a slice covers, or `none` for one that points nowhere. -/
abbrev Slice := Option Bytes

def isWhite (ch : UInt8) : Bool := ch = 32 ∨ ch = 9 ∨ ch = 11 ∨ ch = 13 ∨ ch = 10

def sliceLtrim (b : Bytes) : Bytes := b.dropWhile isWhite

def sliceRtrim (b : Bytes) : Bytes := (b.reverse.dropWhile isWhite).reverse

def sliceTrim (s : Slice) : Slice := s.map fun b => sliceLtrim (sliceRtrim b)

def sliceSplitch (src : Slice) (ch : UInt8) : Slice × Slice :=
  match src with
  | none => (none, none)
  | some b => if ch ∈ b then (some (b.takeWhile (· ≠ ch)), some ((b.dropWhile (· ≠ ch)).drop 1))
    else (some b, none)

def sliceRsplit (src : Slice) (ch : UInt8) : Slice × Slice :=
  match src with
  | none => (none, none)
  | some b =>
    if ch ∈ b then
      let tok := (b.reverse.takeWhile (· ≠ ch)).reverse
      (some tok, some (b.take (b.length-tok.length-1)))
    else (none, some b)

inductive DnsFlag where
  | cd | rd | ad
  deriving DecidableEq, Repr

def DnsFlag.bit : DnsFlag → ℕ
  | .cd => 11
  | .rd => 8
  | .ad => 5

def DnsFlag.mask : DnsFlag → UInt16
  | .cd => 0x0800
  | .rd => 0x0100
  | .ad => 0x0020

def DnsFlag.text : DnsFlag → Bytes
  | .cd => [67, 68]
  | .rd => [82, 68]
  | .ad => [65, 68]

def dnsGetFlag (str : Bytes) : UInt16 :=
  if fold (cstr str) = fold DnsFlag.cd.text then DnsFlag.cd.mask
  else if fold (cstr str) = fold DnsFlag.rd.text then DnsFlag.rd.mask
  else if fold (cstr str) = fold DnsFlag.ad.text then DnsFlag.ad.mask
  else 0

def getDnsFlag (str : Slice) : UInt16 := dnsGetFlag ((str.getD []).take 9)

def getFlagVal (str : Slice) : ℕ :=
  if str = some [48] then 1 else if str = some [49] then 2 else 0

structure DnsGen extends GeneratedFrame.DnsGen where
  dnsName : Bytes
  dnsType : UInt16
  dnsClass : UInt16
  dnsFlags : UInt16
  msg : DnsMsg
  msgLen : ℕ
  tidSent : UInt16
  useTcp : Bool

structure FlagScan where
  flagsStr : Slice
  flags : UInt16
  deriving DecidableEq

def flagStep (s : FlagScan) : Turn FlagScan (Option UInt16) :=
  if s.flagsStr.getD [] = [] then .done (some s.flags) else
  let (flag, flagsStr) := sliceSplitch s.flagsStr 124
  let (onoff, flag) := sliceRsplit (sliceTrim flag) 58
  let mask := getDnsFlag flag
  if mask = 0 then .done none else
  let val := getFlagVal (sliceTrim onoff)
  if val = 0 then .done none else
  .next ⟨flagsStr, if val = 1 then s.flags &&& ~~~mask else s.flags ||| mask⟩

def setDnsFlags (gen : DnsGen) (value : Bytes) : ℤ × DnsGen :=
  match run flagStep none (value.length+1) ⟨some (cstr value), 0⟩ with
  | none => (-1, gen)
  | some flags => (0, { gen with dnsFlags := flags })

/-- What stands between the bars of a text, without an empty rest. -/
def pieces (s : Bytes) : List Bytes :=
  let ps := s.splitOn 124
  if ps.getLast? = some [] then ps.dropLast else ps

def entries (value : Bytes) : List Bytes := pieces (cstr value)

def entryName (entry : Bytes) : Bytes :=
  ((sliceRsplit (sliceTrim (some entry)) 58).2.getD [])

def entryValue (entry : Bytes) : Bytes :=
  ((sliceTrim (sliceRsplit (sliceTrim (some entry)) 58).1).getD [])

def Names (f : DnsFlag) (entry : Bytes) : Prop := fold (entryName entry) = fold f.text

instance (f : DnsFlag) (entry : Bytes) : Decidable (Names f entry) :=
  inferInstanceAs (Decidable (_ = _))

/-- The last entry that names a flag has the value 1. -/
def Requested (f : DnsFlag) (value : Bytes) : Prop :=
  ((entries value).filter (Names f ·)).getLast?.map entryValue = some [49]

instance (f : DnsFlag) (value : Bytes) : Decidable (Requested f value) :=
  inferInstanceAs (Decidable (_ = _))

/-- The same entries, with those that name one flag in the same order. -/
def Reordered (es es' : List Bytes) : Prop :=
  es.Perm es' ∧ ∀ f, es.filter (Names f ·) = es'.filter (Names f ·)

def applyEntry (flags : UInt16) (entry : Bytes) : Option UInt16 :=
  let (onoff, flag) := sliceRsplit (sliceTrim (some entry)) 58
  let mask := getDnsFlag flag
  if mask = 0 then none else
  let val := getFlagVal (sliceTrim onoff)
  if val = 0 then none else some (if val = 1 then flags &&& ~~~mask else flags ||| mask)

theorem pieces_cons {a : Bytes} (h : (124 : UInt8) ∉ a) (t : Bytes) :
    pieces (a ++ 124 :: t) = a :: pieces t := by
  have hne := List.splitOn_ne_nil (124 : UInt8) t
  have hlast : (a :: t.splitOn 124).getLast? = (t.splitOn 124).getLast? :=
    List.getLast?_cons_of_ne_nil hne
  rw [pieces, List.splitOn_append_cons_self_of_not_mem h]
  simp only [hlast, List.dropLast_cons_of_ne_nil hne, pieces]
  split_ifs <;> rfl

theorem pieces_single {a : Bytes} (h : (124 : UInt8) ∉ a) (hne : a ≠ []) : pieces a = [a] := by
  rw [pieces, List.splitOn_eq_singleton h]
  simp [hne]

theorem sliceSplitch_at {a : Bytes} {ch : UInt8} (h : ch ∉ a) (t : Bytes) :
    (sliceSplitch (some (a ++ ch :: t)) ch).1 = some a ∧
      (sliceSplitch (some (a ++ ch :: t)) ch).2 = some t := by
  have hne : ∀ x ∈ a, decide (x ≠ ch) = true := by
    intro x hx
    simp only [ne_eq, decide_eq_true_eq]
    rintro rfl
    exact h hx
  rw [sliceSplitch, if_pos (by simp), List.takeWhile_append_of_pos hne,
    List.dropWhile_append_of_pos hne]
  simp

theorem flagStep_split {s : Bytes} (hs : s ≠ []) (flags : UInt16) :
    flagStep ⟨some s, flags⟩ =
      (applyEntry flags ((sliceSplitch (some s) 124).1.getD [])).elim (.done none)
        fun fl => .next ⟨(sliceSplitch (some s) 124).2, fl⟩ := by
  have htok : (sliceSplitch (some s) 124).1 = some ((sliceSplitch (some s) 124).1.getD []) := by
    rw [sliceSplitch]
    split_ifs <;> rfl
  simp only [flagStep, Option.getD_some, hs, ↓reduceIte, applyEntry, ← htok]
  split_ifs <;> rfl

theorem flag_loop (n : ℕ) (s : Bytes) (hn : s.length ≤ n) (flags : UInt16) :
    ∃ k, Ends flagStep none k ⟨some s, flags⟩ ((pieces s).foldlM applyEntry flags) := by
  induction n generalizing s flags with
  | zero =>
    obtain rfl : s = [] := List.length_eq_zero_iff.mp (by omega)
    exact ⟨1, ends_done rfl⟩
  | succ n ih =>
    by_cases hs : s = []
    · subst hs
      exact ⟨1, ends_done rfl⟩
    have hstep := flagStep_split hs flags
    by_cases hbar : (124 : UInt8) ∈ s
    · obtain ⟨a, t, rfl, ha⟩ := List.eq_append_cons_of_mem hbar
      obtain ⟨hfirst, hrest⟩ := sliceSplitch_at ha t
      rw [hfirst, hrest, Option.getD_some] at hstep
      rw [pieces_cons ha, List.foldlM_cons]
      cases happ : applyEntry flags a with
      | none =>
        rw [happ] at hstep
        exact ⟨1, ends_done hstep⟩
      | some fl =>
        rw [happ] at hstep
        obtain ⟨k, hk⟩ := ih t (by rw [List.length_append, List.length_cons] at hn; omega) fl
        exact ⟨k+1, (leads_next hstep).ends hk⟩
    · rw [sliceSplitch, if_neg hbar, Option.getD_some] at hstep
      rw [pieces_single hbar hs, List.foldlM_cons]
      cases happ : applyEntry flags s with
      | none =>
        rw [happ] at hstep
        exact ⟨1, ends_done hstep⟩
      | some fl =>
        rw [happ] at hstep
        exact ⟨2, (leads_next hstep).ends (ends_done rfl)⟩

theorem flagStep_counts (s t : FlagScan) (h : flagStep s = .next t) :
    (t.flagsStr.getD []).length < (s.flagsStr.getD []).length := by
  obtain ⟨str, flags⟩ := s
  cases str with
  | none => cases h
  | some b =>
    by_cases hb : b = []
    · subst hb
      cases h
    · rw [flagStep_split hb] at h
      have hrest : ((sliceSplitch (some b) 124).2.getD []).length < b.length := by
        have hpos := List.length_pos_iff.mpr hb
        rw [sliceSplitch]
        split_ifs
        · have hle := (List.dropWhile_sublist (fun x => decide (x ≠ (124 : UInt8)))
            (l := b)).length_le
          simp only [Option.getD_some, List.length_drop]
          omega
        · exact hpos
      cases happ : applyEntry flags ((sliceSplitch (some b) 124).1.getD []) with
      | none =>
        rw [happ] at h
        cases h
      | some fl =>
        rw [happ] at h
        cases h
        exact hrest

/-- The flags are what the entries make of zero, one after another. -/
theorem setDnsFlags_eq (gen : DnsGen) (value : Bytes) : setDnsFlags gen value =
    ((entries value).foldlM applyEntry 0).elim (-1, gen)
      fun flags => (0, { gen with dnsFlags := flags }) := by
  obtain ⟨k, hk⟩ := flag_loop _ (cstr value) le_rfl 0
  have hlen := cstr_length_le value
  rw [setDnsFlags, hk.enough flagStep_counts (by simp only [Option.getD_some]; omega), entries]
  cases (pieces (cstr value)).foldlM applyEntry 0 <;> rfl

theorem flagSet_on (flags : UInt16) (f : DnsFlag) (i : ℕ) :
    flagSet (flags ||| f.mask) i = (flagSet flags i || decide (f.bit = i)) := by
  have hmask : f.mask.toNat = 2^f.bit := by cases f <;> rfl
  rw [flagSet, flagSet, UInt16.toNat_or, Nat.testBit_or, hmask, Nat.testBit_two_pow]

theorem flagSet_off (flags : UInt16) (f : DnsFlag) (i : ℕ) :
    flagSet (flags &&& ~~~f.mask) i = (flagSet flags i && !decide (f.bit = i)) := by
  have hmask : (~~~f.mask).toNat = 2^16-(2^f.bit+1) := by cases f <;> rfl
  have hlt : 2^f.bit < 2^16 := by cases f <;> decide
  rw [flagSet, flagSet, UInt16.toNat_and, Nat.testBit_and, hmask, Nat.testBit_two_pow_sub_succ hlt,
    Nat.testBit_two_pow]
  by_cases hi : i < 16
  · simp [hi]
  · have hbig : flags.toNat.testBit i = false := by
      have := flags.toNat_lt
      exact Nat.testBit_lt_two_pow (lt_of_lt_of_le this
        (Nat.pow_le_pow_right (by omega) (by omega)))
    simp [hbig]

theorem flags_ext {a b : UInt16} (h : ∀ i, flagSet a i = flagSet b i) : a = b :=
  UInt16.toNat_inj.mp (Nat.eq_of_testBit_eq h)

/-- The mask of a flag is its bit. -/
theorem mask_set (flags : UInt16) (f : DnsFlag) :
    flags &&& f.mask = f.mask ↔ flagSet flags f.bit := by
  have hmask (i : ℕ) : flagSet f.mask i = decide (f.bit = i) := by
    have hpow : f.mask.toNat = 2^f.bit := by cases f <;> rfl
    rw [flagSet, hpow, Nat.testBit_two_pow]
  have hand (i : ℕ) : flagSet (flags &&& f.mask) i = (flagSet flags i && decide (f.bit = i)) := by
    rw [← hmask, flagSet, UInt16.toNat_and, Nat.testBit_and]
    rfl
  constructor
  · intro h
    have hbit := hand f.bit
    rw [h, hmask] at hbit
    simpa using hbit
  · intro h
    apply flags_ext
    intro i
    rw [hand, hmask]
    by_cases hi : f.bit = i
    · subst hi
      simpa using h
    · simp [hi]

theorem bit_injective : Function.Injective DnsFlag.bit := by
  intro f g h
  cases f <;> cases g <;> first | rfl | cases h

/-- A name of two characters is not cut off. -/
theorem fold_take {x t : Bytes} (h0 : (0 : UInt8) ∉ x) (ht : t.length = 2) :
    fold (cstr (x.take 9)) = fold t ↔ fold x = fold t := by
  rw [cstr_of_no_zero _ (fun h => h0 (List.mem_of_mem_take h))]
  by_cases hx : x.length ≤ 9
  · rw [List.take_of_length_le hx]
  · constructor
    · intro h
      have := congrArg List.length h
      rw [length_fold, length_fold, List.length_take, ht] at this
      omega
    · intro h
      have := congrArg List.length h
      rw [length_fold, length_fold, ht] at this
      omega

theorem text_injective {f g : DnsFlag} (h : fold f.text = fold g.text) : f = g := by
  cases f <;> cases g <;> first | rfl | exact absurd h (by decide)

theorem getDnsFlag_named {x : Bytes} (h0 : (0 : UInt8) ∉ x) {f : DnsFlag}
    (h : fold x = fold f.text) : getDnsFlag (some x) = f.mask := by
  have hx (g : DnsFlag) (hg : g.text.length = 2) :
      fold (cstr (x.take 9)) = fold g.text ↔ f = g := by
    rw [fold_take h0 hg, h]
    exact ⟨text_injective, fun e => by rw [e]⟩
  rw [getDnsFlag, Option.getD_some, dnsGetFlag]
  simp only [hx .cd rfl, hx .rd rfl, hx .ad rfl]
  cases f <;> rfl

theorem getDnsFlag_unnamed {x : Bytes} (h0 : (0 : UInt8) ∉ x) (h : ∀ f : DnsFlag,
    fold x ≠ fold f.text) : getDnsFlag (some x) = 0 := by
  have hx (g : DnsFlag) (hg : g.text.length = 2) : fold (cstr (x.take 9)) ≠ fold g.text := by
    rw [Ne, fold_take h0 hg]
    exact h g
  rw [getDnsFlag, Option.getD_some, dnsGetFlag]
  simp only [hx .cd rfl, hx .rd rfl, hx .ad rfl, ↓reduceIte]

theorem entryName_mem {e : Bytes} {ch : UInt8} (h : ch ∈ entryName e) : ch ∈ e := by
  have htrim (x : UInt8) (b : Bytes) (hx : x ∈ sliceLtrim (sliceRtrim b)) : x ∈ b := by
    have h1 := (List.dropWhile_sublist isWhite).mem hx
    rw [sliceRtrim, List.mem_reverse] at h1
    exact List.mem_reverse.mp ((List.dropWhile_sublist isWhite).mem h1)
  rw [entryName, sliceTrim, Option.map_some, sliceRsplit] at h
  split_ifs at h
  · exact htrim ch e (List.mem_of_mem_take h)
  · exact htrim ch e h

/-- An entry has a name of a flag and a value of 0 or 1. -/
def Valid (e : Bytes) : Prop := ∃ f, Names f e ∧ (entryValue e = [48] ∨ entryValue e = [49])

/-- An entry is cut at its last colon, if it has one. -/
theorem entry_cut (e : Bytes) : ∃ v, sliceRsplit (sliceTrim (some e)) 58 = (v, some (entryName e))
    ∧ getFlagVal (sliceTrim v) = if entryValue e = [48] then 1
      else if entryValue e = [49] then 2 else 0 := by
  rw [entryName, entryValue, sliceTrim, Option.map_some, sliceRsplit]
  split_ifs <;> exact ⟨_, rfl, by simp_all [sliceTrim, getFlagVal]⟩

theorem applyEntry_named {e : Bytes} (h0 : (0 : UInt8) ∉ e) {f : DnsFlag} (hf : Names f e)
    (flags : UInt16) : applyEntry flags e = if entryValue e = [48] then
        some (flags &&& ~~~f.mask) else if entryValue e = [49] then some (flags ||| f.mask)
        else none := by
  obtain ⟨v, hcut, hval⟩ := entry_cut e
  have hmask : f.mask ≠ 0 := by cases f <;> decide
  simp only [applyEntry, hcut, hval, getDnsFlag_named (fun h => h0 (entryName_mem h)) hf,
    hmask, ↓reduceIte]
  split_ifs <;> first | rfl | contradiction

theorem applyEntry_unnamed {e : Bytes} (h0 : (0 : UInt8) ∉ e) (hf : ∀ f, ¬ Names f e)
    (flags : UInt16) : applyEntry flags e = none := by
  obtain ⟨v, hcut, -⟩ := entry_cut e
  simp only [applyEntry, hcut, getDnsFlag_unnamed (fun h => h0 (entryName_mem h)) hf, ↓reduceIte]

theorem entries_mem {value e : Bytes} (he : e ∈ entries value) : (0 : UInt8) ∉ e := by
  have hsplit : e ∈ (cstr value).splitOn 124 := by
    rw [entries, pieces] at he
    split_ifs at he
    · exact List.mem_of_mem_dropLast he
    · exact he
  have hmem (ls : List Bytes) (h : e ∈ ls) (ch : UInt8) (hch : ch ∈ e) :
      ch ∈ [124].intercalate ls := by
    induction ls with
    | nil => cases h
    | cons l ls ih =>
      cases ls with
      | nil =>
        rw [List.mem_singleton.mp h] at hch
        rwa [List.intercalate_singleton]
      | cons l' ls =>
        rw [List.intercalate_cons_cons]
        rcases List.mem_cons.mp h with rfl | h
        · exact List.mem_append_left _ (List.mem_append_left _ hch)
        · exact List.mem_append_right _ (ih h)
  intro h0
  have h := hmem _ hsplit 0 h0
  rw [List.intercalate_splitOn] at h
  exact zero_notMem_cstr value h

theorem applyEntry_some {e : Bytes} (h0 : (0 : UInt8) ∉ e) (flags : UInt16) :
    (∃ fl, applyEntry flags e = some fl) ↔ Valid e := by
  by_cases hf : ∃ f, Names f e
  · obtain ⟨f, hf⟩ := hf
    rw [applyEntry_named h0 hf]
    have hvalid : Valid e ↔ entryValue e = [48] ∨ entryValue e = [49] :=
      ⟨fun ⟨_, _, h⟩ => h, fun h => ⟨f, hf, h⟩⟩
    rw [hvalid]
    split_ifs with hoff hon <;> simp [*]
  · rw [applyEntry_unnamed h0 (fun f h => hf ⟨f, h⟩)]
    constructor
    · rintro ⟨_, h⟩
      cases h
    · rintro ⟨f, h, -⟩
      exact absurd ⟨f, h⟩ hf

/-- A list is accepted when all its entries are valid. -/
theorem fold_accepts {es : List Bytes} (h0 : ∀ e ∈ es, (0 : UInt8) ∉ e) (flags : UInt16) :
    (∃ fl, es.foldlM applyEntry flags = some fl) ↔ ∀ e ∈ es, Valid e := by
  induction es generalizing flags with
  | nil => simp
  | cons e es ih =>
    have hhead := applyEntry_some (h0 e (by simp)) flags
    rw [List.forall_mem_cons, ← hhead, List.foldlM_cons]
    cases happ : applyEntry flags e with
    | none => simp
    | some fl => simpa using ih (fun x hx => h0 x (by simp [hx])) fl

/-- An entry sets its own flag and leaves the other bits. -/
theorem applyEntry_bits {e : Bytes} (h0 : (0 : UInt8) ∉ e) {flags fl : UInt16}
    (h : applyEntry flags e = some fl) : ∃ f, Names f e ∧ ∀ i, flagSet fl i =
      if f.bit = i then decide (entryValue e = [49]) else flagSet flags i := by
  obtain ⟨f, hf, -⟩ := (applyEntry_some h0 flags).mp ⟨fl, h⟩
  rw [applyEntry_named h0 hf] at h
  refine ⟨f, hf, fun i => ?_⟩
  by_cases hoff : entryValue e = [48]
  · rw [if_pos hoff] at h
    injection h with h
    rw [← h, flagSet_off, hoff]
    split_ifs with hi <;> simp [hi]
  · rw [if_neg hoff] at h
    by_cases hon : entryValue e = [49]
    · rw [if_pos hon] at h
      injection h with h
      rw [← h, flagSet_on, hon]
      split_ifs with hi <;> simp [hi]
    · rw [if_neg hon] at h
      cases h

/-- The last entry that names a flag decides on it, and no other bit is set. -/
theorem fold_bits (es : List Bytes) (h0 : ∀ e ∈ es, (0 : UInt8) ∉ e) (fl : UInt16)
    (h : es.foldlM applyEntry 0 = some fl) :
    (∀ f, flagSet fl f.bit ↔ (es.filter (Names f ·)).getLast?.map entryValue = some [49]) ∧
      ∀ i, flagSet fl i → ∃ f, i = DnsFlag.bit f := by
  induction es using List.reverseRecOn generalizing fl with
  | nil =>
    cases h
    constructor
    · intro f
      cases f <;> decide
    · intro i hi
      rw [flagSet, UInt16.toNat_zero, Nat.zero_testBit] at hi
      cases hi
  | append_singleton es e ih =>
    rw [List.foldlM_append] at h
    obtain ⟨fl', hfl', h⟩ := Option.bind_eq_some_iff.mp h
    rw [List.foldlM_cons] at h
    obtain ⟨fl'', happ, h⟩ := Option.bind_eq_some_iff.mp h
    cases h
    have he := h0 e (by simp)
    obtain ⟨hreq, hother⟩ := ih (fun x hx => h0 x (by simp [hx])) fl' hfl'
    obtain ⟨g, hg, hbits⟩ := applyEntry_bits he happ
    constructor
    · intro f
      rw [hbits, List.filter_append]
      by_cases hgf : g = f
      · subst hgf
        rw [if_pos rfl, List.filter_cons_of_pos (by simpa using hg), List.filter_nil,
          List.getLast?_append]
        simp
      · have hf : ¬ Names f e := fun hf => hgf (text_injective (hg.symm.trans hf))
        rw [if_neg (fun h => hgf (bit_injective h)), List.filter_cons_of_neg (by simpa using hf),
          List.filter_nil, List.append_nil]
        exact hreq f
    · intro i hi
      rw [hbits] at hi
      split_ifs at hi with hnamed
      · exact ⟨g, hnamed.symm⟩
      · exact hother i hi

/-- Entries with the same last one for each flag come to the same flags. -/
theorem fold_reordered {es es' : List Bytes} (h0 : ∀ e ∈ es, (0 : UInt8) ∉ e)
    (hes : Reordered es es') {fl : UInt16} (h : es.foldlM applyEntry 0 = some fl) :
    es'.foldlM applyEntry 0 = some fl := by
  obtain ⟨hperm, hfilter⟩ := hes
  have h0' : ∀ e ∈ es', (0 : UInt8) ∉ e := fun e he => h0 e (hperm.mem_iff.mpr he)
  have hvalid := (fold_accepts h0 0).mp ⟨fl, h⟩
  obtain ⟨fl', h'⟩ := (fold_accepts h0' 0).mpr fun e he => hvalid e (hperm.mem_iff.mpr he)
  obtain ⟨hreq, hother⟩ := fold_bits es h0 fl h
  obtain ⟨hreq', hother'⟩ := fold_bits es' h0' fl' h'
  have hflag (f : DnsFlag) : flagSet fl' f.bit = flagSet fl f.bit := by
    rw [Bool.eq_iff_iff, hreq, hreq', hfilter]
  rw [h']
  congr 1
  apply flags_ext
  intro i
  rw [Bool.eq_iff_iff]
  constructor
  · intro hi
    obtain ⟨f, rfl⟩ := hother' i hi
    rwa [← hflag]
  · intro hi
    obtain ⟨f, rfl⟩ := hother i hi
    rwa [hflag]

/-- What an accepted list leaves. -/
theorem setDnsFlags_accepted {gen gen' : DnsGen} {value : Bytes}
    (h : setDnsFlags gen value = (0, gen')) : gen' = { gen with dnsFlags := gen'.dnsFlags } ∧
      (∀ f, flagSet gen'.dnsFlags f.bit ↔ Requested f value) ∧
      (∀ i, flagSet gen'.dnsFlags i → ∃ f, i = DnsFlag.bit f) ∧
      (entries value).foldlM applyEntry 0 = some gen'.dnsFlags := by
  rw [setDnsFlags_eq] at h
  cases hfold : (entries value).foldlM applyEntry 0 with
  | none =>
    rw [hfold] at h
    cases h
  | some fl =>
    rw [hfold] at h
    cases h
    obtain ⟨hreq, hother⟩ := fold_bits _ (fun e he => entries_mem he) fl hfold
    exact ⟨rfl, hreq, hother, rfl⟩

theorem setDnsFlags_rejected {gen gen' : DnsGen} {value : Bytes} {rc : ℤ}
    (h : setDnsFlags gen value = (rc, gen')) (hrc : rc ≠ 0) : gen' = gen := by
  rw [setDnsFlags_eq] at h
  cases hfold : (entries value).foldlM applyEntry 0 with
  | none =>
    rw [hfold] at h
    cases h
    rfl
  | some fl =>
    rw [hfold] at h
    cases h
    exact absurd rfl hrc

/-- An accepted list sets the flags whose last entry asks for them and no other bit,
whatever the order of the entries for different flags. A rejected one changes nothing. -/
theorem setDnsFlags_requested (gen gen' : DnsGen) (value : Bytes) (rc : ℤ)
    (h : setDnsFlags gen value = (rc, gen')) :
    (rc = 0 →
      gen' = { gen with dnsFlags := gen'.dnsFlags } ∧
      (∀ f, gen'.dnsFlags &&& DnsFlag.mask f = DnsFlag.mask f ↔ Requested f value) ∧
      (∀ i, flagSet gen'.dnsFlags i → ∃ f, i = DnsFlag.bit f) ∧
      ∀ value', Reordered (entries value) (entries value') →
        setDnsFlags gen value' = (0, gen')) ∧
      (rc ≠ 0 → gen' = gen) := by
  refine ⟨fun hrc => ?_, setDnsFlags_rejected h⟩
  subst hrc
  obtain ⟨hgen, hreq, hother, hfold⟩ := setDnsFlags_accepted h
  refine ⟨hgen, fun f => (mask_set _ f).trans (hreq f), hother, fun value' hre => ?_⟩
  rw [setDnsFlags_eq, fold_reordered (fun e he => entries_mem he) hre hfold, hgen]
  rfl

def idle : DnsGen where
  pktBuf := List.replicate 2048 0
  pktLen := 0
  size := List.length_replicate
  dnsName := []
  dnsType := 1
  dnsClass := 1
  dnsFlags := 0
  msg := zeroMsg 0
  msgLen := 0
  tidSent := 0
  useTcp := false

def repeated : Bytes := [97, 100, 58, 48, 124, 32, 67, 68, 58, 32, 48, 32, 124, 65, 68, 58, 49, 124]

theorem repeated_requested : (setDnsFlags idle repeated).2.dnsFlags &&& DnsFlag.ad.mask =
    DnsFlag.ad.mask ↔ Requested .ad repeated := by
  have hrc : (setDnsFlags idle repeated).1 = 0 := by decide +kernel
  exact ((setDnsFlags_requested idle _ repeated 0 (Prod.ext hrc rfl)).1 rfl).2.1 .ad

end DnsPkt.QueryFlags
