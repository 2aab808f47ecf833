import DnsPkt.Inspector
import DnsPkt.WrapRing
import Mathlib.Logic.Relation

/-!
# The rings of an AF_XDP socket

`capture_xdp` of `dns_insp.c` and the kernel pass the chunks of the packet
memory around: the kernel takes them from the fill ring and returns them with
a packet through the RX ring, from where the program puts them back on the
fill ring. The program works on copies of the indices and publishes its own in
two steps, and the kernel may do something between any two steps of it.
-/

set_option autoImplicit false

namespace DnsPkt.XskRings
open DnsPkt.Inspector DnsPkt.WrapRing

abbrev pktNumslot : ℕ := 4096
abbrev indexRange : ℕ := 2^32

/-- A ring with its shared indices, kept in a `uint32_t` each, and the
addresses in its descriptors. -/
structure XskRing where
  producer : ℕ
  consumer : ℕ
  descs : ℕ → ℕ

def mask : ℕ := pktNumslot-1

def slot (idx : ℕ) : ℕ := idx &&& mask

def succ32 (idx : ℕ) : ℕ := next indexRange idx

/-- The loop of `xsk_ring_fill`, for a number of rounds. -/
def fillLoop : ℕ → ℕ → ℕ → (ℕ → ℕ) → ℕ × (ℕ → ℕ)
  | 0, idx, _, descs => (idx, descs)
  | k+1, idx, offset, descs =>
    fillLoop k (succ32 idx) (offset+pktMaxsize) (Function.update descs (slot idx) offset)

def xskRingFill (ring : XskRing) : XskRing :=
  let filled := fillLoop pktNumslot 0 0 ring.descs
  { ring with producer := filled.1, descs := filled.2 }

/-- Where the program is: in front of `poll`, in the loop over the packets with
its copies of the indices, or between the two stores that publish them. -/
inductive User where
  | polling
  | draining (rxRidx rxWidx fillIdx : ℕ)
  | submitting (rxRidx : ℕ)

/-- Both rings, the chunks that the kernel holds and the program. -/
structure System where
  fill : XskRing
  rx : XskRing
  held : List ℕ
  user : User

def chunk (addr : ℕ) : ℕ := addr/pktMaxsize

def userStep (s : System) : System :=
  match s.user with
  | .polling => { s with user := .draining s.rx.consumer s.rx.producer s.fill.producer }
  | .draining rxRidx rxWidx fillIdx =>
    if rxRidx ≠ rxWidx then
      { s with
        fill := { s.fill with
          descs := Function.update s.fill.descs (slot fillIdx) (s.rx.descs (slot rxRidx)) }
        user := .draining (succ32 rxRidx) rxWidx (succ32 fillIdx) }
    else { s with fill := { s.fill with producer := fillIdx }, user := .submitting rxRidx }
  | .submitting rxRidx => { s with rx := { s.rx with consumer := rxRidx }, user := .polling }

def kernelTake (s : System) : System :=
  { s with
    fill := { s.fill with consumer := succ32 s.fill.consumer }
    held := chunk (s.fill.descs (slot s.fill.consumer)) :: s.held }

def kernelReceive (addr : ℕ) (s : System) : System :=
  { s with
    rx := { s.rx with
      producer := succ32 s.rx.producer
      descs := Function.update s.rx.descs (slot s.rx.producer) addr }
    held := s.held.erase (chunk addr) }

/-- A step of one of the two. The kernel takes a published entry, or returns a
chunk that it holds, at any address inside, if the ring is not full. -/
inductive Step : System → System → Prop
  | user (s : System) : Step s (userStep s)
  | take (s : System) : s.fill.consumer ≠ s.fill.producer → Step s (kernelTake s)
  | receive (s : System) (addr : ℕ) : chunk addr ∈ s.held →
      gap indexRange s.rx.consumer s.rx.producer < pktNumslot → Step s (kernelReceive addr s)

/-- Rings as the kernel sets them up, in front of `capture_xdp`. -/
structure Fresh (s : System) : Prop where
  fillProducer : s.fill.producer = 0
  fillConsumer : s.fill.consumer = 0
  rxProducer : s.rx.producer = 0
  rxConsumer : s.rx.consumer = 0
  held : s.held = []
  user : s.user = .polling

def started (s : System) : System := { s with fill := xskRingFill s.fill }

/-- The states of all runs on fresh rings. -/
def Reachable (s : System) : Prop := ∃ s0, Fresh s0 ∧ Relation.ReflTransGen Step (started s0) s

def System.fillNext (s : System) : ℕ :=
  match s.user with
  | .draining _ _ fillIdx => fillIdx
  | _ => s.fill.producer

def System.rxNext (s : System) : ℕ :=
  match s.user with
  | .polling => s.rx.consumer
  | .draining rxRidx _ _ => rxRidx
  | .submitting rxRidx => rxRidx

def chunks (ring : XskRing) (a b : ℕ) : List ℕ :=
  (entries indexRange pktNumslot ring.descs a b).map chunk

def System.published (s : System) : List ℕ := chunks s.fill s.fill.consumer s.fill.producer

/-- In entries of the RX ring that the program has not read. -/
def System.unread (s : System) : List ℕ := chunks s.rx s.rxNext s.rx.producer

def System.recycled (s : System) : List ℕ := chunks s.fill s.fill.producer s.fillNext

theorem slot_eq (idx : ℕ) : slot idx = idx % pktNumslot := Nat.and_two_pow_sub_one_eq_mod idx 12

theorem numslot_dvd : pktNumslot ∣ indexRange := by decide

theorem fillLoop_spec {k idx : ℕ} (h : idx+k ≤ pktNumslot) (offset : ℕ) (descs : ℕ → ℕ) :
    fillLoop k idx offset descs = (idx+k, fun i =>
      if idx ≤ i ∧ i < idx+k then offset+(i-idx)*pktMaxsize else descs i) := by
  induction k generalizing idx offset descs with
  | zero =>
    rw [fillLoop, Nat.add_zero]
    congr 1
    funext i
    rw [if_neg (by omega)]
  | succ k ih =>
    have hsmall : idx+1 < 2^32 := by
      change idx+(k+1) ≤ 4096 at h
      omega
    have hnext : succ32 idx = idx+1 := Nat.mod_eq_of_lt hsmall
    have hslot : slot idx = idx := by
      rw [slot_eq]
      exact Nat.mod_eq_of_lt (by omega)
    rw [fillLoop, hnext, hslot, ih (by omega)]
    congr 1
    · omega
    · funext i
      by_cases hi : i = idx
      · subst hi
        rw [if_neg (by omega), if_pos (by omega), Function.update_self, Nat.sub_self,
          Nat.zero_mul, Nat.add_zero]
      · rw [Function.update_of_ne hi]
        by_cases hin : idx+1 ≤ i ∧ i < idx+1+k
        · rw [if_pos hin, if_pos (by omega), show i-idx = i-(idx+1)+1 by omega, Nat.succ_mul]
          omega
        · rw [if_neg hin, if_neg (by omega)]

/-- The fill ring is published with every chunk once. -/
theorem xskRingFill_chunks (ring : XskRing) :
    (xskRingFill ring).producer = pktNumslot ∧ (xskRingFill ring).consumer = ring.consumer ∧
      chunks (xskRingFill ring) 0 pktNumslot = List.range pktNumslot := by
  have hloop := fillLoop_spec (Nat.le_of_eq (Nat.zero_add pktNumslot)) 0 ring.descs
  have hgap : gap indexRange 0 pktNumslot = pktNumslot := by
    rw [gap_eq (by decide) (by decide), if_pos (Nat.zero_le _), Nat.sub_zero]
  have hfill : xskRingFill ring = ⟨0+pktNumslot, ring.consumer, fun i =>
      if 0 ≤ i ∧ i < 0+pktNumslot then 0+(i-0)*pktMaxsize else ring.descs i⟩ :=
    congrArg (fun r => (⟨r.1, ring.consumer, r.2⟩ : XskRing)) hloop
  rw [hfill]
  refine ⟨Nat.zero_add _, rfl, ?_⟩
  rw [chunks, entries, hgap, List.map_map]
  apply (List.map_congr_left ?_).trans (List.map_id _)
  intro k hk
  have hlt : k < 4096 := List.mem_range.mp hk
  have hidx : (0+k) % indexRange % pktNumslot = k := by
    change (0+k) % 4294967296 % 4096 = k
    omega
  change chunk (if 0 ≤ (0+k) % indexRange % pktNumslot ∧
    (0+k) % indexRange % pktNumslot < 0+pktNumslot then _ else _) = k
  rw [hidx, if_pos (by rw [Nat.zero_add]; exact ⟨Nat.zero_le k, hlt⟩), chunk, Nat.zero_add,
    Nat.sub_zero]
  exact Nat.mul_div_cancel k (by decide)

-- Its loop is known from here on by what it leaves, and is not to be run.
attribute [irreducible] xskRingFill

/-- Every chunk is in one place, and the rings hold no more than there are chunks. -/
structure Inv (s : System) : Prop where
  fillConsumer_lt : s.fill.consumer < indexRange
  fillProducer_lt : s.fill.producer < indexRange
  fillNext_lt : s.fillNext < indexRange
  rxConsumer_lt : s.rx.consumer < indexRange
  rxProducer_lt : s.rx.producer < indexRange
  rxNext_lt : s.rxNext < indexRange
  sizes : gap indexRange s.fill.consumer s.fill.producer+s.held.length+
    gap indexRange s.rxNext s.rx.producer+gap indexRange s.fill.producer s.fillNext = pktNumslot
  rxRoom : gap indexRange s.rx.consumer s.rxNext+gap indexRange s.rxNext s.rx.producer ≤ pktNumslot
  copies : ∀ r w f, s.user = .draining r w f →
    w < indexRange ∧ gap indexRange r w ≤ gap indexRange r s.rx.producer
  once : ∀ c, s.published.count c+s.held.count c+s.unread.count c+s.recycled.count c =
    if c < pktNumslot then 1 else 0

theorem indexRange_eq : indexRange = 4294967296 := rfl

theorem pktNumslot_eq : pktNumslot = 4096 := rfl

section Steps

variable {s : System}

theorem chunks_cons (ring : XskRing) {a b : ℕ} (ha : a < indexRange) (hb : b < indexRange)
    (hne : a ≠ b) : chunks ring a b = chunk (ring.descs (slot a)) :: chunks ring (succ32 a) b := by
  rw [chunks, entries_cons ha hb hne, List.map_cons, slot_eq]
  rfl

theorem chunks_push (ring : XskRing) {a b : ℕ} (ha : a < indexRange) (hb : b < indexRange)
    (hroom : gap indexRange a b < pktNumslot) (addr : ℕ) :
    chunks { ring with descs := Function.update ring.descs (slot b) addr } a (succ32 b) =
      chunks ring a b ++ [chunk addr] := by
  rw [chunks, slot_eq, succ32, entries_push numslot_dvd (by decide) ha hb hroom, List.map_append]
  rfl

theorem Inv.take (h : Inv s) (hne : s.fill.consumer ≠ s.fill.producer) : Inv (kernelTake s) := by
  have hfront := gap_next_left h.fillConsumer_lt h.fillProducer_lt hne
  have hcons := chunks_cons s.fill h.fillConsumer_lt h.fillProducer_lt hne
  have hsizes := h.sizes
  refine { h with
    fillConsumer_lt := next_lt h.fillConsumer_lt
    sizes := ?_
    once := ?_ }
  · change gap indexRange (succ32 s.fill.consumer) s.fill.producer+(s.held.length+1)+
      gap indexRange s.rxNext s.rx.producer+gap indexRange s.fill.producer s.fillNext = _
    rw [succ32]
    omega
  · intro c
    have honce := h.once c
    rw [System.published, hcons, List.count_cons] at honce
    change (chunks s.fill (succ32 s.fill.consumer) s.fill.producer).count c+
      (chunk (s.fill.descs (slot s.fill.consumer)) :: s.held).count c+s.unread.count c+
        s.recycled.count c = _
    rw [List.count_cons]
    omega

theorem Inv.receive (h : Inv s) {addr : ℕ} (hheld : chunk addr ∈ s.held)
    (hroom : gap indexRange s.rx.consumer s.rx.producer < pktNumslot) :
    Inv (kernelReceive addr s) := by
  have hW := indexRange_eq
  have hn := pktNumslot_eq
  have hsizes := h.sizes
  have hrx := h.rxRoom
  have hadd := gap_add h.rxConsumer_lt h.rxNext_lt h.rxProducer_lt (by omega)
  have hnext := gap_next_right h.rxNext_lt h.rxProducer_lt (by omega)
  have hpush := chunks_push s.rx h.rxNext_lt h.rxProducer_lt (by omega) addr
  have hlen : (s.held.erase (chunk addr)).length+1 = s.held.length := by
    have hpos := List.length_pos_of_mem hheld
    rw [List.length_erase_of_mem hheld]
    omega
  refine { h with
    rxProducer_lt := next_lt h.rxProducer_lt
    sizes := ?_
    rxRoom := ?_
    copies := ?_
    once := ?_ }
  · change gap indexRange s.fill.consumer s.fill.producer+(s.held.erase (chunk addr)).length+
      gap indexRange s.rxNext (next indexRange s.rx.producer)+
        gap indexRange s.fill.producer s.fillNext = _
    omega
  · change gap indexRange s.rx.consumer s.rxNext+
      gap indexRange s.rxNext (next indexRange s.rx.producer) ≤ _
    omega
  · intro r w f huser
    obtain ⟨hw, hle⟩ := h.copies r w f huser
    have hr : s.rxNext = r := by
      have hu : s.user = .draining r w f := huser
      rw [System.rxNext, hu]
    refine ⟨hw, ?_⟩
    change gap indexRange r w ≤ gap indexRange r (next indexRange s.rx.producer)
    rw [← hr] at hle ⊢
    omega
  · intro c
    have honce := h.once c
    have hcount : (s.held.erase (chunk addr)).count c+(if chunk addr == c then 1 else 0) =
        s.held.count c := by
      have hperm := (List.perm_cons_erase hheld).count_eq c
      rw [hperm, List.count_cons]
    change s.published.count c+(s.held.erase (chunk addr)).count c+
      (chunks { s.rx with descs := Function.update s.rx.descs (slot s.rx.producer) addr } s.rxNext
        (succ32 s.rx.producer)).count c+s.recycled.count c = _
    rw [hpush, List.count_append, List.count_singleton]
    change s.published.count c+(s.held.erase (chunk addr)).count c+
      (s.unread.count c+if chunk addr == c then 1 else 0)+s.recycled.count c = _
    omega

theorem Inv.snapshot (h : Inv s) (huser : s.user = .polling) : Inv (userStep s) := by
  have hstep : userStep s =
      { s with user := .draining s.rx.consumer s.rx.producer s.fill.producer } := by
    rw [userStep, huser]
  have hfill : s.fillNext = s.fill.producer := by rw [System.fillNext, huser]
  have hrx : s.rxNext = s.rx.consumer := by rw [System.rxNext, huser]
  have hsizes := h.sizes
  have hroom := h.rxRoom
  have honce := h.once
  rw [System.recycled, System.unread, hfill, hrx] at honce
  rw [hfill, hrx] at hsizes
  rw [hrx] at hroom
  rw [hstep]
  refine { h with
    fillNext_lt := h.fillProducer_lt
    rxNext_lt := h.rxConsumer_lt
    sizes := hsizes
    rxRoom := hroom
    copies := ?_
    once := honce }
  rintro r w f ⟨⟩
  exact ⟨h.rxProducer_lt, Nat.le_refl _⟩

/-- In front of a packet the program has room on the fill ring: the entries
that are on it and a packet that is unread are different chunks. -/
theorem Inv.room (h : Inv s) {r w f : ℕ} (huser : s.user = .draining r w f) (hne : r ≠ w) :
    r ≠ s.rx.producer ∧ gap indexRange s.fill.consumer s.fill.producer+
      gap indexRange s.fill.producer f < pktNumslot := by
  obtain ⟨hw, hle⟩ := h.copies r w f huser
  have hfill : s.fillNext = f := by rw [System.fillNext, huser]
  have hrx : s.rxNext = r := by rw [System.rxNext, huser]
  have hsizes := h.sizes
  have hpos := gap_pos (hrx ▸ h.rxNext_lt) hw hne
  rw [hfill, hrx] at hsizes
  refine ⟨?_, by omega⟩
  intro heq
  rw [← heq, gap_self (hrx ▸ h.rxNext_lt)] at hle
  omega

theorem Inv.recycle (h : Inv s) {r w f : ℕ} (huser : s.user = .draining r w f) (hne : r ≠ w) :
    Inv (userStep s) := by
  have hW := indexRange_eq
  have hn := pktNumslot_eq
  have hfill : s.fillNext = f := by rw [System.fillNext, huser]
  have hrx : s.rxNext = r := by rw [System.rxNext, huser]
  have hstep : userStep s = { s with
      fill := { s.fill with
        descs := Function.update s.fill.descs (slot f) (s.rx.descs (slot r)) }
      user := .draining (succ32 r) w (succ32 f) } := by
    rw [userStep, huser]
    exact if_pos hne
  obtain ⟨hw, hle⟩ := h.copies r w f huser
  obtain ⟨hunread, hroom⟩ := h.room huser hne
  have hf := hfill ▸ h.fillNext_lt
  have hr := hrx ▸ h.rxNext_lt
  have hsizes := h.sizes
  have hrxRoom := h.rxRoom
  have hunreadCons := chunks_cons s.rx hr h.rxProducer_lt hunread
  have hpush := chunks_push s.fill h.fillProducer_lt hf (by omega) (s.rx.descs (slot r))
  have hkept : chunks { s.fill with
      descs := Function.update s.fill.descs (slot f) (s.rx.descs (slot r)) }
        s.fill.consumer s.fill.producer = s.published := by
    rw [chunks, slot_eq f, entries_update numslot_dvd h.fillConsumer_lt h.fillProducer_lt hf hroom
      (by decide)]
    rfl
  have hleft := gap_next_left hr h.rxProducer_lt hunread
  have hleftW := gap_next_left hr hw hne
  have hright := gap_next_right h.fillProducer_lt hf (by omega)
  rw [hfill, hrx] at hsizes
  rw [hrx] at hrxRoom
  have hread := gap_next_right h.rxConsumer_lt hr (by omega)
  rw [hstep]
  refine { h with
    fillNext_lt := next_lt hf
    rxNext_lt := next_lt hr
    sizes := ?_
    rxRoom := ?_
    copies := ?_
    once := ?_ }
  · change gap indexRange s.fill.consumer s.fill.producer+s.held.length+
      gap indexRange (next indexRange r) s.rx.producer+
        gap indexRange s.fill.producer (next indexRange f) = _
    omega
  · change gap indexRange s.rx.consumer (next indexRange r)+
      gap indexRange (next indexRange r) s.rx.producer ≤ _
    omega
  · rintro r' w' f' ⟨⟩
    refine ⟨hw, ?_⟩
    change gap indexRange (next indexRange r) w ≤ gap indexRange (next indexRange r) s.rx.producer
    omega
  · intro c
    have honce := h.once c
    rw [System.unread, hrx, hunreadCons, List.count_cons, System.recycled, hfill] at honce
    change (chunks { s.fill with
        descs := Function.update s.fill.descs (slot f) (s.rx.descs (slot r)) }
          s.fill.consumer s.fill.producer).count c+s.held.count c+
      (chunks s.rx (succ32 r) s.rx.producer).count c+
      (chunks { s.fill with
        descs := Function.update s.fill.descs (slot f) (s.rx.descs (slot r)) }
          s.fill.producer (succ32 f)).count c = _
    rw [hkept, hpush, List.count_append, List.count_singleton]
    omega

theorem Inv.publishFill (h : Inv s) {r f : ℕ} (huser : s.user = .draining r r f) :
    Inv (userStep s) := by
  have hW := indexRange_eq
  have hn := pktNumslot_eq
  have hfill : s.fillNext = f := by rw [System.fillNext, huser]
  have hrx : s.rxNext = r := by rw [System.rxNext, huser]
  have hstep : userStep s =
      { s with fill := { s.fill with producer := f }, user := .submitting r } := by
    rw [userStep, huser]
    exact if_neg (by simp)
  have hf := hfill ▸ h.fillNext_lt
  have hsizes := h.sizes
  have hroom := h.rxRoom
  rw [hfill, hrx] at hsizes
  rw [hrx] at hroom
  have hadd := gap_add h.fillConsumer_lt h.fillProducer_lt hf (by omega)
  have hself := gap_self hf
  rw [hstep]
  refine { h with
    fillProducer_lt := hf
    fillNext_lt := hf
    rxNext_lt := hrx ▸ h.rxNext_lt
    sizes := ?_
    rxRoom := hroom
    copies := ?_
    once := ?_ }
  · change gap indexRange s.fill.consumer f+s.held.length+gap indexRange r s.rx.producer+
      gap indexRange f f = _
    omega
  · rintro r' w' f' ⟨⟩
  · intro c
    have honce := h.once c
    rw [System.unread, hrx, System.recycled, hfill] at honce
    have hall : chunks s.fill s.fill.consumer f =
        s.published ++ chunks s.fill s.fill.producer f := by
      rw [chunks, entries_append h.fillConsumer_lt h.fillProducer_lt hf (by omega), List.map_append]
      rfl
    have hnone : chunks s.fill f f = [] := by
      rw [chunks, entries_self hf]
      rfl
    change (chunks s.fill s.fill.consumer f).count c+s.held.count c+
      (chunks s.rx r s.rx.producer).count c+(chunks s.fill f f).count c = _
    rw [hall, hnone, List.count_append, List.count_nil]
    omega

theorem Inv.publishRx (h : Inv s) {r : ℕ} (huser : s.user = .submitting r) : Inv (userStep s) := by
  have hfill : s.fillNext = s.fill.producer := by rw [System.fillNext, huser]
  have hrx : s.rxNext = r := by rw [System.rxNext, huser]
  have hstep : userStep s =
      { s with rx := { s.rx with consumer := r }, user := .polling } := by
    rw [userStep, huser]
  have hr := hrx ▸ h.rxNext_lt
  have hsizes := h.sizes
  have hroom := h.rxRoom
  have honce := h.once
  rw [System.unread, hrx, System.recycled, hfill] at honce
  rw [hfill, hrx] at hsizes
  rw [hrx] at hroom
  rw [hstep]
  refine { h with
    fillNext_lt := h.fillProducer_lt
    rxConsumer_lt := hr
    rxNext_lt := hr
    sizes := hsizes
    rxRoom := ?_
    copies := ?_
    once := honce }
  · change gap indexRange r r+gap indexRange r s.rx.producer ≤ _
    rw [gap_self hr]
    omega
  · rintro r' w' f' ⟨⟩

theorem Inv.userStep (h : Inv s) : Inv (userStep s) := by
  cases huser : s.user with
  | polling => exact h.snapshot huser
  | draining r w f =>
    by_cases hne : r = w
    · subst hne
      exact h.publishFill huser
    · exact h.recycle huser hne
  | submitting r => exact h.publishRx huser

theorem Inv.step (h : Inv s) {t : System} (hstep : Step s t) : Inv t := by
  cases hstep with
  | user => exact h.userStep
  | take hne => exact h.take hne
  | receive addr hheld hroom => exact h.receive hheld hroom

end Steps

theorem started_inv {s : System} (h : Fresh s) : Inv (started s) := by
  obtain ⟨hproducer, hconsumer, hchunks⟩ := xskRingFill_chunks s.fill
  have hfc : (started s).fill.consumer = 0 := hconsumer.trans h.fillConsumer
  have hfp : (started s).fill.producer = pktNumslot := hproducer
  have hrc : (started s).rx.consumer = 0 := h.rxConsumer
  have hrp : (started s).rx.producer = 0 := h.rxProducer
  have hheld : (started s).held = [] := h.held
  have huser : (started s).user = .polling := h.user
  have hfn : (started s).fillNext = pktNumslot := by rw [System.fillNext, huser, hfp]
  have hrn : (started s).rxNext = 0 := by rw [System.rxNext, huser, hrc]
  have hzero : (0 : ℕ) < indexRange := by decide
  have hslots : pktNumslot < indexRange := by decide
  have hempty : gap indexRange 0 0 = 0 := gap_self hzero
  have hall : gap indexRange 0 pktNumslot = pktNumslot := by
    rw [gap_eq hzero hslots, if_pos (Nat.zero_le _), Nat.sub_zero]
  refine ⟨?_, ?_, ?_, ?_, ?_, ?_, ?_, ?_, ?_, ?_⟩
  · rwa [hfc]
  · rwa [hfp]
  · rwa [hfn]
  · rwa [hrc]
  · rwa [hrp]
  · rwa [hrn]
  · rw [hfc, hfp, hrn, hrp, hfn, hheld, hall, hempty, gap_self hslots]
    rfl
  · rw [hrc, hrn, hrp, hempty]
    exact Nat.zero_le _
  · intro r w f hdraining
    rw [huser] at hdraining
    cases hdraining
  · intro c
    have hpublished : (started s).published = List.range pktNumslot := by
      rw [System.published, hfc, hfp]
      exact hchunks
    have hunread : (started s).unread = [] := by
      rw [System.unread, hrn, hrp, chunks, entries_self hzero]
      rfl
    have hrecycled : (started s).recycled = [] := by
      rw [System.recycled, hfp, hfn, chunks, entries_self hslots]
      rfl
    rw [hpublished, hunread, hrecycled, hheld, List.count_nil, List.nodup_range.count]
    simp only [List.mem_range, Nat.add_zero]

theorem reachable_inv {s : System} (h : Reachable s) : Inv s := by
  obtain ⟨s0, hfresh, hrun⟩ := h
  induction hrun with
  | refl => exact started_inv hfresh
  | tail _ hstep ih => exact ih.step hstep

/-- The slot of the fill ring that the next step of the program writes. -/
def writtenSlot (s : System) : Option ℕ :=
  match s.user with
  | .draining rxRidx rxWidx fillIdx => if rxRidx ≠ rxWidx then some (slot fillIdx) else none
  | _ => none

def pendingSlots (s : System) : List ℕ :=
  (List.range (gap indexRange s.fill.consumer s.fill.producer)).map fun i =>
    slot ((s.fill.consumer+i) % indexRange)

theorem Inv.written_free {s : System} (h : Inv s) {j : ℕ} (hj : writtenSlot s = some j) :
    j ∉ pendingSlots s := by
  cases huser : s.user with
  | polling =>
    rw [writtenSlot, huser] at hj
    cases hj
  | submitting r =>
    rw [writtenSlot, huser] at hj
    cases hj
  | draining r w f =>
    rw [writtenSlot, huser] at hj
    by_cases hne : r = w
    · simp [hne] at hj
    simp only [ne_eq, hne, not_false_eq_true, if_true, Option.some.injEq] at hj
    obtain ⟨-, hroom⟩ := h.room huser hne
    have hn := pktNumslot_eq
    have hW := indexRange_eq
    have hf : f < indexRange := by
      have hlt := h.fillNext_lt
      rwa [System.fillNext, huser] at hlt
    have hadd := gap_add h.fillConsumer_lt h.fillProducer_lt hf (by omega)
    have hidx : (s.fill.consumer+gap indexRange s.fill.consumer f) % indexRange = f :=
      add_gap h.fillConsumer_lt hf
    intro hmem
    obtain ⟨i, hi, hslot⟩ := List.mem_map.mp hmem
    rw [List.mem_range] at hi
    rw [← hj, slot_eq, slot_eq, ← hidx] at hslot
    exact slot_ne numslot_dvd (by omega) (by omega) hslot

/-- Over all runs every chunk is in exactly one place, and the program never
writes a slot of the fill ring that the kernel has not consumed. -/
theorem umem_ownership {s : System} (h : Reachable s) :
    (∀ c, s.published.count c+s.held.count c+s.unread.count c+s.recycled.count c =
      if c < pktNumslot then 1 else 0) ∧
    ∀ j, writtenSlot s = some j → j ∉ pendingSlots s :=
  ⟨(reachable_inv h).once, fun _ hj => (reachable_inv h).written_free hj⟩

def freshSystem : System := ⟨⟨0, 0, fun _ => 0⟩, ⟨0, 0, fun _ => 0⟩, [], .polling⟩

def firstPacket : System :=
  let s := started freshSystem
  userStep (kernelReceive (s.fill.descs (slot s.fill.consumer)) (kernelTake s))

theorem firstPacket_ownership : Reachable firstPacket ∧
    (∀ c, firstPacket.published.count c+firstPacket.held.count c+firstPacket.unread.count c+
      firstPacket.recycled.count c = if c < pktNumslot then 1 else 0) ∧
    writtenSlot firstPacket = some (slot pktNumslot) ∧
    slot pktNumslot ∉ pendingSlots firstPacket := by
  obtain ⟨hproducer, hconsumer, -⟩ := xskRingFill_chunks freshSystem.fill
  have hne : (started freshSystem).fill.consumer ≠ (started freshSystem).fill.producer := by
    change (xskRingFill freshSystem.fill).consumer ≠ (xskRingFill freshSystem.fill).producer
    rw [hproducer, hconsumer]
    decide
  have hreach : Reachable firstPacket := by
    refine ⟨freshSystem, ⟨rfl, rfl, rfl, rfl, rfl, rfl⟩, ?_⟩
    refine Relation.ReflTransGen.tail ?_ (Step.user (kernelReceive
      ((started freshSystem).fill.descs (slot (started freshSystem).fill.consumer))
      (kernelTake (started freshSystem))))
    apply Relation.ReflTransGen.tail (.single (.take _ hne))
    apply Step.receive
    · exact List.mem_cons_self
    · change gap indexRange 0 0 < pktNumslot
      rw [gap_self (by decide)]
      decide
  have hwritten : writtenSlot firstPacket = some (slot pktNumslot) := by
    change (if 0 ≠ succ32 0 then some (slot (xskRingFill freshSystem.fill).producer) else none) = _
    rw [hproducer, if_pos (by decide)]
  obtain ⟨honce, hfree⟩ := umem_ownership hreach
  exact ⟨hreach, honce, hwritten, hfree _ hwritten⟩

end DnsPkt.XskRings
