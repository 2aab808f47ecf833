import DnsPkt.CaptureReplay
import DnsPkt.NumberText
import DnsPkt.XskRings

/-!
# The packets of an AF_XDP socket

The rings of `capture_xdp` pass addresses, and the packets lie in the memory
behind them. The kernel writes to the chunks that it holds whenever it likes.
What the program reads is what the kernel delivered, packet by packet.
-/

set_option autoImplicit false

namespace DnsPkt.XskPackets
open DnsPkt.Octets DnsPkt.Inspector DnsPkt.CaptureReplay DnsPkt.WrapRing DnsPkt.XskRings
open DnsPkt.NumberText (slice_patch_behind)

/-- The rings with the lengths in the descriptors of the RX ring, the packet
memory, and the program with the packets that it handed to the inspector. -/
structure Xsk where
  sys : System
  lens : ℕ → ℕ
  umem : Bytes
  insp : DnsInsp
  seen : List Bytes

def Xsk.desc (s : Xsk) (k : ℕ) : ℕ × ℕ := (s.sys.rx.descs k, s.lens k)

/-- The packet of a descriptor, which is then put back on the fill ring. -/
def readPacket (d : ℕ × ℕ) (s : Xsk) : Except MemFault Xsk :=
  match inspectAt s.umem d.1 d.2 s.insp with
  | .ok t => .ok { s with
      sys := userStep s.sys, insp := t, seen := s.seen ++ [slice s.umem d.1 d.2] }
  | .error c => .error c

def xskStep (s : Xsk) : Except MemFault Xsk :=
  match s.sys.user with
  | .draining rxRidx rxWidx _ =>
    if rxRidx ≠ rxWidx then readPacket (s.desc (slot rxRidx)) s
    else .ok { s with sys := userStep s.sys }
  | _ => .ok { s with sys := userStep s.sys }

def kernelWrite (i : ℕ) (b : Bytes) (s : Xsk) : Xsk := { s with umem := patch s.umem i b }

def kernelDeliver (addr len : ℕ) (s : Xsk) : Xsk :=
  { s with
    sys := kernelReceive addr s.sys
    lens := Function.update s.lens (slot s.sys.rx.producer) len }

def InChunk (addr len : ℕ) : Prop := addr % pktMaxsize+len ≤ pktMaxsize

structure Started (i : DnsInsp) (s : Xsk) : Prop where
  rings : ∃ s0, Fresh s0 ∧ s.sys = started s0
  size : s.umem.length = pktNumslot*pktMaxsize
  insp : s.insp = i
  seen : s.seen = []

/-- The runs of both, with the packets that the kernel delivered. It writes
only to chunks that it holds. -/
inductive Ran (i : DnsInsp) : Xsk → List Bytes → Prop
  | started {s : Xsk} (h : Started i s) : Ran i s []
  | user {s t : Xsk} {ds : List Bytes} (h : Ran i s ds) (step : xskStep s = .ok t) : Ran i t ds
  | take {s : Xsk} {ds : List Bytes} (h : Ran i s ds)
      (published : s.sys.fill.consumer ≠ s.sys.fill.producer) :
      Ran i { s with sys := kernelTake s.sys } ds
  | write {s : Xsk} {ds : List Bytes} {k : ℕ} {b : Bytes} (h : Ran i s ds)
      (held : chunk k ∈ s.sys.held) (inside : InChunk k b.length) : Ran i (kernelWrite k b s) ds
  | deliver {s : Xsk} {ds : List Bytes} {addr len : ℕ} (h : Ran i s ds)
      (held : chunk addr ∈ s.sys.held) (inside : InChunk addr len)
      (room : gap indexRange s.sys.rx.consumer s.sys.rx.producer < pktNumslot) :
      Ran i (kernelDeliver addr len s) (ds ++ [slice s.umem addr len])

def Xsk.unreadDescs (s : Xsk) : List (ℕ × ℕ) :=
  entries indexRange pktNumslot s.desc s.sys.rxNext s.sys.rx.producer

def Xsk.unread (s : Xsk) : List Bytes := s.unreadDescs.map fun d => slice s.umem d.1 d.2

theorem unread_chunks (s : Xsk) : s.sys.unread = s.unreadDescs.map fun d => chunk d.1 := by
  rw [System.unread, chunks, Xsk.unreadDescs, ← entries_map, ← entries_map]
  rfl

structure Inv (i : DnsInsp) (s : Xsk) (ds : List Bytes) : Prop where
  rings : XskRings.Inv s.sys
  size : s.umem.length = pktNumslot*pktMaxsize
  inside : ∀ d ∈ s.unreadDescs, InChunk d.1 d.2
  packets : ds = s.seen ++ s.unread
  insp : s.insp = s.seen.foldl inspected i
  told : ∀ p ∈ s.seen, verdict p ≠ none

section Steps

variable {s : Xsk} {i : DnsInsp} {ds : List Bytes}

/-- Bytes in one chunk lie in the memory of all chunks. -/
theorem InChunk.below {addr len : ℕ} (h : InChunk addr len) (hc : chunk addr < pktNumslot) :
    addr+len ≤ pktNumslot*pktMaxsize := by
  have hdiv := Nat.div_add_mod addr pktMaxsize
  unfold InChunk at h
  unfold chunk at hc
  change addr/2048 < 4096 at hc
  change addr % 2048+len ≤ 2048 at h
  change addr+len ≤ 4096*2048
  omega

/-- Bytes in different chunks lie apart. -/
theorem InChunk.apart {a b m n : ℕ} (ha : InChunk a m) (hb : InChunk b n)
    (hne : chunk a ≠ chunk b) : a+m ≤ b ∨ b+n ≤ a := by
  unfold InChunk at ha hb
  unfold chunk at hne
  change a/2048 ≠ b/2048 at hne
  change a % 2048+m ≤ 2048 at ha
  change b % 2048+n ≤ 2048 at hb
  omega

theorem started_inv (h : Started i s) : Inv i s [] := by
  obtain ⟨s0, hfresh, hsys⟩ := h.rings
  have hrings := XskRings.started_inv hfresh
  have hnone : s.unreadDescs = [] := by
    have hnext : s.sys.rxNext = 0 := by
      rw [hsys]
      have huser : (started s0).user = .polling := hfresh.user
      rw [System.rxNext, huser]
      exact hfresh.rxConsumer
    have hproducer : s.sys.rx.producer = 0 := by
      rw [hsys]
      exact hfresh.rxProducer
    rw [Xsk.unreadDescs, hnext, hproducer, entries_self (by decide)]
  refine ⟨hsys ▸ hrings, h.size, ?_, ?_, ?_, ?_⟩
  · rw [hnone]
    simp
  · rw [Xsk.unread, hnone, h.seen]
    rfl
  · rw [h.insp, h.seen, List.foldl_nil]
  · rw [h.seen]
    simp

/-- A chunk that is in one place is in no other. -/
theorem unread_ne_held (h : Inv i s ds) {c : ℕ} (hc : c ∈ s.sys.held) {d : ℕ × ℕ}
    (hd : d ∈ s.unreadDescs) : chunk d.1 ≠ c := by
  rintro rfl
  have honce := h.rings.once (chunk d.1)
  have hheld := List.count_pos_iff.mpr hc
  have hunread : 0 < s.sys.unread.count (chunk d.1) := by
    rw [unread_chunks]
    exact List.count_pos_iff.mpr (List.mem_map_of_mem hd)
  split_ifs at honce <;> omega

theorem held_lt (h : Inv i s ds) {c : ℕ} (hc : c ∈ s.sys.held) : c < pktNumslot := by
  have honce := h.rings.once c
  have hheld := List.count_pos_iff.mpr hc
  by_contra hge
  rw [if_neg hge] at honce
  omega

theorem unread_lt (h : Inv i s ds) {d : ℕ × ℕ} (hd : d ∈ s.unreadDescs) :
    chunk d.1 < pktNumslot := by
  have honce := h.rings.once (chunk d.1)
  have hunread : 0 < s.sys.unread.count (chunk d.1) := by
    rw [unread_chunks]
    exact List.count_pos_iff.mpr (List.mem_map_of_mem hd)
  by_contra hge
  rw [if_neg hge] at honce
  omega

theorem Inv.take (h : Inv i s ds) (hpublished : s.sys.fill.consumer ≠ s.sys.fill.producer) :
    Inv i { s with sys := kernelTake s.sys } ds :=
  { h with rings := h.rings.take hpublished }

/-- A write to a chunk that the kernel holds leaves the packets on the ring as they are. -/
theorem Inv.write (h : Inv i s ds) {k : ℕ} {b : Bytes} (hheld : chunk k ∈ s.sys.held)
    (hinside : InChunk k b.length) : Inv i (kernelWrite k b s) ds := by
  have hbelow := hinside.below (held_lt h hheld)
  rw [← h.size] at hbelow
  have hsame : (kernelWrite k b s).unread = s.unread := by
    refine List.map_congr_left fun d hd => ?_
    change slice (patch s.umem k b) d.1 d.2 = _
    obtain hbefore | hbehind := (h.inside d hd).apart hinside (unread_ne_held h hheld hd)
    · exact slice_patch_before _ _ _ _ _ hbefore (by omega)
    · exact slice_patch_behind _ _ _ _ _ hbehind hbelow
  exact { h with
    size := (length_patch _ _ _ hbelow).trans h.size
    packets := by rw [hsame]; exact h.packets }

theorem Inv.deliver (h : Inv i s ds) {addr len : ℕ} (hheld : chunk addr ∈ s.sys.held)
    (hinside : InChunk addr len)
    (hroom : gap indexRange s.sys.rx.consumer s.sys.rx.producer < pktNumslot) :
    Inv i (kernelDeliver addr len s) (ds ++ [slice s.umem addr len]) := by
  have hrings := h.rings.receive hheld hroom
  have hW := indexRange_eq
  have hn := pktNumslot_eq
  have hrx := h.rings.rxRoom
  have hadd := gap_add h.rings.rxConsumer_lt h.rings.rxNext_lt h.rings.rxProducer_lt (by omega)
  have hdescs : (kernelDeliver addr len s).unreadDescs = s.unreadDescs ++ [(addr, len)] := by
    have hcells : (kernelDeliver addr len s).desc =
        Function.update s.desc (s.sys.rx.producer % pktNumslot) (addr, len) := by
      rw [← slot_eq]
      funext k
      by_cases hk : k = slot s.sys.rx.producer
      · subst hk
        simp [Xsk.desc, kernelDeliver, kernelReceive]
      · simp [Xsk.desc, kernelDeliver, kernelReceive, Function.update_of_ne hk]
    rw [Xsk.unreadDescs, hcells]
    exact entries_push numslot_dvd (by decide) h.rings.rxNext_lt h.rings.rxProducer_lt (by omega) _
  have hunread : (kernelDeliver addr len s).unread = s.unread ++ [slice s.umem addr len] := by
    rw [Xsk.unread, hdescs, List.map_append]
    rfl
  refine ⟨hrings, h.size, ?_, ?_, h.insp, h.told⟩
  · rw [hdescs]
    intro d hd
    obtain hd | hd := List.mem_append.mp hd
    · exact h.inside d hd
    · obtain rfl := List.mem_singleton.mp hd
      exact hinside
  · rw [hunread, h.packets, List.append_assoc]
    rfl

/-- A step of the program that takes the packets `ps` from the ring. -/
structure Went (s t : Xsk) (ps : List Bytes) : Prop where
  step : xskStep s = .ok t
  sys : t.sys = userStep s.sys
  umem : t.umem = s.umem
  seen : t.seen = s.seen ++ ps
  insp : t.insp = ps.foldl inspected s.insp
  descs : ∃ front, s.unreadDescs = front ++ t.unreadDescs ∧
    ps = front.map fun d => slice s.umem d.1 d.2

theorem userStep_quiet {s : System} (hquiet : ∀ r w f, s.user = .draining r w f → r = w) :
    (userStep s).rxNext = s.rxNext ∧ (userStep s).rx.producer = s.rx.producer ∧
      (userStep s).rx.descs = s.rx.descs := by
  cases huser : s.user with
  | polling =>
    rw [userStep, huser, System.rxNext, System.rxNext, huser]
    exact ⟨rfl, rfl, rfl⟩
  | submitting r =>
    rw [userStep, huser, System.rxNext, System.rxNext, huser]
    exact ⟨rfl, rfl, rfl⟩
  | draining r w f =>
    obtain rfl := hquiet r w f huser
    have hstep : userStep s =
        { s with fill := { s.fill with producer := f }, user := .submitting r } := by
      rw [userStep, huser]
      exact if_neg (by simp)
    rw [hstep, System.rxNext, System.rxNext, huser]
    exact ⟨rfl, rfl, rfl⟩

/-- A step in which no packet is read. -/
theorem quiet_run (hquiet : ∀ r w f, s.sys.user = .draining r w f → r = w) :
    Went s { s with sys := userStep s.sys } [] := by
  obtain ⟨hnext, hproducer, hdescs⟩ := userStep_quiet hquiet
  refine ⟨?_, rfl, rfl, (List.append_nil _).symm, rfl, [], ?_, rfl⟩
  · rw [xskStep]
    cases huser : s.sys.user with
    | polling => rfl
    | submitting r => rfl
    | draining r w f => exact if_neg (not_not.mpr (hquiet r w f huser))
  · have hcells : ({ s with sys := userStep s.sys } : Xsk).desc = s.desc := by
      funext k
      rw [Xsk.desc, Xsk.desc, hdescs]
    rw [Xsk.unreadDescs, Xsk.unreadDescs, hcells, hnext, hproducer, List.nil_append]

/-- The packet of a descriptor that lies in the memory. -/
theorem readPacket_run {d : ℕ × ℕ} (hin : d.1+d.2 ≤ s.umem.length) :
    (verdict (slice s.umem d.1 d.2) ≠ none ∧ readPacket d s = .ok { s with
      sys := userStep s.sys
      insp := inspected s.insp (slice s.umem d.1 d.2)
      seen := s.seen ++ [slice s.umem d.1 d.2] }) ∨
      (verdict (slice s.umem d.1 d.2) = none ∧ ∃ c, readPacket d s = .error (.frame c)) := by
  obtain ⟨hv, hrun⟩ | ⟨hv, c, hrun⟩ := inspectAt_run hin s.insp
  · refine .inl ⟨hv, ?_⟩
    rw [readPacket, hrun]
  · refine .inr ⟨hv, c, ?_⟩
    rw [readPacket, hrun]

/-- A step that reads the first packet on the ring. -/
theorem packet_run (h : Inv i s ds) {r w f : ℕ} (huser : s.sys.user = .draining r w f)
    (hne : r ≠ w) : ∃ p, s.unread.head? = some p ∧ ((verdict p ≠ none ∧ ∃ t, Went s t [p]) ∨
      (verdict p = none ∧ ∃ c, xskStep s = .error (.frame c))) := by
  have hnext : s.sys.rxNext = r := by rw [System.rxNext, huser]
  obtain ⟨hproducer, -⟩ := h.rings.room huser hne
  have hr := hnext ▸ h.rings.rxNext_lt
  have hdescs : s.unreadDescs = s.desc (slot r) ::
      entries indexRange pktNumslot s.desc (succ32 r) s.sys.rx.producer := by
    rw [Xsk.unreadDescs, hnext, entries_cons hr h.rings.rxProducer_lt hproducer, slot_eq, succ32]
  have hmem : s.desc (slot r) ∈ s.unreadDescs := hdescs ▸ List.mem_cons_self
  have hin := (h.inside _ hmem).below (unread_lt h hmem)
  rw [← h.size] at hin
  have hread : xskStep s = readPacket (s.desc (slot r)) s := by
    rw [xskStep, huser]
    exact if_pos hne
  have hstep : userStep s.sys = { s.sys with
      fill := { s.sys.fill with
        descs := Function.update s.sys.fill.descs (slot f) (s.sys.rx.descs (slot r)) }
      user := .draining (succ32 r) w (succ32 f) } := by
    rw [userStep, huser]
    exact if_pos hne
  refine ⟨slice s.umem (s.desc (slot r)).1 (s.desc (slot r)).2, by rw [Xsk.unread, hdescs]; rfl, ?_⟩
  obtain ⟨hv, hrun⟩ | ⟨hv, c, hrun⟩ := readPacket_run hin
  · refine .inl ⟨hv, _, hread.trans hrun, rfl, rfl, rfl, rfl, [s.desc (slot r)], ?_, rfl⟩
    rw [hdescs]
    simp only [Xsk.unreadDescs, System.rxNext, hstep]
    rfl
  · exact .inr ⟨hv, c, hread.trans hrun⟩

/-- What a step of the program takes from the ring is added to what was seen. -/
theorem Inv.went {t : Xsk} {ps : List Bytes} (h : Inv i s ds) (hwent : Went s t ps)
    (hv : ∀ p ∈ ps, verdict p ≠ none) : Inv i t ds := by
  obtain ⟨front, hdescs, hps⟩ := hwent.descs
  refine ⟨hwent.sys ▸ h.rings.userStep, hwent.umem ▸ h.size, fun d hd => ?_, ?_, ?_, ?_⟩
  · apply h.inside
    rw [hdescs]
    exact List.mem_append_right _ hd
  · have hunread : s.unread = ps ++ t.unread := by
      rw [Xsk.unread, hdescs, List.map_append, ← hps, Xsk.unread, hwent.umem]
    rw [h.packets, hunread, hwent.seen, List.append_assoc]
  · rw [hwent.insp, hwent.seen, List.foldl_append, h.insp]
  · rw [hwent.seen]
    exact fun p hp => (List.mem_append.mp hp).elim (h.told p) (hv p)

/-- The next step of the program, whatever it is. -/
theorem user_run (h : Inv i s ds) :
    (∃ t ps, Went s t ps ∧ ∀ p ∈ ps, verdict p ≠ none) ∨
      ∃ p c, s.unread.head? = some p ∧ verdict p = none ∧ xskStep s = .error (.frame c) := by
  by_cases hquiet : ∀ r w f, s.sys.user = .draining r w f → r = w
  · exact .inl ⟨_, [], quiet_run hquiet, by simp⟩
  · push Not at hquiet
    obtain ⟨r, w, f, huser, hne⟩ := hquiet
    obtain ⟨p, hhead, ⟨hv, t, hwent⟩ | ⟨hv, c, hfault⟩⟩ := packet_run h huser hne
    · exact .inl ⟨t, [p], hwent, by simpa using hv⟩
    · exact .inr ⟨p, c, hhead, hv, hfault⟩

theorem Inv.user {t : Xsk} (h : Inv i s ds) (hstep : xskStep s = .ok t) : Inv i t ds := by
  obtain ⟨u, ps, hwent, hv⟩ | ⟨p, c, -, -, hfault⟩ := user_run h
  · obtain rfl : u = t := Except.ok.inj (hwent.step.symm.trans hstep)
    exact h.went hwent hv
  · rw [hfault] at hstep
    cases hstep

theorem ran_inv (h : Ran i s ds) : Inv i s ds := by
  induction h with
  | started h => exact started_inv h
  | user _ step ih => exact ih.user step
  | take _ published ih => exact ih.take published
  | write _ held inside ih => exact ih.write held inside
  | deliver _ held inside room ih => exact ih.deliver held inside room

/-- In every run the packets reach the inspector in the order in which the
kernel delivered them, none of them twice and none left out, with the bytes that
they had then. The program only reads inside the packet memory, and a step of it
is undefined only if the inspector is on the next packet. -/
theorem xsk_in_order (h : Ran i s ds) : ds = s.seen ++ s.unread ∧ s.insp = tallied i s.seen ∧
    ((∃ t, xskStep s = .ok t) ∨ ∃ p c, s.unread.head? = some p ∧ verdict p = none ∧
      xskStep s = .error (.frame c)) := by
  have hinv := ran_inv h
  refine ⟨hinv.packets, hinv.insp.trans (inspected_tally hinv.told i), ?_⟩
  obtain ⟨t, ps, hwent, -⟩ | ⟨p, c, hfault⟩ := user_run hinv
  · exact .inl ⟨t, hwent.step⟩
  · exact .inr ⟨p, c, hfault⟩

theorem chunk_base (c : ℕ) : chunk (c*pktMaxsize) = c := Nat.mul_div_cancel c (by decide)

theorem inChunk_base (c : ℕ) {len : ℕ} (h : len ≤ pktMaxsize) : InChunk (c*pktMaxsize) len := by
  rwa [InChunk, Nat.mul_mod_left, Nat.zero_add]

theorem taken_held (s : System) :
    chunk (s.fill.descs (slot s.fill.consumer)) ∈ (kernelTake s).held := List.mem_cons_self

def freshXsk : Xsk where
  sys := started freshSystem
  lens := fun _ => 0
  umem := List.replicate (pktNumslot*pktMaxsize) 0
  insp := ⟨0, 0, 0, 0, []⟩
  seen := []

/-- The kernel takes the next chunk of the fill ring and delivers bytes at its beginning. -/
def delivered (b : Bytes) (s : Xsk) : Xsk :=
  let addr := chunk (s.sys.fill.descs (slot s.sys.fill.consumer))*pktMaxsize
  kernelDeliver addr b.length (kernelWrite addr b { s with sys := kernelTake s.sys })

theorem ran_delivered {b : Bytes} (h : Ran i s ds)
    (published : s.sys.fill.consumer ≠ s.sys.fill.producer) (hb : b.length ≤ pktMaxsize)
    (room : gap indexRange s.sys.rx.consumer s.sys.rx.producer < pktNumslot) :
    Ran i (delivered b s) (ds ++ [b]) := by
  have htake := h.take published
  have hheld : chunk (chunk (s.sys.fill.descs (slot s.sys.fill.consumer))*pktMaxsize) ∈
      (kernelTake s.sys).held := by
    rw [chunk_base]
    exact taken_held s.sys
  have hinside : InChunk (chunk (s.sys.fill.descs (slot s.sys.fill.consumer))*pktMaxsize)
      b.length := inChunk_base _ hb
  have hdeliver := (htake.write hheld hinside).deliver hheld hinside room
  have hbelow := hinside.below (held_lt (ran_inv htake) hheld)
  have hsize := (ran_inv h).size
  have hin : chunk (s.sys.fill.descs (slot s.sys.fill.consumer))*pktMaxsize ≤ s.umem.length :=
    (Nat.le_add_right _ _).trans (hbelow.trans hsize.ge)
  have hbytes := slice_patch_at s.umem _ b hin
  unfold delivered
  dsimp only
  change Ran i _ (ds ++ [slice (patch s.umem _ b) _ b.length]) at hdeliver
  rwa [hbytes] at hdeliver

/-- The kernel has delivered packets in the first two chunks of the fill ring. -/
def twoPackets : Xsk := delivered [6, 7] (delivered [1, 2, 3, 4, 5] freshXsk)

theorem twoPackets_ran : Ran ⟨0, 0, 0, 0, []⟩ twoPackets [[1, 2, 3, 4, 5], [6, 7]] := by
  obtain ⟨hproducer, hconsumer, -⟩ := xskRingFill_chunks freshSystem.fill
  have hstart : Ran ⟨0, 0, 0, 0, []⟩ freshXsk [] :=
    .started ⟨⟨freshSystem, ⟨rfl, rfl, rfl, rfl, rfl, rfl⟩, rfl⟩, List.length_replicate .., rfl,
      rfl⟩
  have hone : Ran ⟨0, 0, 0, 0, []⟩ (delivered [1, 2, 3, 4, 5] freshXsk) [[1, 2, 3, 4, 5]] := by
    refine ran_delivered hstart ?_ (by decide) ?_
    · change (xskRingFill freshSystem.fill).consumer ≠ (xskRingFill freshSystem.fill).producer
      rw [hproducer, hconsumer]
      decide
    · change gap indexRange 0 0 < pktNumslot
      decide
  refine ran_delivered hone ?_ (by decide) ?_
  · change succ32 (xskRingFill freshSystem.fill).consumer ≠
      (xskRingFill freshSystem.fill).producer
    rw [hproducer, hconsumer]
    decide
  · change gap indexRange 0 (succ32 0) < pktNumslot
    decide

theorem twoPackets_in_order : twoPackets.seen ++ twoPackets.unread = [[1, 2, 3, 4, 5], [6, 7]] ∧
    ∃ t, xskStep twoPackets = .ok t := by
  obtain ⟨hpackets, -, h | ⟨p, c, hhead, hv, -⟩⟩ := xsk_in_order twoPackets_ran
  · exact ⟨hpackets.symm, h⟩
  · have hseen : twoPackets.seen = [] := rfl
    rw [hseen, List.nil_append] at hpackets
    rw [← hpackets] at hhead
    obtain rfl : [1, 2, 3, 4, 5] = p := Option.some.inj hhead
    have hsome : verdict [1, 2, 3, 4, 5] = some 0 := by decide +kernel
    rw [hsome] at hv
    cases hv

def UserSteps : Xsk → Xsk → Prop := Relation.ReflTransGen fun s t => xskStep s = .ok t

theorem UserSteps.inv {t : Xsk} (h : UserSteps s t) (hinv : Inv i s ds) : Inv i t ds := by
  induction h with
  | refl => exact hinv
  | tail _ step ih => exact ih.user step

/-- A step in the loop over the packets. -/
theorem userStep_draining {s : System} {r w f : ℕ} (huser : s.user = .draining r w f)
    (hne : r ≠ w) : (userStep s).rx = s.rx ∧
      (userStep s).user = .draining (succ32 r) w (succ32 f) := by
  have hstep : userStep s = { s with
      fill := { s.fill with descs := Function.update s.fill.descs (slot f) (s.rx.descs (slot r)) }
      user := .draining (succ32 r) w (succ32 f) } := by
    rw [userStep, huser]
    exact if_pos hne
  rw [hstep]
  exact ⟨rfl, rfl⟩

/-- The two steps behind the loop. -/
theorem publish_steps {r f : ℕ} (huser : s.sys.user = .draining r r f) : ∃ t, UserSteps s t ∧
    t.sys.user = .polling ∧ t.sys.rx.consumer = r ∧
      t.sys.rx.producer = s.sys.rx.producer := by
  have hfirst : userStep s.sys =
      { s.sys with fill := { s.sys.fill with producer := f }, user := .submitting r } := by
    rw [userStep, huser]
    exact if_neg (by simp)
  have hone := quiet_run (s := s) (by
    intro a b c h
    rw [huser] at h
    cases h
    rfl)
  have huser' : (userStep s.sys).user = .submitting r := by rw [hfirst]
  have htwo := quiet_run (s := { s with sys := userStep s.sys }) (by
    intro a b c h
    rw [huser'] at h
    cases h)
  have hsecond : userStep (userStep s.sys) =
      { userStep s.sys with rx := { s.sys.rx with consumer := r }, user := .polling } := by
    rw [hfirst, userStep]
  refine ⟨_, .head hone.step (.single htwo.step), ?_, ?_, ?_⟩
  · rw [hsecond]
  · rw [hsecond]
  · rw [hsecond]

/-- A round of the program over the packets that it has found. -/
theorem round_drains (h : Inv i s ds) (hv : ∀ p ∈ ds, verdict p ≠ none) {r w f : ℕ}
    (huser : s.sys.user = .draining r w f) : ∃ t, UserSteps s t ∧ t.sys.user = .polling ∧
      t.sys.rx.consumer = w ∧ t.sys.rx.producer = s.sys.rx.producer := by
  obtain ⟨n, hn⟩ : ∃ n, gap indexRange r w = n := ⟨_, rfl⟩
  induction n generalizing s r f with
  | zero =>
    obtain ⟨hw, -⟩ := h.rings.copies r w f huser
    have hr : r < indexRange := by
      have hlt := h.rings.rxNext_lt
      rwa [System.rxNext, huser] at hlt
    by_cases hne : r = w
    · subst hne
      exact publish_steps huser
    · have hpos := gap_pos hr hw hne
      omega
  | succ n ih =>
    obtain ⟨hw, -⟩ := h.rings.copies r w f huser
    have hr : r < indexRange := by
      have hlt := h.rings.rxNext_lt
      rwa [System.rxNext, huser] at hlt
    have hne : r ≠ w := by
      rintro rfl
      rw [gap_self hr] at hn
      cases hn
    obtain ⟨p, hhead, ⟨hvp, u, hwent⟩ | ⟨hvp, -⟩⟩ := packet_run h huser hne
    · obtain ⟨hrx, huser'⟩ := userStep_draining huser hne
      have hless := gap_next_left hr hw hne
      have hinv := h.went hwent (by simpa using hvp)
      obtain ⟨t, hsteps, hpoll, hconsumer, hproducer⟩ := ih hinv (hwent.sys ▸ huser') (by
        rw [succ32]
        omega)
      refine ⟨t, .head hwent.step hsteps, hpoll, hconsumer, ?_⟩
      rw [hproducer, hwent.sys, hrx]
    · refine absurd hvp (hv p ?_)
      rw [h.packets]
      exact List.mem_append_right _ (List.mem_of_head? hhead)

/-- A round that begins with the indices of the kernel. -/
theorem polling_drains (h : Inv i s ds) (hv : ∀ p ∈ ds, verdict p ≠ none)
    (huser : s.sys.user = .polling) : ∃ t, UserSteps s t ∧ t.sys.user = .polling ∧
      t.sys.rx.consumer = t.sys.rx.producer := by
  have hquiet := quiet_run (s := s) (by
    intro r w f hdraining
    rw [huser] at hdraining
    cases hdraining)
  have hstep : userStep s.sys = { s.sys with
      user := .draining s.sys.rx.consumer s.sys.rx.producer s.sys.fill.producer } := by
    rw [userStep, huser]
  obtain ⟨t, hsteps, hpoll, hconsumer, hproducer⟩ := round_drains (h.went hquiet (by simp)) hv
    (congrArg System.user hstep)
  refine ⟨t, .head hquiet.step hsteps, hpoll, ?_⟩
  rw [hconsumer, hproducer]
  exact (congrArg (fun u => u.rx.producer) hstep).symm

theorem reaches_end (h : Inv i s ds) (hv : ∀ p ∈ ds, verdict p ≠ none) : ∃ t, UserSteps s t ∧
    t.sys.user = .polling ∧ t.sys.rx.consumer = t.sys.rx.producer := by
  cases huser : s.sys.user with
  | polling => exact polling_drains h hv huser
  | draining r w f =>
    obtain ⟨u, hsteps, hpoll, -⟩ := round_drains h hv huser
    obtain ⟨t, hsteps', hend⟩ := polling_drains (hsteps.inv h) hv hpoll
    exact ⟨t, hsteps.trans hsteps', hend⟩
  | submitting r =>
    have hquiet := quiet_run (s := s) (by
      intro r w f hdraining
      rw [huser] at hdraining
      cases hdraining)
    have hpoll : (userStep s.sys).user = .polling := by rw [userStep, huser]
    obtain ⟨t, hsteps, hend⟩ := polling_drains (h.went hquiet (by simp)) hv hpoll
    exact ⟨t, .head hquiet.step hsteps, hend⟩

/-- From every state that is reached the program comes to the end of the packets
that were delivered, unless one is undefined, and then every chunk is the kernel's. -/
theorem xsk_drains (h : Ran i s ds) (hv : ∀ p ∈ ds, verdict p ≠ none) : ∃ t, UserSteps s t ∧
    t.seen = ds ∧ t.insp = tallied i ds ∧ ∀ c, t.sys.published.count c+t.sys.held.count c =
      if c < pktNumslot then 1 else 0 := by
  obtain ⟨t, hsteps, huser, hend⟩ := reaches_end (ran_inv h) hv
  have hinv := hsteps.inv (ran_inv h)
  have hnext : t.sys.rxNext = t.sys.rx.producer := by rw [System.rxNext, huser, hend]
  have hnone : t.unreadDescs = [] := by
    rw [Xsk.unreadDescs, hnext, entries_self hinv.rings.rxProducer_lt]
  have hseen : t.seen = ds := by
    rw [hinv.packets, Xsk.unread, hnone, List.map_nil, List.append_nil]
  refine ⟨t, hsteps, hseen, ?_, fun c => ?_⟩
  · rw [hinv.insp, hseen, ← inspected_tally hv i]
  · have honce := hinv.rings.once c
    have hfill : t.sys.fillNext = t.sys.fill.producer := by rw [System.fillNext, huser]
    have hrecycled : t.sys.recycled = [] := by
      rw [System.recycled, hfill, chunks, entries_self hinv.rings.fillProducer_lt, List.map_nil]
    rw [unread_chunks, hnone, hrecycled, List.map_nil, List.count_nil] at honce
    exact honce

theorem twoPackets_drain : ∃ t, UserSteps twoPackets t ∧
    t.seen = [[1, 2, 3, 4, 5], [6, 7]] ∧ t.insp.rcvPkts = 2 := by
  have hv : ∀ p ∈ [[1, 2, 3, 4, 5], [6, 7]], verdict p ≠ none := by decide +kernel
  obtain ⟨t, hsteps, hseen, hinsp, -⟩ := xsk_drains twoPackets_ran hv
  exact ⟨t, hsteps, hseen, (congrArg DnsInsp.rcvPkts hinsp).trans (by decide +kernel)⟩

end Steps

end DnsPkt.XskPackets
