import DnsPkt.ReadPcap
import DnsPkt.SocketFilter

/-!
# Live captures and their files

`capture_raw` of `dns_insp.c` hands each frame that the socket delivers to the
inspector and writes it to the capture file, if one was named. Whatever the
frames are, `run_readpcap` on that file does again what the capture did, up to
the first message that is refused.
-/

set_option autoImplicit false

namespace DnsPkt.CaptureReplay
open DnsPkt.CheckedRun DnsPkt.CheckedRun.Run DnsPkt.Octets DnsPkt.CaptureFile
open DnsPkt.CaptureRoundTrip DnsPkt.Inspector DnsPkt.ReadPcap DnsPkt.SocketFilter

abbrev pktMaxrecv : ℕ := 10

/-- A frame that the filter of the socket keeps, and the number of bytes that it keeps. -/
structure SocketFrame where
  raw : Bytes
  snap : ℕ
  kept : CbpfMachine.run dnsFilter raw 20 CbpfMachine.start = .keep snap
  some : snap ≠ 0

def SocketFrame.bytes (frame : SocketFrame) : Bytes := (frame.raw.take frame.snap).take pktMaxsize

/-- What a call of `recvmmsg` comes back with. A frame has the time at which it is written. -/
inductive Recv where
  | interrupted
  | failed
  | batch (msgs : List (ℕ × SocketFrame)) (few : msgs.length ≤ pktMaxrecv)

structure Capture where
  insp : DnsInsp
  pcap : Option PcapOut

abbrev Cap := Run Capture ℤ FrameFault

def inspect (pkt : Bytes) : Cap Unit := fun s => match inspProcessPkt pkt s.insp with
  | .ok _ t => .ok () { s with insp := t }
  | .exit _ t => .ok () { s with insp := t }
  | .fault c => .fault c

def inspProcessMsg (ts : ℕ) (pkt : Bytes) : Cap ℤ := do
  modify fun s => { s with pcap := s.pcap.map fun w => pcapWrite false w ts pkt }
  inspect pkt
  pure 0

def processMsgs : List (ℕ × SocketFrame) → Cap Unit
  | [] => pure ()
  | msg :: rest => do
    let rc ← inspProcessMsg msg.1 msg.2.bytes
    when (rc ≠ 0) (exit rc)
    processMsgs rest

/-- The loop of `capture_raw` over the calls that are made until a signal ends it. -/
def captureLoop : List Recv → Cap ℤ
  | [] => pure 0
  | .interrupted :: calls => captureLoop calls
  | .failed :: _ => exit (-1)
  | .batch msgs _ :: calls => do
    processMsgs msgs
    captureLoop calls

def captureRaw (calls : List Recv) : Cap ℤ := call (captureLoop calls)

def receivedMsgs : List Recv → List (ℕ × Bytes)
  | [] => []
  | .interrupted :: calls => receivedMsgs calls
  | .failed :: _ => []
  | .batch msgs _ :: calls => msgs.map (fun m => (m.1, m.2.bytes)) ++ receivedMsgs calls

def received (calls : List Recv) : List Bytes := (receivedMsgs calls).map Prod.snd

/-- A frame that the filter keeps has a byte, so none ends the loop over a file. -/
theorem SocketFrame.bytes_ne_nil (frame : SocketFrame) : frame.bytes ≠ [] := by
  have hsnap : frame.snap = if accepts frame.raw then 0x40000 else 0 :=
    CbpfMachine.Result.keep.inj (frame.kept.symm.trans (filter_ends frame.raw 20 (by decide)))
  have hacc : accepts frame.raw = true := by
    by_contra hno
    rw [if_neg hno] at hsnap
    exact frame.some hsnap
  have hin : 0 < frame.raw.length := by
    obtain h6 | ⟨h4, -⟩ := of_decide_eq_true hacc
    · exact Nat.zero_lt_of_lt h6.inside
    · exact Nat.zero_lt_of_lt h4.inside
  have hpos : 0 < frame.snap := Nat.pos_of_ne_zero frame.some
  apply List.ne_nil_of_length_pos
  rw [bytes, List.length_take, List.length_take]
  change 0 < min 2048 _
  omega

theorem SocketFrame.length_bytes_le (frame : SocketFrame) : frame.bytes.length ≤ pktMaxsize :=
  List.length_take_le _ _

theorem mem_receivedMsgs {calls : List Recv} {m : ℕ × Bytes} (h : m ∈ receivedMsgs calls) :
    ∃ frame : SocketFrame, m.2 = frame.bytes := by
  induction calls with
  | nil => cases h
  | cons r calls ih =>
    cases r with
    | interrupted => exact ih h
    | failed => cases h
    | batch msgs few =>
      obtain h | h := List.mem_append.mp h
      · obtain ⟨x, -, rfl⟩ := List.mem_map.mp h
        exact ⟨x.2, rfl⟩
      · exact ih h

/-- The state behind a frame, whatever the verdict on it is. -/
def inspected (s : DnsInsp) (pkt : Bytes) : DnsInsp :=
  match inspProcessPkt pkt s with
  | .ok _ t => t
  | .exit _ t => t
  | .fault _ => s

/-- The frames up to the first one that is refused. -/
def upToRefused : List Bytes → List Bytes
  | [] => []
  | pkt :: rest => pkt :: if verdict pkt = some 0 then upToRefused rest else []

/-- The verdict on the first frame that is refused, zero if none is. -/
def refusal : List Bytes → ℤ
  | [] => 0
  | pkt :: rest => if verdict pkt = some 0 then refusal rest else (verdict pkt).getD 0

theorem inspected_ok {pkt : Bytes} (h : verdict pkt ≠ none) (s : DnsInsp) :
    ∃ rc, verdict pkt = some rc ∧ inspProcessPkt pkt s = .ok rc (inspected s pkt) := by
  obtain ⟨rc, t, hv, hrun⟩ | ⟨c, hv, -⟩ := inspProcessPkt_verdict pkt s
  · refine ⟨rc, hv, ?_⟩
    rw [inspected, hrun]
  · exact absurd hv h

inductive MemFault where
  | read (i : ℕ)
  | frame (c : FrameFault)

def inspectAt (mem : Bytes) (i n : ℕ) (insp : DnsInsp) : Except MemFault DnsInsp :=
  if i+n ≤ mem.length then
    match inspProcessPkt (slice mem i n) insp with
    | .ok _ t | .exit _ t => .ok t
    | .fault c => .error (.frame c)
  else .error (.read i)

theorem inspectAt_run {mem : Bytes} {i n : ℕ} (hin : i+n ≤ mem.length) (s : DnsInsp) :
    (verdict (slice mem i n) ≠ none ∧ inspectAt mem i n s = .ok (inspected s (slice mem i n))) ∨
      (verdict (slice mem i n) = none ∧ ∃ c, inspectAt mem i n s = .error (.frame c)) := by
  rw [inspectAt, if_pos hin]
  obtain ⟨rc, t, hv, hrun⟩ | ⟨c, hv, hrun⟩ := inspProcessPkt_verdict (slice mem i n) s
  · refine .inl ⟨by rw [hv]; exact Option.some_ne_none rc, ?_⟩
    rw [inspected, hrun]
  · refine .inr ⟨hv, c, ?_⟩
    rw [hrun]

section Replay

variable {data : Bytes}

theorem nextPkt_of_read {f g : PcapFile} {pkt : Bytes} (h : pcapRead data pktMaxsize f = .ok pkt g)
    (i : DnsInsp) (seen : List Bytes) : nextPkt data ⟨f, i, seen⟩ = .ok pkt ⟨g, i, seen⟩ := by
  rw [nextPkt, h]

theorem readLoop_succ {k : ℕ} {f g : PcapFile} {pkts : List Bytes}
    (h : readLoop data pktMaxsize (k+1) f = some (pkts, g)) :
    ∃ pkt f', pcapRead data pktMaxsize f = .ok pkt f' ∧ ((pkt = [] ∧ pkts = []) ∨
      ∃ rest, pkt ≠ [] ∧ pkts = pkt :: rest ∧ readLoop data pktMaxsize k f' = some (rest, g)) := by
  rw [readLoop] at h
  cases hread : pcapRead data pktMaxsize f with
  | ok pkt f' =>
    rw [hread] at h
    cases pkt with
    | nil =>
      cases h
      exact ⟨[], _, rfl, .inl ⟨rfl, rfl⟩⟩
    | cons x xs =>
      obtain ⟨r, hr, heq⟩ := Option.map_eq_some_iff.mp h
      cases heq
      exact ⟨x :: xs, f', rfl, .inr ⟨r.1, List.cons_ne_nil _ _, rfl, hr⟩⟩
  | exit c f' =>
    rw [hread] at h
    cases h
  | fault c =>
    rw [hread] at h
    cases h

/-- Packets that can be read are handed out in their order until one is refused. -/
theorem readpcapLoop_run {k : ℕ} {f g : PcapFile} {pkts : List Bytes}
    (hread : readLoop data pktMaxsize k f = some (pkts, g)) (hv : ∀ p ∈ pkts, verdict p ≠ none)
    (i : DnsInsp) (seen : List Bytes) :
    ∃ f', readpcapLoop data k ⟨f, i, seen⟩ =
      .ok (refusal pkts) ⟨f', (upToRefused pkts).foldl inspected i, seen ++ upToRefused pkts⟩ := by
  induction k generalizing f pkts i seen with
  | zero => cases hread
  | succ k ih =>
    obtain ⟨pkt, f', hpkt, ⟨rfl, rfl⟩ | ⟨rest, hne, rfl, hrest⟩⟩ := readLoop_succ hread
    · refine ⟨f', ?_⟩
      rw [loop_ends_at (nextPkt_of_read hpkt i seen), upToRefused, List.append_nil]
      rfl
    · obtain ⟨rc, hrc, hrun⟩ := inspected_ok (hv pkt List.mem_cons_self) i
      have hproc : processPkt pkt ⟨f', i, seen⟩ =
          .ok rc ⟨f', inspected i pkt, seen ++ [pkt]⟩ := by rw [processPkt, hrun]
      rw [readpcapLoop, bind_of_ok (nextPkt_of_read hpkt i seen), if_neg hne, bind_of_ok hproc,
        refusal, upToRefused, hrc]
      by_cases h0 : rc = 0
      · obtain ⟨f'', hloop⟩ := ih hrest (fun q hq => hv q (List.mem_cons_of_mem _ hq))
          (inspected i pkt) (seen ++ [pkt])
        refine ⟨f'', ?_⟩
        rw [if_neg (not_not.mpr h0), if_pos (by rw [h0]), if_pos (by rw [h0]), hloop,
          List.append_assoc]
        rfl
      · have hsome : some rc ≠ some (0 : ℤ) := fun hsome => h0 (Option.some.inj hsome)
        refine ⟨f', ?_⟩
        rw [if_pos h0, if_neg hsome, if_neg hsome]
        rfl

theorem runReadpcap_run {pkts : List Bytes} {g : PcapFile}
    (hread : readFile data pktMaxsize = some (pkts, g)) (hv : ∀ p ∈ pkts, verdict p ≠ none)
    (i : DnsInsp) : ∃ f f', pcapOpen data = some f ∧ runReadpcap data ⟨f, i, []⟩ =
      .ok (refusal pkts) ⟨f', (upToRefused pkts).foldl inspected i, upToRefused pkts⟩ := by
  obtain ⟨f, hf, hloop⟩ := Option.bind_eq_some_iff.mp hread
  obtain ⟨f', hrun⟩ := readpcapLoop_run hloop hv i []
  exact ⟨f, f', hf, hrun⟩

theorem fieldLen_lt (isNg : Bool) {pkt : Bytes} (h : pkt.length ≤ pktMaxsize) :
    fieldLen isNg pkt < 2^32 := by
  change _ ≤ 2048 at h
  rw [fieldLen, totLen, calcPadlen]
  split_ifs <;> omega

/-- The file of one frame hands that frame to the inspector, and the loop ends with its code. -/
theorem one_frame_run (ts : ℕ) (isNg : Bool) {pkt : Bytes} (hne : pkt ≠ [])
    (hlen : pkt.length ≤ pktMaxsize) : ∃ f,
    pcapOpen (written false isNg false [(ts, pkt)]) = some f ∧ f.isNg = isNg ∧ ∀ s,
      (∃ rc t g, verdict pkt = some rc ∧ inspProcessPkt pkt s = .ok rc t ∧
        runReadpcap (written false isNg false [(ts, pkt)]) ⟨f, s, []⟩ = .ok rc ⟨g, t, [pkt]⟩) ∨
      (verdict pkt = none ∧
        ∃ c, runReadpcap (written false isNg false [(ts, pkt)]) ⟨f, s, []⟩ = .fault c) := by
  have hone : ∀ p ∈ [(ts, pkt)], p.2 ≠ [] ∧ p.2.length ≤ pktMaxsize ∧
      fieldLen isNg p.2 < 2^32 := by
    intro p hp
    obtain rfl := List.mem_singleton.mp hp
    exact ⟨hne, hlen, fieldLen_lt isNg hlen⟩
  obtain ⟨f, g, hopen, hng, hread, -⟩ := @written_read false isNg _ _ hone
  refine ⟨f, hopen, hng, fun s => ?_⟩
  obtain ⟨rc, t, hv, hrun⟩ | ⟨c, hv, hrun⟩ := inspProcessPkt_verdict pkt s
  · left
    have hsome : ∀ p ∈ [pkt], verdict p ≠ none := by
      intro p hp
      obtain rfl := List.mem_singleton.mp hp
      rw [hv]
      exact Option.some_ne_none rc
    obtain ⟨f', g', hopen', hreplay⟩ := runReadpcap_run hread hsome s
    obtain rfl : f = f' := Option.some.inj (hopen.symm.trans hopen')
    have hseen : upToRefused [pkt] = [pkt] := by
      rw [upToRefused, upToRefused, ite_self]
    have hcode : refusal [pkt] = rc := by
      rw [refusal, refusal, hv]
      by_cases h0 : some rc = some (0 : ℤ)
      · rw [if_pos h0, ← Option.some.inj h0]
      · rw [if_neg h0, Option.getD_some]
    have hstate : inspected s pkt = t := by rw [inspected, hrun]
    refine ⟨rc, t, g', hv, hrun, ?_⟩
    rw [List.map_singleton, hseen, hcode, List.foldl_cons, List.foldl_nil, hstate] at hreplay
    exact hreplay
  · right
    obtain ⟨f', hf', hloop⟩ := Option.bind_eq_some_iff.mp hread
    obtain rfl : f = f' := Option.some.inj (hopen.symm.trans hf')
    obtain ⟨p, f1, hpkt, ⟨-, hnil⟩ | ⟨rest, -, hcons, -⟩⟩ := readLoop_succ hloop
    · cases hnil
    · obtain rfl : pkt = p := (List.cons.inj hcons).1
      refine ⟨hv, c, ?_⟩
      rw [runReadpcap, readpcapLoop, bind_of_ok (nextPkt_of_read hpkt s []), if_neg hne]
      refine bind_of_fault ?_ _
      rw [processPkt, hrun]

/-- The loop over that file ends as the inspection of the frame does. -/
theorem one_frame_code (ts : ℕ) (isNg : Bool) {pkt : Bytes} (hne : pkt ≠ [])
    (hlen : pkt.length ≤ pktMaxsize) : ∃ f,
    pcapOpen (written false isNg false [(ts, pkt)]) = some f ∧ f.isNg = isNg ∧ ∀ s rc,
      (∀ u, runReadpcap (written false isNg false [(ts, pkt)]) ⟨f, s, []⟩ = .ok rc u →
        inspProcessPkt pkt s = .ok rc u.insp) ∧
      ∀ t, inspProcessPkt pkt s = .ok rc t →
        ∃ u, runReadpcap (written false isNg false [(ts, pkt)]) ⟨f, s, []⟩ = .ok rc u ∧
          u.insp = t ∧ u.seen = [pkt] := by
  obtain ⟨f, hopen, hng, hruns⟩ := one_frame_run ts isNg hne hlen
  refine ⟨f, hopen, hng, fun s rc => ?_⟩
  obtain ⟨rc', t, g, -, hrun, hreplay⟩ | ⟨hnone, c, hreplay⟩ := hruns s
  · constructor
    · intro u hu
      cases hreplay.symm.trans hu
      exact hrun
    · intro t' ht'
      cases hrun.symm.trans ht'
      exact ⟨_, hreplay, rfl, rfl⟩
  · constructor
    · intro u hu
      cases hreplay.symm.trans hu
    · intro t' ht'
      obtain ⟨rc', t, hv, -⟩ | ⟨c, -, hrun⟩ := inspProcessPkt_verdict pkt s
      · rw [hnone] at hv
        cases hv
      · cases hrun.symm.trans ht'

end Replay

theorem inspect_run (pkt : Bytes) (s : Capture) :
    (verdict pkt ≠ none ∧ inspect pkt s = .ok () ⟨inspected s.insp pkt, s.pcap⟩) ∨
      ∃ c, inspect pkt s = .fault c := by
  obtain ⟨rc, t, hv, hrun⟩ | ⟨c, -, hrun⟩ := inspProcessPkt_verdict pkt s.insp
  · refine .inl ⟨by rw [hv]; exact Option.some_ne_none rc, ?_⟩
    rw [inspect, inspected, hrun]
  · refine .inr ⟨c, ?_⟩
    rw [inspect, hrun]

theorem inspProcessMsg_ok {ts : ℕ} {pkt : Bytes} {s t : Capture} {rc : ℤ}
    (h : inspProcessMsg ts pkt s = .ok rc t) : rc = 0 ∧ verdict pkt ≠ none ∧
      t = ⟨inspected s.insp pkt, s.pcap.map fun w => pcapWrite false w ts pkt⟩ := by
  rw [inspProcessMsg, bind_of_ok (modify_run _ _)] at h
  obtain ⟨hv, hrun⟩ | ⟨c, hrun⟩ := inspect_run pkt
    { s with pcap := s.pcap.map fun w => pcapWrite false w ts pkt }
  · rw [bind_of_ok hrun] at h
    cases h
    exact ⟨rfl, hv, rfl⟩
  · rw [bind_of_fault hrun] at h
    cases h

theorem processMsgs_ok {msgs : List (ℕ × SocketFrame)} {s t : Capture} {u : Unit}
    (h : processMsgs msgs s = .ok u t) :
    (∀ m ∈ msgs, verdict m.2.bytes ≠ none) ∧
      t.insp = (msgs.map fun m => m.2.bytes).foldl inspected s.insp ∧
      t.pcap = s.pcap.map fun w => (msgs.map fun m => (m.1, m.2.bytes)).foldl
        (fun w p => pcapWrite false w p.1 p.2) w := by
  induction msgs generalizing s with
  | nil =>
    cases h
    exact ⟨by simp, rfl, by simp⟩
  | cons m rest ih =>
    rw [processMsgs] at h
    obtain ⟨rc, v, hm, h⟩ := (bind_ok _ _ _ _ _).mp h
    obtain ⟨rfl, hv, rfl⟩ := inspProcessMsg_ok hm
    rw [bind_when_neg (not_not.mpr rfl)] at h
    obtain ⟨hrest, hinsp, hpcap⟩ := ih h
    refine ⟨List.forall_mem_cons.mpr ⟨hv, hrest⟩, hinsp, ?_⟩
    rw [hpcap, Option.map_map]
    rfl

theorem processMsgs_exit {msgs : List (ℕ × SocketFrame)} {s t : Capture} {c : ℤ} :
    processMsgs msgs s ≠ .exit c t := by
  induction msgs generalizing s with
  | nil =>
    intro h
    cases h
  | cons m rest ih =>
    intro h
    rw [processMsgs] at h
    obtain h | ⟨rc, v, hm, h⟩ := (bind_exit _ _ _ _ _).mp h
    · rw [inspProcessMsg, bind_of_ok (modify_run _ _)] at h
      obtain ⟨-, hrun⟩ | ⟨_, hrun⟩ := inspect_run m.2.bytes
        { s with pcap := s.pcap.map fun w => pcapWrite false w m.1 m.2.bytes }
      · rw [bind_of_ok hrun] at h
        cases h
      · rw [bind_of_fault hrun] at h
        cases h
    · obtain ⟨rfl, -, -⟩ := inspProcessMsg_ok hm
      rw [bind_when_neg (not_not.mpr rfl)] at h
      exact ih h

/-- Behind a capture that came back all frames were inspected and written, in their order. -/
theorem captureLoop_end {calls : List Recv} {s t : Capture} {rc : ℤ}
    (h : captureLoop calls s = .ok rc t ∨ captureLoop calls s = .exit rc t) :
    (∀ p ∈ received calls, verdict p ≠ none) ∧
      t.insp = (received calls).foldl inspected s.insp ∧
      t.pcap = s.pcap.map fun w => (receivedMsgs calls).foldl
        (fun w p => pcapWrite false w p.1 p.2) w := by
  induction calls generalizing s with
  | nil =>
    obtain h | h := h <;> cases h
    exact ⟨by simp [received, receivedMsgs], rfl, by simp [receivedMsgs]⟩
  | cons r calls ih =>
    cases r with
    | interrupted => exact ih h
    | failed =>
      obtain h | h := h <;> cases h
      exact ⟨by simp [received, receivedMsgs], rfl, by simp [receivedMsgs]⟩
    | batch msgs few =>
      have hparts : ∃ u v, processMsgs msgs s = .ok u v ∧
          (captureLoop calls v = .ok rc t ∨ captureLoop calls v = .exit rc t) := by
        obtain h | h := h
        · obtain ⟨u, v, hm, h⟩ := (bind_ok _ _ _ _ _).mp h
          exact ⟨u, v, hm, .inl h⟩
        · obtain h | ⟨u, v, hm, h⟩ := (bind_exit _ _ _ _ _).mp h
          · exact absurd h processMsgs_exit
          · exact ⟨u, v, hm, .inr h⟩
      obtain ⟨u, v, hm, h⟩ := hparts
      obtain ⟨hv, hinsp, hpcap⟩ := processMsgs_ok hm
      obtain ⟨hv', hinsp', hpcap'⟩ := ih h
      have hrec : received (.batch msgs few :: calls) =
          (msgs.map fun m => m.2.bytes) ++ received calls := by
        rw [received, receivedMsgs, List.map_append, List.map_map]
        rfl
      refine ⟨?_, ?_, ?_⟩
      · rw [hrec]
        intro p hp
        obtain hp | hp := List.mem_append.mp hp
        · obtain ⟨m, hm, rfl⟩ := List.mem_map.mp hp
          exact hv m hm
        · exact hv' p hp
      · rw [hinsp', hinsp, hrec, List.foldl_append]
      · rw [hpcap', hpcap, Option.map_map, receivedMsgs]
        congr 1
        funext w
        rw [Function.comp_apply, List.foldl_append]

theorem captureRaw_end {calls : List Recv} {s t : Capture} {rc : ℤ}
    (h : captureRaw calls s = .ok rc t) :
    (∀ p ∈ received calls, verdict p ≠ none) ∧
      t.insp = (received calls).foldl inspected s.insp ∧
      t.pcap = s.pcap.map fun w => (receivedMsgs calls).foldl
        (fun w p => pcapWrite false w p.1 p.2) w :=
  captureLoop_end ((call_ok _ _ _ _).mp h)

/-- What was captured to a file can be read from it. -/
theorem received_read (isNg : Bool) (calls : List Recv) : ∃ f g,
    pcapOpen (written false isNg false (receivedMsgs calls)) = some f ∧ f.isNg = isNg ∧
      readFile (written false isNg false (receivedMsgs calls)) pktMaxsize =
        some (received calls, g) ∧ g.haveEof = true := by
  apply written_read
  intro m hm
  obtain ⟨frame, heq⟩ := mem_receivedMsgs hm
  have hlen := frame.length_bytes_le
  rw [heq]
  exact ⟨frame.bytes_ne_nil, hlen, fieldLen_lt isNg hlen⟩

theorem upToRefused_prefix (pkts : List Bytes) : upToRefused pkts <+: pkts := by
  induction pkts with
  | nil => exact List.prefix_rfl
  | cons p ps ih =>
    rw [upToRefused]
    split
    · exact List.cons_prefix_cons.mpr ⟨rfl, ih⟩
    · exact List.cons_prefix_cons.mpr ⟨rfl, List.nil_prefix⟩

def RefusedLast (pkts : List Bytes) : Prop :=
  ∀ before p after, pkts = before ++ p :: after → after ≠ [] → verdict p = some 0

theorem refusedLast_cons {p q : Bytes} {ps : List Bytes} :
    RefusedLast (p :: q :: ps) ↔ verdict p = some 0 ∧ RefusedLast (q :: ps) := by
  constructor
  · intro h
    refine ⟨h [] p (q :: ps) rfl (List.cons_ne_nil _ _), fun before x after heq hne => ?_⟩
    exact h (p :: before) x after (by rw [heq, List.cons_append]) hne
  · rintro ⟨hp, h⟩ before x after heq hne
    cases before with
    | nil =>
      obtain ⟨rfl, -⟩ := List.cons.inj heq
      exact hp
    | cons b before => exact h before x after (List.cons.inj heq).2 hne

theorem upToRefused_all {pkts : List Bytes} : upToRefused pkts = pkts ↔ RefusedLast pkts := by
  induction pkts with
  | nil =>
    refine iff_of_true rfl fun before p after heq => ?_
    simp at heq
  | cons p ps ih =>
    rw [upToRefused, List.cons_inj_right]
    cases ps with
    | nil =>
      refine iff_of_true (by split <;> rfl) fun before x after heq hne => ?_
      cases before with
      | nil => exact absurd (List.cons.inj heq).2.symm hne
      | cons b before => simp at heq
    | cons q ps =>
      rw [refusedLast_cons, ← ih]
      by_cases hp : verdict p = some 0
      · simp only [hp, if_true, true_and]
      · simp only [hp, if_false, false_and, iff_false]
        exact (List.cons_ne_nil q ps).symm

def reportOf (pkt : Bytes) : Bytes :=
  match dnsPayload pkt with
  | none => []
  | some d => match judge d ⟨0, 0, 0, 0, []⟩ with
    | .ok r _ => cstr r.2
    | _ => []

def isDns (pkt : Bytes) : Bool := (dnsPayload pkt).isSome

def isRefused (pkt : Bytes) : Bool := (verdict pkt).any (· < 0)

def tallied (s : DnsInsp) (pkts : List Bytes) : DnsInsp where
  rcvPkts := s.rcvPkts+pkts.length
  dnsPkts := s.dnsPkts+pkts.countP isDns
  dnsOkay := s.dnsOkay+pkts.countP fun p => isDns p && !isRefused p
  dnsFail := s.dnsFail+pkts.countP isRefused
  out := s.out ++ pkts.flatMap reportOf

theorem inspected_one {pkt : Bytes} (h : verdict pkt ≠ none) (s : DnsInsp) :
    inspected s pkt = tallied s [pkt] := by
  have heq := inspProcessPkt_eq pkt s
  cases hd : dnsPayload pkt with
  | none =>
    have hv : verdict pkt = some 0 := by rw [verdict, hd]
    rw [hd] at heq
    rw [inspected, heq]
    simp [tallied, isDns, isRefused, reportOf, hd, hv]
  | some d =>
    have hv : verdict pkt = dnsVerdict d := by rw [verdict, hd]
    rw [hd] at heq
    obtain ⟨rc, emsg, hj, hrun⟩ | ⟨c, hj, -⟩ := inspDns_run d { s with rcvPkts := s.rcvPkts+1 }
    · have hrc : dnsVerdict d = some rc := by rw [dnsVerdict, hj]
      have hreport : reportOf pkt = cstr emsg := by rw [reportOf, hd]; simp only [hj]
      rw [inspected, heq]
      simp only [hrun]
      by_cases hneg : rc < 0
      · simp [tallied, judged, isDns, isRefused, hreport, hd, hv, hrc, hneg]
      · simp [tallied, judged, isDns, isRefused, hreport, hd, hv, hrc, hneg]
    · refine absurd ?_ h
      rw [hv, dnsVerdict, hj]

theorem inspected_tally {pkts : List Bytes} (h : ∀ p ∈ pkts, verdict p ≠ none) (s : DnsInsp) :
    pkts.foldl inspected s = tallied s pkts := by
  induction pkts generalizing s with
  | nil => simp [tallied]
  | cons p ps ih =>
    rw [List.foldl_cons, ih (fun q hq => h q (List.mem_cons_of_mem _ hq)),
      inspected_one (h p List.mem_cons_self)]
    simp only [tallied, List.length_cons, List.length_nil, List.countP_cons, List.countP_nil,
      List.flatMap_cons, List.flatMap_nil, List.append_nil, List.append_assoc, DnsInsp.mk.injEq]
    exact ⟨by ring, by ring, by ring, by ring, trivial⟩

theorem refused_isDns {pkt : Bytes} (h : isRefused pkt = true) : isDns pkt = true := by
  cases hd : dnsPayload pkt with
  | none =>
    rw [isRefused, verdict, hd] at h
    exact absurd h (by decide)
  | some d => rw [isDns, hd]; rfl

/-- Each message is counted as accepted or as refused. -/
theorem tallied_split (pkts : List Bytes) :
    pkts.countP isDns = (pkts.countP fun p => isDns p && !isRefused p)+pkts.countP isRefused := by
  induction pkts with
  | nil => rfl
  | cons p ps ih =>
    rw [List.countP_cons, List.countP_cons, List.countP_cons, ih]
    by_cases hr : isRefused p = true
    · simp only [hr, refused_isDns hr]
      simp
      omega
    · by_cases hd : isDns p = true
      · simp only [hr, hd]
        simp
        omega
      · simp [hr, hd]

/-- A capture that comes back has counted every frame it received and put out
the reports in their order, and every DNS message is either accepted or refused.
A capture does not come back if `dns_validate` reads behind one of its frames. -/
theorem capture_counters {calls : List Recv} {s t : Capture} {rc : ℤ}
    (h : captureRaw calls s = .ok rc t) :
    t.insp = tallied s.insp (received calls) ∧
      t.insp.dnsPkts+s.insp.dnsOkay+s.insp.dnsFail =
        s.insp.dnsPkts+t.insp.dnsOkay+t.insp.dnsFail := by
  obtain ⟨hv, hinsp, -⟩ := captureRaw_end h
  have htally := hinsp.trans (inspected_tally hv s.insp)
  refine ⟨htally, ?_⟩
  rw [htally]
  have hsplit := tallied_split (received calls)
  simp only [tallied]
  omega

def cutReceived : SocketFrame := ⟨cutFrame, 0x40000, filters_disagree.2.1, by decide⟩

def shortReceived : SocketFrame where
  raw := [0, 0, 0, 0, 0, 2, 0, 0, 0, 0, 0, 1, 0x08, 0x00, 0x45, 0, 0, 29, 0, 0, 0, 0, 255, 17, 0, 0,
    0, 0, 0, 0, 0, 0, 0, 0, 0, 53, 0, 53, 0, 9, 0, 0, 7]
  snap := 0x40000
  kept := by decide +kernel
  some := by decide

def threeCalls : List Recv :=
  [.interrupted, .batch [(5, cutReceived), (6, shortReceived)] (by decide),
    .batch [(7, cutReceived)] (by decide), .failed]

theorem threeCalls_counted : ∃ t, captureRaw threeCalls ⟨⟨0, 0, 0, 0, []⟩, none⟩ = .ok (-1) t ∧
    t.insp.rcvPkts = 3 ∧ t.insp.dnsPkts = t.insp.dnsOkay+t.insp.dnsFail := by
  have hrun : (captureRaw threeCalls ⟨⟨0, 0, 0, 0, []⟩, none⟩).result.map (fun p => p.1) =
      some (-1) := by decide +kernel
  obtain ⟨rc, t, h, rfl⟩ := Outcome.eq_ok hrun
  obtain ⟨htally, hsplit⟩ := capture_counters h
  refine ⟨t, h, ?_, by simpa using hsplit⟩
  rw [htally]
  rfl

/-- `run_readpcap` on the file of a capture that came back does again what the
capture did, up to the first message that is refused. It comes to the end exactly
if only the last frame may be refused. -/
theorem capture_replayed (isNg : Bool) {calls : List Recv} {s : DnsInsp} {t : Capture} {rc : ℤ}
    (h : captureRaw calls ⟨s, some (pcapCreate false isNg false)⟩ = .ok rc t) :
    ∃ w f u, t.pcap = some w ∧ pcapOpen w.out = some f ∧ f.isNg = isNg ∧
      runReadpcap w.out ⟨f, s, []⟩ = .ok (refusal (received calls)) u ∧
      u.seen = upToRefused (received calls) ∧ u.seen <+: received calls ∧
      u.insp = u.seen.foldl inspected s ∧ t.insp = (received calls).foldl inspected s ∧
      (u.insp = t.insp ↔ RefusedLast (received calls)) := by
  obtain ⟨hv, hinsp, hpcap⟩ := captureRaw_end h
  obtain ⟨f, g, hopen, hng, hread, -⟩ := received_read isNg calls
  obtain ⟨f1, f2, hopen', hrun⟩ := runReadpcap_run hread hv s
  obtain rfl : f = f1 := Option.some.inj (hopen.symm.trans hopen')
  have hpre := upToRefused_prefix (received calls)
  have hv' : ∀ p ∈ upToRefused (received calls), verdict p ≠ none :=
    fun p hp => hv p (hpre.subset hp)
  refine ⟨_, f, _, hpcap, hopen, hng, hrun, rfl, hpre, rfl, hinsp, ?_⟩
  rw [hinsp, ← upToRefused_all]
  constructor
  · intro heq
    rw [inspected_tally hv', inspected_tally hv] at heq
    have hlen : s.rcvPkts+(upToRefused (received calls)).length =
        s.rcvPkts+(received calls).length := congrArg DnsInsp.rcvPkts heq
    exact hpre.eq_of_length (by omega)
  · intro heq
    rw [heq]

theorem threeCalls_replayed : ∃ t w f u,
    captureRaw threeCalls ⟨⟨0, 0, 0, 0, []⟩, some (pcapCreate false true false)⟩ = .ok (-1) t ∧
      t.pcap = some w ∧ pcapOpen w.out = some f ∧
      runReadpcap w.out ⟨f, ⟨0, 0, 0, 0, []⟩, []⟩ = .ok (-1) u ∧
      u.seen = [cutReceived.bytes, shortReceived.bytes] ∧ u.insp ≠ t.insp := by
  have hrun : (captureRaw threeCalls
      ⟨⟨0, 0, 0, 0, []⟩, some (pcapCreate false true false)⟩).result.map (fun p => p.1) =
        some (-1) := by decide +kernel
  obtain ⟨rc, t, h, rfl⟩ := Outcome.eq_ok hrun
  obtain ⟨w, f, u, hw, hf, -, hread, hseen, -, -, -, hiff⟩ := capture_replayed true h
  have hrefusal : refusal (received threeCalls) = -1 := by decide +kernel
  have hupTo : upToRefused (received threeCalls) = [cutReceived.bytes, shortReceived.bytes] := by
    decide +kernel
  rw [hrefusal] at hread
  refine ⟨t, w, f, u, h, hw, hf, hread, hseen.trans hupTo, fun heq => ?_⟩
  have hlast := hiff.mp heq [cutReceived.bytes] shortReceived.bytes [cutReceived.bytes] rfl
    (List.cons_ne_nil _ _)
  have hverdict : verdict shortReceived.bytes = some (-1) := by decide +kernel
  rw [hverdict] at hlast
  exact absurd hlast (by decide)

end DnsPkt.CaptureReplay
