import DnsPkt.CaptureReplay
import DnsPkt.HandoverRing
import DnsPkt.NumberText
import Mathlib.Logic.Relation

/-!
# Captures through shared memory

`capture_mmap` of `dns_insp.c` goes round the blocks of the memory that it
shares with the kernel. The kernel fills a block with frames and hands it over
by its status, and the program hands it back when it has read the frames. The
kernel may do something between any two steps of the program.
-/

set_option autoImplicit false

namespace DnsPkt.MmapCapture
open DnsPkt.CheckedRun DnsPkt.CheckedRun.Run DnsPkt.Octets DnsPkt.Inspector DnsPkt.CaptureReplay
open DnsPkt.ByteOrder (load)
open DnsPkt.NumberText (slice_patch_behind)
open DnsPkt.HandoverRing (SlotRing Queue)

/-- The parts of `insp->req` that the loop goes by. -/
structure TpacketReq where
  blockSize : ℕ
  blockNr : ℕ

/-- Where the program is: at the head of its loop, or in the loop over the
packets of a block. -/
inductive Place where
  | waiting
  | packets (hdr i : ℕ)

/-- The memory, the program with the frames that it handed to the inspector,
and the block that the kernel fills. -/
structure Mmap where
  req : TpacketReq
  umem : Bytes
  bdPtr : ℕ
  place : Place
  insp : DnsInsp
  seen : List Bytes
  next : ℕ

abbrev Mm := Run Mmap ℤ MemFault

def readInt (n i : ℕ) : Mm ℕ := fun s =>
  if i+n ≤ s.umem.length then .ok (load (slice s.umem i n)) s else .fault (.read i)

def inspProcess (i n : ℕ) : Mm Unit := fun s =>
  match inspectAt s.umem i n s.insp with
  | .ok t => .ok () { s with insp := t, seen := s.seen ++ [slice s.umem i n] }
  | .error c => .fault c

abbrev blockStatus : ℕ := 8
abbrev numPkts : ℕ := 12
abbrev offsetToFirstPkt : ℕ := 16

abbrev tpNextOffset : ℕ := 0
abbrev tpLen : ℕ := 16
abbrev tpMac : ℕ := 24

def setStatus (i status : ℕ) (s : Mmap) : Mmap :=
  { s with umem := patch s.umem (i+blockStatus) (ByteOrder.store 4 status) }

/-- `TP_STATUS_KERNEL` is zero. -/
def releaseBlock (s : Mmap) : Mmap :=
  let s := setStatus s.bdPtr 0 s
  let bdPtr := s.bdPtr+s.req.blockSize
  { s with bdPtr := if s.umem.length ≤ bdPtr then 0 else bdPtr, place := .waiting }

def packetStep (hdr i : ℕ) : Mm Unit := do
  let mac ← readInt 2 (hdr+tpMac)
  let len ← readInt 4 (hdr+tpLen)
  inspProcess (hdr+mac) len
  let off ← readInt 4 (hdr+tpNextOffset)
  modify fun s => { s with place := .packets (hdr+off) (i+1) }

/-- What the program does next. The status of a block is tested by the bit `TP_STATUS_USER`,
and a block that is not there yet is waited for. -/
def userStep : Mm Unit := do
  let s ← get
  match s.place with
  | .waiting => do
    let status ← readInt 4 (s.bdPtr+blockStatus)
    when (status % 2 = 1) do
      let first ← readInt 4 (s.bdPtr+offsetToFirstPkt)
      modify fun s => { s with place := .packets (s.bdPtr+first) 0 }
  | .packets hdr i => do
    let num ← readInt 4 (s.bdPtr+numPkts)
    if i < num then packetStep hdr i else modify releaseBlock

def Mmap.block (s : Mmap) (j : ℕ) : Bytes := slice s.umem (j*s.req.blockSize) s.req.blockSize

def field (b : Bytes) (i n : ℕ) : ℕ := load (slice b i n)

def statusOf (b : Bytes) : ℕ := field b blockStatus 4

def Chain (b : Bytes) : ℕ → List Bytes → Prop
  | _, [] => True
  | hdr, p :: ps => hdr+26 ≤ b.length ∧ hdr+field b (hdr+tpMac) 2+field b (hdr+tpLen) 4 ≤ b.length ∧
      slice b (hdr+field b (hdr+tpMac) 2) (field b (hdr+tpLen) 4) = p ∧
      Chain b (hdr+field b (hdr+tpNextOffset) 4) ps

structure Holds (b : Bytes) (frames : List Bytes) : Prop where
  count : field b numPkts 4 = frames.length
  chain : Chain b (field b offsetToFirstPkt 4) frames

def kernelWrite (i : ℕ) (b : Bytes) (s : Mmap) : Mmap :=
  { s with umem := patch s.umem (s.next*s.req.blockSize+i) b }

def kernelClose (status : ℕ) (s : Mmap) : Mmap :=
  { setStatus (s.next*s.req.blockSize) status s with next := (s.next+1) % s.req.blockNr }

/-- The memory as the kernel maps it, for a request with room for a header in a block. -/
structure Fresh (i : DnsInsp) (s : Mmap) : Prop where
  blocks : 0 < s.req.blockNr
  room : 48 ≤ s.req.blockSize
  size : s.umem.length = s.req.blockNr*s.req.blockSize
  kernel : ∀ j < s.req.blockNr, statusOf (s.block j) % 2 = 0
  bdPtr : s.bdPtr = 0
  place : s.place = .waiting
  insp : s.insp = i
  seen : s.seen = []
  next : s.next = 0

/-- The runs of both, with the frames of the blocks that were handed over. The
kernel only writes to its block while it owns it, and not to the status but to
hand it over. -/
inductive Ran (i : DnsInsp) : Mmap → List (List Bytes) → Prop
  | fresh {s : Mmap} (h : Fresh i s) : Ran i s []
  | user {s t : Mmap} {bs : List (List Bytes)} (h : Ran i s bs) (step : userStep s = .ok () t) :
      Ran i t bs
  | write {s : Mmap} {bs : List (List Bytes)} {k : ℕ} {b : Bytes} (h : Ran i s bs)
      (owned : statusOf (s.block s.next) % 2 = 0) (inside : k+b.length ≤ s.req.blockSize)
      (beside : k+b.length ≤ blockStatus ∨ numPkts ≤ k) : Ran i (kernelWrite k b s) bs
  | close {s : Mmap} {bs : List (List Bytes)} {status : ℕ} {frames : List Bytes} (h : Ran i s bs)
      (owned : statusOf (s.block s.next) % 2 = 0) (user : status % 2 = 1)
      (holds : Holds ((kernelClose status s).block s.next) frames) :
      Ran i (kernelClose status s) (bs ++ [frames])

section Blocks

variable {s : Mmap} {j k : ℕ}

structure Sized (s : Mmap) : Prop where
  blocks : 0 < s.req.blockNr
  room : 48 ≤ s.req.blockSize
  size : s.umem.length = s.req.blockNr*s.req.blockSize

theorem Sized.inside (h : Sized s) (hj : j < s.req.blockNr) :
    j*s.req.blockSize+s.req.blockSize ≤ s.umem.length := by
  rw [h.size, ← Nat.succ_mul]
  exact Nat.mul_le_mul_right _ hj

theorem Sized.length_block (h : Sized s) (hj : j < s.req.blockNr) :
    (s.block j).length = s.req.blockSize := length_slice _ _ _ (h.inside hj)

/-- A read inside a block. -/
theorem readInt_block (h : Sized s) (hj : j < s.req.blockNr) {n i : ℕ}
    (hi : i+n ≤ s.req.blockSize) :
    readInt n (j*s.req.blockSize+i) s = .ok (field (s.block j) i n) s := by
  have hin := h.inside hj
  rw [readInt, if_pos (by omega), field, Mmap.block, slice_slice _ _ hi]

/-- Blocks lie apart. -/
theorem blocks_apart (size : ℕ) (hne : j ≠ k) : j*size+size ≤ k*size ∨ k*size+size ≤ j*size := by
  rw [← Nat.succ_mul, ← Nat.succ_mul]
  obtain h | h := Nat.lt_or_gt_of_ne hne
  · exact .inl (Nat.mul_le_mul_right _ h)
  · exact .inr (Nat.mul_le_mul_right _ h)

/-- What is written to a block leaves the others as they were. -/
theorem block_patch (h : Sized s) (hj : j < s.req.blockNr) (hne : j ≠ k) {i : ℕ} {b : Bytes}
    (hi : i+b.length ≤ s.req.blockSize) :
    slice (patch s.umem (j*s.req.blockSize+i) b) (k*s.req.blockSize) s.req.blockSize =
      s.block k := by
  have hin := h.inside hj
  obtain hapart | hapart := blocks_apart s.req.blockSize hne
  · exact slice_patch_behind _ _ _ _ _ (by omega) (by omega)
  · exact slice_patch_before _ _ _ _ _ (by omega) (by omega)

theorem Sized.patched (h : Sized s) (hj : j < s.req.blockNr) {i : ℕ} {b : Bytes}
    (hi : i+b.length ≤ s.req.blockSize) :
    (patch s.umem (j*s.req.blockSize+i) b).length = s.req.blockNr*s.req.blockSize := by
  have hin := h.inside hj
  rw [length_patch _ _ _ (by omega), h.size]

theorem field_block {n i : ℕ} (hi : i+n ≤ s.req.blockSize) :
    field (s.block j) i n = load (slice s.umem (j*s.req.blockSize+i) n) := by
  rw [field, Mmap.block, slice_slice _ _ hi]

theorem statusOf_setStatus (h : Sized s) (hj : j < s.req.blockNr) (v : ℕ) :
    statusOf ((setStatus (j*s.req.blockSize) v s).block j) = v % 2^32 := by
  have hin := h.inside hj
  have hroom := h.room
  have hlen := ByteOrder.length_store 4 v
  have hat := slice_patch_at s.umem (j*s.req.blockSize+8) (ByteOrder.store 4 v) (by omega)
  rw [hlen] at hat
  have h12 : 8+4 ≤ s.req.blockSize := by omega
  rw [statusOf, field_block (s := setStatus (j*s.req.blockSize) v s) h12]
  change load (slice (patch s.umem (j*s.req.blockSize+8) _) (j*s.req.blockSize+8) 4) = _
  rw [hat, ByteOrder.load_store]
  rfl

/-- The status of the block that is written to stays. -/
theorem statusOf_write (h : Sized s) (hj : s.next < s.req.blockNr) {i : ℕ} {b : Bytes}
    (hi : i+b.length ≤ s.req.blockSize) (hbeside : i+b.length ≤ blockStatus ∨ numPkts ≤ i) :
    statusOf ((kernelWrite i b s).block s.next) = statusOf (s.block s.next) := by
  have hin := h.inside hj
  have hroom := h.room
  have h12 : 8+4 ≤ s.req.blockSize := by omega
  rw [statusOf, statusOf, field_block (s := kernelWrite i b s) h12, field_block h12]
  change load (slice (patch s.umem (s.next*s.req.blockSize+i) b) (s.next*s.req.blockSize+8) 4) =
    load (slice s.umem (s.next*s.req.blockSize+8) 4)
  congr 1
  obtain hbefore | hbehind := hbeside
  · change _ ≤ 8 at hbefore
    exact slice_patch_behind _ _ _ _ _ (by omega) (by omega)
  · change 12 ≤ i at hbehind
    exact slice_patch_before _ _ _ _ _ (by omega) (by omega)

end Blocks

structure Shows (s : Mmap) (r : SlotRing (List Bytes)) : Prop extends Sized s where
  head : r.head = s.next
  tail : s.bdPtr = r.tail*s.req.blockSize
  kernel : ∀ j < s.req.blockNr, r.slots j = none → statusOf (s.block j) % 2 = 0
  user : ∀ j < s.req.blockNr, ∀ frames, r.slots j = some frames →
    statusOf (s.block j) % 2 = 1 ∧ Holds (s.block j) frames

/-- The program is in the block, with some frames behind it and some ahead. -/
structure Reads (s : Mmap) (r : SlotRing (List Bytes)) (done rest : List Bytes) : Prop where
  full : r.slots r.tail = some (done ++ rest)
  chain : ∃ off, s.place = .packets (s.bdPtr+off) done.length ∧ Chain (s.block r.tail) off rest

def Within (s : Mmap) (r : SlotRing (List Bytes)) (done : List Bytes) : Prop :=
  s.place = .waiting ∧ done = [] ∨ ∃ rest, Reads s r done rest

/-- The frames that were seen are those of the blocks that were handed back and of the
one that is read. -/
structure Inv (i : DnsInsp) (s : Mmap) (bs : List (List Bytes)) : Prop where
  ring : ∃ r ts done, HandoverRing.Run s.req.blockNr r bs ts ∧ Shows s r ∧ Within s r done ∧
    s.seen = ts.flatten ++ done
  insp : s.insp = s.seen.foldl inspected i
  told : ∀ p ∈ s.seen, verdict p ≠ none

section Steps

variable {s : Mmap} {i : DnsInsp} {bs : List (List Bytes)}

theorem fresh_inv (h : Fresh i s) : Inv i s [] where
  ring := by
    refine ⟨HandoverRing.fresh, [], [], .fresh, ?_, ?_, h.seen⟩
    · refine ⟨⟨h.blocks, h.room, h.size⟩, h.next.symm, ?_, fun j hj _ => h.kernel j hj, ?_⟩
      · rw [h.bdPtr]
        exact (Nat.zero_mul _).symm
      · intro j hj frames hslot
        cases hslot
    · exact .inl ⟨h.place, rfl⟩
  insp := by rw [h.insp, h.seen, List.foldl_nil]
  told := by
    rw [h.seen]
    simp

/-- The kernel's block is empty if its status says so. -/
theorem Shows.empty {r : SlotRing (List Bytes)} (h : Shows s r) (hin : s.next < s.req.blockNr)
    (howned : statusOf (s.block s.next) % 2 = 0) : r.slots r.head = none := by
  rw [h.head]
  cases hslot : r.slots s.next with
  | none => rfl
  | some frames =>
    have huser := (h.user _ hin _ hslot).1
    omega

theorem Shows.full {r : SlotRing (List Bytes)} (h : Shows s r) (hin : r.tail < s.req.blockNr)
    (howned : statusOf (s.block r.tail) % 2 = 1) : ∃ frames, r.slots r.tail = some frames := by
  cases hslot : r.slots r.tail with
  | none =>
    have hkernel := h.kernel _ hin hslot
    omega
  | some frames => exact ⟨frames, rfl⟩

structure Touches (k : ℕ) (s t : Mmap) : Prop where
  req : t.req = s.req
  size : t.umem.length = s.umem.length
  others : ∀ j < s.req.blockNr, k ≠ j → t.block j = s.block j

theorem Touches.sized {t : Mmap} {k : ℕ} (h : Touches k s t) (hs : Sized s) : Sized t where
  blocks := by
    rw [h.req]
    exact hs.blocks
  room := by
    rw [h.req]
    exact hs.room
  size := by rw [h.req, h.size, hs.size]

theorem write_touches (hs : Sized s) (hin : s.next < s.req.blockNr) {k : ℕ} {b : Bytes}
    (hinside : k+b.length ≤ s.req.blockSize) : Touches s.next s (kernelWrite k b s) where
  req := rfl
  size := (hs.patched hin hinside).trans hs.size.symm
  others _ _ hne := block_patch hs hin hne hinside

theorem status_touches (hs : Sized s) {k : ℕ} (hk : k < s.req.blockNr) (status : ℕ) :
    Touches k s (setStatus (k*s.req.blockSize) status s) := by
  have hroom := hs.room
  have hlen := ByteOrder.length_store 4 status
  have hinside : 8+(ByteOrder.store 4 status).length ≤ s.req.blockSize := by omega
  exact ⟨rfl, (hs.patched hk hinside).trans hs.size.symm,
    fun _ _ hne => block_patch hs hk hne hinside⟩

/-- The block that is read is left alone by a step that touches another one. -/
theorem within_touches {t : Mmap} {r r' : SlotRing (List Bytes)} {done : List Bytes} {k : ℕ}
    (h : Within s r done) (htouch : Touches k s t) (hplace : t.place = s.place)
    (hbd : t.bdPtr = s.bdPtr) (htail : r'.tail = r.tail) (hin : r.tail < s.req.blockNr)
    (hslot : ∀ frames, r.slots r.tail = some frames →
      r'.slots r.tail = some frames ∧ k ≠ r.tail) : Within t r' done := by
  obtain ⟨hwait, hdone⟩ | ⟨rest, hfull, off, hat, hchain⟩ := h
  · exact .inl ⟨hplace.trans hwait, hdone⟩
  · obtain ⟨hfull', hne⟩ := hslot _ hfull
    refine .inr ⟨rest, by rw [htail, hfull'], off, by rw [hplace, hbd, hat], ?_⟩
    rw [htail, htouch.others _ hin hne]
    exact hchain

theorem write_inv (h : Inv i s bs) {k : ℕ} {b : Bytes}
    (howned : statusOf (s.block s.next) % 2 = 0) (hinside : k+b.length ≤ s.req.blockSize)
    (hbeside : k+b.length ≤ blockStatus ∨ numPkts ≤ k) : Inv i (kernelWrite k b s) bs where
  ring := by
    obtain ⟨r, ts, done, hrun, hshows, hwithin, hseen⟩ := h.ring
    obtain ⟨q, hq, -⟩ := hrun.queue hshows.blocks
    have hin : s.next < s.req.blockNr := hshows.head ▸ hq.head_lt
    have hempty := hshows.empty hin howned
    have htouch := write_touches hshows.toSized hin hinside
    refine ⟨r, ts, done, hrun, ⟨htouch.sized hshows.toSized, hshows.head, hshows.tail, ?_, ?_⟩, ?_,
      hseen⟩
    · intro j hj hslot
      by_cases hne : s.next = j
      · rw [← hne, statusOf_write hshows.toSized hin hinside hbeside]
        exact howned
      · rw [htouch.others j hj hne]
        exact hshows.kernel j hj hslot
    · intro j hj frames hslot
      have hne : s.next ≠ j := by
        rintro rfl
        rw [← hshows.head, hempty] at hslot
        cases hslot
      rw [htouch.others j hj hne]
      exact hshows.user j hj frames hslot
    · refine within_touches hwithin htouch rfl rfl rfl hq.tail fun frames hslot => ⟨hslot, ?_⟩
      rintro heq
      rw [← heq, ← hshows.head, hempty] at hslot
      cases hslot
  insp := h.insp
  told := h.told

theorem close_inv (h : Inv i s bs) {status : ℕ} {frames : List Bytes}
    (howned : statusOf (s.block s.next) % 2 = 0) (huser : status % 2 = 1)
    (hholds : Holds ((kernelClose status s).block s.next) frames) :
    Inv i (kernelClose status s) (bs ++ [frames]) where
  ring := by
    obtain ⟨r, ts, done, hrun, hshows, hwithin, hseen⟩ := h.ring
    obtain ⟨q, hq, -⟩ := hrun.queue hshows.blocks
    have hin : s.next < s.req.blockNr := hshows.head ▸ hq.head_lt
    have hempty := hshows.empty hin howned
    have htouch : Touches s.next s (kernelClose status s) := by
      obtain ⟨hreq, hsize, hothers⟩ := status_touches hshows.toSized hin status
      exact ⟨hreq, hsize, hothers⟩
    have hsized := htouch.sized hshows.toSized
    refine ⟨HandoverRing.put s.req.blockNr frames r, ts, done, .put frames hrun hempty, ?_, ?_,
      hseen⟩
    · refine ⟨hsized, ?_, hshows.tail, fun j hj hslot => ?_, fun j hj fs hslot => ?_⟩
      · change (r.head+1) % _ = (s.next+1) % _
        rw [hshows.head]
      · have hne : j ≠ r.head := by
          rintro rfl
          rw [HandoverRing.put_head] at hslot
          cases hslot
        rw [HandoverRing.put_other hne] at hslot
        rw [htouch.others j hj (hshows.head ▸ hne.symm)]
        exact hshows.kernel j hj hslot
      · by_cases hne : j = r.head
        · rw [hne, HandoverRing.put_head] at hslot
          cases hslot
          rw [hne, hshows.head]
          refine ⟨?_, hholds⟩
          change statusOf ((setStatus (s.next*s.req.blockSize) status s).block s.next) % 2 = 1
          rw [statusOf_setStatus hshows.toSized hin]
          omega
        · rw [HandoverRing.put_other hne] at hslot
          rw [htouch.others j hj (hshows.head ▸ Ne.symm hne)]
          exact hshows.user j hj fs hslot
    · refine within_touches hwithin htouch rfl rfl rfl hq.tail fun fs hslot => ?_
      have hne : r.tail ≠ r.head := by
        intro heq
        rw [heq, hempty] at hslot
        cases hslot
      exact ⟨(HandoverRing.put_other hne).trans hslot, hshows.head ▸ hne.symm⟩
  insp := h.insp
  told := h.told

variable {r : SlotRing (List Bytes)} {done rest frames : List Bytes}

/-- A read inside the block that the program is at. -/
theorem readInt_at (h : Shows s r) (hin : r.tail < s.req.blockNr) {n k : ℕ}
    (hk : k+n ≤ s.req.blockSize) :
    readInt n (s.bdPtr+k) s = .ok (field (s.block r.tail) k n) s := by
  rw [h.tail]
  exact readInt_block h.toSized hin hk

/-- A step of the program that hands the frames `ps` to the inspector. -/
structure Went (s t : Mmap) (r : SlotRing (List Bytes)) (ps : List Bytes) : Prop where
  step : userStep s = .ok () t
  shows : Shows t r
  req : t.req = s.req
  seen : t.seen = s.seen ++ ps
  insp : t.insp = ps.foldl inspected s.insp

theorem wait_run (h : Shows s r) (hin : r.tail < s.req.blockNr) (hplace : s.place = .waiting)
    (hslot : r.slots r.tail = none) : userStep s = .ok () s := by
  have hroom := h.room
  have hstatus := readInt_at h hin (show 8+4 ≤ s.req.blockSize by omega)
  have heven := h.kernel _ hin hslot
  rw [userStep, bind_of_ok (get_run s), hplace]
  refine (bind_of_ok hstatus _).trans ?_
  rw [when_neg]
  · rfl
  · change ¬ statusOf (s.block r.tail) % 2 = 1
    omega

/-- The memory shows the same ring while the program is in the block. -/
theorem Shows.same {t : Mmap} (h : Shows s r) (hreq : t.req = s.req) (hmem : t.umem = s.umem)
    (hbd : t.bdPtr = s.bdPtr) (hnext : t.next = s.next) : Shows t r := by
  have hblock (j : ℕ) : t.block j = s.block j := by rw [Mmap.block, Mmap.block, hmem, hreq]
  refine ⟨⟨?_, ?_, ?_⟩, ?_, ?_, ?_, ?_⟩
  · rw [hreq]
    exact h.blocks
  · rw [hreq]
    exact h.room
  · rw [hreq, hmem]
    exact h.size
  · rw [hnext]
    exact h.head
  · rw [hbd, hreq]
    exact h.tail
  · intro j hj hslot
    rw [hblock]
    exact h.kernel j (hreq ▸ hj) hslot
  · intro j hj frames hslot
    rw [hblock]
    exact h.user j (hreq ▸ hj) frames hslot

/-- The program goes into a block that was handed over. -/
theorem open_run (h : Shows s r) (hin : r.tail < s.req.blockNr) (hplace : s.place = .waiting)
    (hslot : r.slots r.tail = some frames) : ∃ t, Went s t r [] ∧ Reads t r [] frames := by
  have hroom := h.room
  have hstatus := readInt_at h hin (show 8+4 ≤ s.req.blockSize by omega)
  have hfirst := readInt_at h hin (show 16+4 ≤ s.req.blockSize by omega)
  obtain ⟨hodd, hholds⟩ := h.user _ hin _ hslot
  have hrun : userStep s = .ok ()
      { s with place := .packets (s.bdPtr+field (s.block r.tail) offsetToFirstPkt 4) 0 } := by
    rw [userStep, bind_of_ok (get_run s), hplace]
    refine (bind_of_ok hstatus _).trans ?_
    refine (congrFun (when_pos (show field (s.block r.tail) 8 4 % 2 = 1 from hodd) _) s).trans ?_
    exact bind_of_ok hfirst _
  exact ⟨_, ⟨hrun, h.same rfl rfl rfl rfl, rfl, (List.append_nil _).symm, rfl⟩, hslot, _, rfl,
    hholds.chain⟩

/-- The integers do not depend on what was inspected. -/
theorem readInt_same {t : Mmap} (hmem : t.umem = s.umem) {n k v : ℕ}
    (h : readInt n k s = .ok v s) : readInt n k t = .ok v t := by
  unfold readInt at h ⊢
  rw [hmem]
  split_ifs at h ⊢ with hin
  cases h
  rfl

/-- The state behind a frame that was inspected. -/
def Mmap.inspected (s : Mmap) (p : Bytes) : Mmap :=
  { s with insp := CaptureReplay.inspected s.insp p, seen := s.seen ++ [p] }

theorem inspProcess_run {k n : ℕ} (hin : k+n ≤ s.umem.length) :
    (verdict (slice s.umem k n) ≠ none ∧
      inspProcess k n s = .ok () (s.inspected (slice s.umem k n))) ∨
      (verdict (slice s.umem k n) = none ∧ ∃ c, inspProcess k n s = .fault (.frame c)) := by
  obtain ⟨hv, hrun⟩ | ⟨hv, c, hrun⟩ := inspectAt_run hin s.insp
  · refine .inl ⟨hv, ?_⟩
    rw [inspProcess, hrun]
    rfl
  · refine .inr ⟨hv, c, ?_⟩
    rw [inspProcess, hrun]

/-- The head of the loop over the packets. -/
theorem packets_run (h : Shows s r) (hin : r.tail < s.req.blockNr) {hdr : ℕ}
    (hplace : s.place = .packets hdr done.length)
    (hslot : r.slots r.tail = some (done ++ rest)) :
    userStep s = if rest = [] then .ok () (releaseBlock s) else packetStep hdr done.length s := by
  have hroom := h.room
  obtain ⟨-, hcount, -⟩ := h.user _ hin _ hslot
  have hnum := readInt_at h hin (show 12+4 ≤ s.req.blockSize by omega)
  change field (s.block r.tail) 12 4 = _ at hcount
  rw [hcount, List.length_append] at hnum
  rw [userStep, bind_of_ok (get_run s), hplace]
  refine (bind_of_ok hnum _).trans ?_
  by_cases hrest : rest = []
  · rw [if_pos hrest, if_neg (by rw [hrest, List.length_nil]; omega)]
    rfl
  · have hpos := List.length_pos_of_ne_nil hrest
    rw [if_neg hrest, if_pos (by omega)]

/-- A round of the loop on a frame that lies in the block. -/
theorem packet_run {p : Bytes} (h : Shows s r) (hin : r.tail < s.req.blockNr)
    (hreads : Reads s r done (p :: rest)) :
    (verdict p ≠ none ∧ ∃ t, Went s t r [p] ∧ Reads t r (done ++ [p]) rest) ∨
      (verdict p = none ∧ ∃ c, userStep s = .fault (.frame c)) := by
  obtain ⟨hfull, off, hplace, hhdr, hpkt, hp, hnext⟩ := hreads
  have hblock := h.inside hin
  rw [h.length_block hin] at hhdr hpkt
  have hmac := readInt_at h hin (show off+24+2 ≤ s.req.blockSize by omega)
  have hlen := readInt_at h hin (show off+16+4 ≤ s.req.blockSize by omega)
  have hoff := readInt_at h hin (show off+0+4 ≤ s.req.blockSize by omega)
  rw [← Nat.add_assoc] at hmac hlen hoff
  have hframe : slice s.umem (s.bdPtr+off+field (s.block r.tail) (off+24) 2)
      (field (s.block r.tail) (off+16) 4) = p := by
    rw [h.tail, Nat.add_assoc, ← slice_slice _ _ hpkt]
    exact hp
  have hinside : s.bdPtr+off+field (s.block r.tail) (off+24) 2+field (s.block r.tail) (off+16) 4 ≤
      s.umem.length := by
    change off+field (s.block r.tail) (off+24) 2+field (s.block r.tail) (off+16) 4 ≤ _ at hpkt
    rw [h.tail]
    omega
  have hhead := packets_run h hin hplace hfull
  rw [if_neg (List.cons_ne_nil _ _), packetStep, bind_of_ok hmac, bind_of_ok hlen] at hhead
  obtain ⟨hv, hinsp⟩ | ⟨hv, c, hinsp⟩ := inspProcess_run hinside
  · rw [hframe] at hv hinsp
    have hoff' := readInt_same (s := s) (t := s.inspected p) rfl hoff
    rw [bind_of_ok hinsp, bind_of_ok hoff', modify_run, Nat.add_assoc] at hhead
    refine .inl ⟨hv, _, ⟨hhead, h.same rfl rfl rfl rfl, rfl, rfl, rfl⟩, ?_, _, ?_, hnext⟩
    · rw [hfull, List.append_assoc, List.singleton_append]
    · rw [List.length_append, List.length_singleton]
      rfl
  · rw [hframe] at hv
    exact .inr ⟨hv, c, hhead.trans (bind_of_fault hinsp _)⟩

/-- The block that was read goes back to the kernel, and the program to the next one. -/
theorem release_shows (h : Shows s r) (hq : r.tail < s.req.blockNr) :
    Shows (releaseBlock s) (HandoverRing.take s.req.blockNr r) := by
  have htouch : Touches r.tail s (releaseBlock s) := by
    obtain ⟨hreq, hsize, hothers⟩ := status_touches h.toSized hq 0
    rw [← h.tail] at hreq hsize hothers
    exact ⟨hreq, hsize, hothers⟩
  refine ⟨htouch.sized h.toSized, h.head, ?_, fun j hj hslot => ?_, fun j hj frames hslot => ?_⟩
  · have hlen : (setStatus s.bdPtr 0 s).umem.length = s.req.blockNr*s.req.blockSize :=
      htouch.size.trans h.size
    change (if (setStatus s.bdPtr 0 s).umem.length ≤ s.bdPtr+s.req.blockSize then 0
      else s.bdPtr+s.req.blockSize) = (r.tail+1) % s.req.blockNr*s.req.blockSize
    have hnext : s.bdPtr+s.req.blockSize = (r.tail+1)*s.req.blockSize := by
      rw [h.tail, Nat.succ_mul]
    rw [hlen, hnext]
    by_cases hlast : r.tail+1 = s.req.blockNr
    · rw [hlast, if_pos (Nat.le_refl _), Nat.mod_self, Nat.zero_mul]
    · have hless : r.tail+1 < s.req.blockNr := by omega
      have hpos : 0 < s.req.blockSize := Nat.zero_lt_of_lt h.room
      rw [Nat.mod_eq_of_lt hless, if_neg (Nat.not_le.mpr (Nat.mul_lt_mul_of_pos_right hless hpos))]
  · by_cases hne : j = r.tail
    · have hstatus := statusOf_setStatus h.toSized hq 0
      rw [← h.tail] at hstatus
      change statusOf ((setStatus s.bdPtr 0 s).block j) % 2 = 0
      rw [hne, hstatus]
      rfl
    · rw [HandoverRing.take_other hne] at hslot
      rw [htouch.others j hj (Ne.symm hne)]
      exact h.kernel j hj hslot
  · have hne : j ≠ r.tail := by
      rintro rfl
      rw [HandoverRing.take_tail] at hslot
      cases hslot
    rw [HandoverRing.take_other hne] at hslot
    rw [htouch.others j hj hne.symm]
    exact h.user j hj frames hslot

theorem release_run (h : Shows s r) (hin : r.tail < s.req.blockNr) (hreads : Reads s r done []) :
    ∃ t, Went s t (HandoverRing.take s.req.blockNr r) [] ∧ t.place = .waiting := by
  obtain ⟨hfull, off, hplace, -⟩ := hreads
  have hhead := packets_run h hin hplace hfull
  rw [if_pos rfl] at hhead
  exact ⟨_, ⟨hhead, release_shows h hin, rfl, (List.append_nil _).symm, rfl⟩, rfl⟩

/-- What a step of the program adds is added to what was seen. -/
theorem Inv.went {t : Mmap} {r' : SlotRing (List Bytes)} {ts' : List (List Bytes)}
    {done' ps : List Bytes} (h : Inv i s bs) (hwent : Went s t r' ps)
    (hrun : HandoverRing.Run s.req.blockNr r' bs ts') (hwithin : Within t r' done')
    (hseen : s.seen ++ ps = ts'.flatten ++ done') (hv : ∀ p ∈ ps, verdict p ≠ none) :
    Inv i t bs where
  ring := by
    refine ⟨r', ts', done', ?_, hwent.shows, hwithin, hwent.seen.trans hseen⟩
    rw [hwent.req]
    exact hrun
  insp := by rw [hwent.insp, hwent.seen, List.foldl_append, h.insp]
  told := by
    rw [hwent.seen]
    exact fun p hp => (List.mem_append.mp hp).elim (h.told p) (hv p)

theorem user_inv {t : Mmap} (h : Inv i s bs) (hstep : userStep s = .ok () t) : Inv i t bs := by
  obtain ⟨r, ts, done, hrun, hshows, hwithin, hseen⟩ := h.ring
  obtain ⟨q, hq, -⟩ := hrun.queue hshows.blocks
  have hsame {u : Mmap} {r' : SlotRing (List Bytes)} {ps : List Bytes} (hwent : Went s u r' ps) :
      u = t := by
    have heq := hwent.step.symm.trans hstep
    cases heq
    rfl
  have hnil : s.seen ++ [] = ts.flatten ++ done := by rw [List.append_nil, hseen]
  obtain ⟨hplace, rfl⟩ | ⟨rest, hreads⟩ := hwithin
  · cases hslot : r.slots r.tail with
    | none =>
      rw [wait_run hshows hq.tail hplace hslot] at hstep
      cases hstep
      exact h
    | some frames =>
      obtain ⟨u, hwent, hreads⟩ := open_run hshows hq.tail hplace hslot
      obtain rfl := hsame hwent
      exact h.went hwent hrun (.inr ⟨frames, hreads⟩) hnil (by simp)
  · cases rest with
    | nil =>
      obtain ⟨u, hwent, hplace⟩ := release_run hshows hq.tail hreads
      obtain rfl := hsame hwent
      have hfull := hreads.full
      rw [List.append_nil] at hfull
      refine h.went hwent (hrun.take hfull) (.inl ⟨hplace, rfl⟩) ?_ (by simp)
      rw [hnil, List.append_nil, List.flatten_append, List.flatten_singleton]
    | cons p rest =>
      obtain ⟨hv, u, hwent, hreads⟩ | ⟨-, c, hfault⟩ := packet_run hshows hq.tail hreads
      · obtain rfl := hsame hwent
        refine h.went hwent hrun (.inr ⟨rest, hreads⟩) ?_ (by simpa using hv)
        rw [hseen, List.append_assoc]
      · rw [hfault] at hstep
        cases hstep

theorem ran_inv (h : Ran i s bs) : Inv i s bs := by
  induction h with
  | fresh h => exact fresh_inv h
  | user _ step ih => exact user_inv ih step
  | write _ owned inside beside ih => exact write_inv ih owned inside beside
  | close _ owned user holds ih => exact close_inv ih owned user holds

def UserSteps : Mmap → Mmap → Prop := Relation.ReflTransGen fun s t => userStep s = .ok () t

theorem UserSteps.ran {t : Mmap} (h : UserSteps s t) (hran : Ran i s bs) : Ran i t bs := by
  induction h with
  | refl => exact hran
  | tail _ step ih => exact .user ih step

/-- The frames of a block are seen one after another, and the block is handed back. -/
theorem packets_drain (h : Shows s r) (hin : r.tail < s.req.blockNr) (hreads : Reads s r done rest)
    (hv : ∀ p ∈ rest, verdict p ≠ none) : ∃ t, UserSteps s t ∧
      Shows t (HandoverRing.take s.req.blockNr r) ∧ t.req = s.req ∧ t.place = .waiting ∧
      t.seen = s.seen ++ rest := by
  induction rest generalizing s done with
  | nil =>
    obtain ⟨t, hwent, hplace⟩ := release_run h hin hreads
    exact ⟨t, .single hwent.step, hwent.shows, hwent.req, hplace, hwent.seen⟩
  | cons p rest ih =>
    obtain ⟨-, u, hwent, hreads'⟩ | ⟨hnone, -⟩ := packet_run h hin hreads
    · obtain ⟨t, hsteps, hshows, hreq, hplace, hseen⟩ := ih hwent.shows (hwent.req ▸ hin) hreads'
        fun x hx => hv x (List.mem_cons_of_mem _ hx)
      rw [hwent.req] at hshows hreq
      refine ⟨t, .head hwent.step hsteps, hshows, hreq, hplace, ?_⟩
      rw [hseen, hwent.seen, List.append_assoc, List.singleton_append]
    · exact absurd hnone (hv p List.mem_cons_self)

/-- The blocks that were handed over are read one after another. -/
theorem blocks_drain {q : List (List Bytes)} (h : Shows s r) (hq : Queue s.req.blockNr r q)
    (hplace : s.place = .waiting) (hv : ∀ p ∈ q.flatten, verdict p ≠ none) : ∃ t r',
      UserSteps s t ∧ Shows t r' ∧ t.req = s.req ∧ Queue s.req.blockNr r' [] ∧
      t.place = .waiting ∧ t.seen = s.seen ++ q.flatten := by
  induction q generalizing s r with
  | nil => exact ⟨s, r, .refl, h, rfl, hq, hplace, (List.append_nil _).symm⟩
  | cons frames q ih =>
    obtain ⟨u, hwent, hreads⟩ := open_run h hq.tail hplace hq.at_tail
    have hfirst : ∀ p ∈ frames, verdict p ≠ none := fun p hp => hv p (by
      rw [List.flatten_cons]
      exact List.mem_append_left _ hp)
    obtain ⟨v, hsteps, hshows, hreq, hwait, hseen⟩ := packets_drain hwent.shows
      (hwent.req ▸ hq.tail) hreads hfirst
    rw [hwent.req] at hshows hreq
    obtain ⟨t, r', hsteps', hshows', hreq', hq', hwait', hseen'⟩ := ih hshows (hreq ▸ hq.take) hwait
      fun p hp => hv p (by
        rw [List.flatten_cons]
        exact List.mem_append_right _ hp)
    rw [hreq] at hreq' hq'
    refine ⟨t, r', .head hwent.step (hsteps.trans hsteps'), hshows', hreq', hq', hwait', ?_⟩
    rw [hseen', hseen, hwent.seen, List.append_nil, List.flatten_cons, List.append_assoc]

/-- What is behind the frames that were seen, and what the next step does with it. -/
theorem within_pending {q : List (List Bytes)} (h : Shows s r) (hq : Queue s.req.blockNr r q)
    (hwithin : Within s r done) : ∃ pending, q.flatten = done ++ pending ∧
      ((∃ t, userStep s = .ok () t) ∨ ∃ p c, pending.head? = some p ∧ verdict p = none ∧
        userStep s = .fault (.frame c)) := by
  have htail := hq.at_tail
  obtain ⟨hplace, rfl⟩ | ⟨rest, hreads⟩ := hwithin
  · refine ⟨q.flatten, rfl, .inl ?_⟩
    cases hslot : r.slots r.tail with
    | none => exact ⟨s, wait_run h hq.tail hplace hslot⟩
    | some frames =>
      obtain ⟨t, hwent, -⟩ := open_run h hq.tail hplace hslot
      exact ⟨t, hwent.step⟩
  · rw [hreads.full] at htail
    obtain ⟨q', rfl⟩ := List.head?_eq_some_iff.mp htail.symm
    refine ⟨rest ++ q'.flatten, by rw [List.flatten_cons, List.append_assoc], ?_⟩
    cases rest with
    | nil =>
      obtain ⟨t, hwent, -⟩ := release_run h hq.tail hreads
      exact .inl ⟨t, hwent.step⟩
    | cons p rest =>
      obtain ⟨-, t, hwent, -⟩ | ⟨hv, c, hfault⟩ := packet_run h hq.tail hreads
      · exact .inl ⟨t, hwent.step⟩
      · exact .inr ⟨p, c, rfl, hv, hfault⟩

/-- In every run the frames reach the inspector in the order in which the kernel
delivered them, none of them twice and none left out. The program only reads
inside the memory of the ring, and a step of it is undefined only if the
inspector is on the next frame. The kernel finds its block taken only when
every block holds frames that were not handed back. -/
theorem mmap_in_order (h : Ran i s bs) : ∃ read waiting pending, bs = read ++ waiting ∧
    bs.flatten = s.seen ++ pending ∧ read.flatten <+: s.seen ∧
    waiting.length ≤ s.req.blockNr ∧
    (statusOf (s.block s.next) % 2 = 0 ↔ waiting.length < s.req.blockNr) ∧
    s.insp = tallied i s.seen ∧
    ((∃ t, userStep s = .ok () t) ∨ ∃ p c, pending.head? = some p ∧ verdict p = none ∧
      userStep s = .fault (.frame c)) := by
  have hinv := ran_inv h
  obtain ⟨r, ts, done, hrun, hshows, hwithin, hseen⟩ := hinv.ring
  obtain ⟨q, hq, hbs⟩ := hrun.queue hshows.blocks
  obtain ⟨pending, hflat, hnext⟩ := within_pending hshows hq hwithin
  have hin : s.next < s.req.blockNr := hshows.head ▸ hq.head_lt
  have hroom : statusOf (s.block s.next) % 2 = 0 ↔ q.length < s.req.blockNr := by
    rw [← hq.room_iff]
    refine ⟨hshows.empty hin, fun hempty => ?_⟩
    rw [hshows.head] at hempty
    exact hshows.kernel _ hin hempty
  have htally := hinv.insp.trans (inspected_tally hinv.told i)
  refine ⟨ts, q, pending, hbs, ?_, ?_, hq.fits, hroom, htally, hnext⟩
  · rw [hbs, List.flatten_append, hflat, hseen, List.append_assoc]
  · rw [hseen]
    exact List.prefix_append _ _

/-- Two blocks of memory, one filled with two frames and the other with one. -/
def twoBlocks : Mmap where
  req := ⟨128, 2⟩
  umem := List.replicate 256 0
  bdPtr := 0
  place := .waiting
  insp := ⟨0, 0, 0, 0, []⟩
  seen := []
  next := 0

def twoFrames : Bytes := [2, 0, 0, 0, 24, 0, 0, 0, 0, 0, 0, 0, 36, 0, 0, 0] ++
  List.replicate 12 0 ++ [5, 0, 0, 0, 0, 0, 0, 0, 28, 0, 0, 0, 1, 2, 3, 4, 5] ++
  List.replicate 19 0 ++ [3, 0, 0, 0, 0, 0, 0, 0, 28, 0, 0, 0, 6, 7, 8]

def oneFrame : Bytes := [1, 0, 0, 0, 24, 0, 0, 0] ++ List.replicate 20 0 ++
  [1, 0, 0, 0, 0, 0, 0, 0, 28, 0, 0, 0, 9]

def bothFilled : Mmap :=
  kernelClose 1 (kernelWrite 12 oneFrame (kernelClose 1 (kernelWrite 12 twoFrames twoBlocks)))

theorem bothFilled_ran : Ran ⟨0, 0, 0, 0, []⟩ bothFilled
    [[[1, 2, 3, 4, 5], [6, 7, 8]], [[9]]] := by
  have hfresh : Fresh ⟨0, 0, 0, 0, []⟩ twoBlocks := by
    refine ⟨by decide, by decide, by decide +kernel, ?_, rfl, rfl, rfl, rfl, rfl⟩
    change ∀ j < 2, _
    decide +kernel
  have hfirst : Ran ⟨0, 0, 0, 0, []⟩ (kernelClose 1 (kernelWrite 12 twoFrames twoBlocks))
      [[[1, 2, 3, 4, 5], [6, 7, 8]]] := by
    refine .close (.write (.fresh hfresh) ?_ ?_ ?_) ?_ rfl ⟨?_, ?_, ?_, ?_, ?_, ?_, ?_, trivial⟩
    · decide +kernel
    · decide +kernel
    · exact .inr (Nat.le_refl _)
    · decide +kernel
    · decide +kernel
    · decide +kernel
    · decide +kernel
    · decide +kernel
    · decide +kernel
    · decide +kernel
    · decide +kernel
  refine .close (.write hfirst ?_ ?_ ?_) ?_ rfl ⟨?_, ?_, ?_, ?_, trivial⟩
  · decide +kernel
  · decide +kernel
  · exact .inr (Nat.le_refl _)
  · decide +kernel
  · decide +kernel
  · decide +kernel
  · decide +kernel
  · decide +kernel

def stepped (s : Mmap) : Mmap :=
  match userStep s with
  | .ok _ t => t
  | _ => s

theorem ran_stepped (h : Ran i s bs) (hok : (userStep s).result.isSome = true) :
    Ran i (stepped s) bs := by
  unfold stepped
  cases hrun : userStep s with
  | ok u t => exact h.user hrun
  | exit e t =>
    rw [hrun] at hok
    cases hok
  | fault c =>
    rw [hrun] at hok
    cases hok

def midway : Mmap := stepped (stepped bothFilled)

theorem midway_in_order : midway.seen = [[1, 2, 3, 4, 5]] ∧
    [[1, 2, 3, 4, 5], [6, 7, 8], [9]] = midway.seen ++ [[6, 7, 8], [9]] ∧
    ¬ statusOf (midway.block midway.next) % 2 = 0 ∧ ∃ t, userStep midway = .ok () t := by
  have hran : Ran ⟨0, 0, 0, 0, []⟩ midway [[[1, 2, 3, 4, 5], [6, 7, 8]], [[9]]] :=
    ran_stepped (ran_stepped bothFilled_ran (by decide +kernel)) (by decide +kernel)
  have hseen : midway.seen = [[1, 2, 3, 4, 5]] := by decide +kernel
  have hblocks : midway.req.blockNr = 2 := by decide +kernel
  obtain ⟨read, waiting, pending, hbs, hflat, hread, -, hroom, -, hnext⟩ := mmap_in_order hran
  rw [hseen] at hflat hread
  rw [hblocks] at hroom
  obtain rfl : pending = [[6, 7, 8], [9]] := (List.cons.inj hflat).2.symm
  refine ⟨hseen, hseen ▸ hflat, fun hempty => ?_, ?_⟩
  · have hfew := hroom.mp hempty
    cases read with
    | nil =>
      obtain rfl : [[[1, 2, 3, 4, 5], [6, 7, 8]], [[9]]] = waiting := hbs
      exact absurd hfew (by decide)
    | cons first rest =>
      obtain rfl := (List.cons.inj hbs).1
      have hlen := hread.length_le
      rw [List.flatten_cons, List.length_append] at hlen
      change 2+rest.flatten.length ≤ 1 at hlen
      omega
  · obtain h | ⟨p, c, hhead, hv, -⟩ := hnext
    · exact h
    · obtain rfl : [6, 7, 8] = p := Option.some.inj hhead
      have hsome : verdict [6, 7, 8] = some 0 := by decide +kernel
      rw [hsome] at hv
      cases hv

/-- From every state that is reached the program comes to the end of all frames
that were delivered, unless one is undefined, and then the kernel owns every block. -/
theorem mmap_drains (h : Ran i s bs) (hv : ∀ p ∈ bs.flatten, verdict p ≠ none) : ∃ t,
    UserSteps s t ∧ t.seen = bs.flatten ∧ t.insp = tallied i bs.flatten ∧
      ∀ j < t.req.blockNr, statusOf (t.block j) % 2 = 0 := by
  obtain ⟨r, ts, done, hrun, hshows, hwithin, hseen⟩ := (ran_inv h).ring
  obtain ⟨q, hq, hbs⟩ := hrun.queue hshows.blocks
  have hall {p : Bytes} (hp : p ∈ q.flatten) : verdict p ≠ none := hv p (by
    rw [hbs, List.flatten_append]
    exact List.mem_append_right _ hp)
  have hend : ∃ t r', UserSteps s t ∧ Shows t r' ∧ t.req = s.req ∧ Queue s.req.blockNr r' [] ∧
      t.seen = bs.flatten := by
    rw [hbs, List.flatten_append]
    obtain ⟨hplace, rfl⟩ | ⟨rest, hreads⟩ := hwithin
    · obtain ⟨t, r', hsteps, hshows', hreq, hq', -, hseen'⟩ := blocks_drain hshows hq hplace
        fun p hp => hall hp
      exact ⟨t, r', hsteps, hshows', hreq, hq', by rw [hseen', hseen, List.append_nil]⟩
    · have htail := hq.at_tail
      rw [hreads.full] at htail
      obtain ⟨q', rfl⟩ := List.head?_eq_some_iff.mp htail.symm
      obtain ⟨u, hsteps, hshows', hreq, hplace, hseen'⟩ := packets_drain hshows hq.tail hreads
        fun p hp => hall (by
          rw [List.flatten_cons]
          exact List.mem_append_left _ (List.mem_append_right _ hp))
      obtain ⟨t, r', hsteps', hshows'', hreq', hq', -, hseen''⟩ := blocks_drain hshows'
        (by rw [hreq]; exact hq.take) hplace fun p hp => hall (by
          rw [List.flatten_cons]
          exact List.mem_append_right _ hp)
      rw [hreq] at hreq' hq'
      refine ⟨t, r', hsteps.trans hsteps', hshows'', hreq', hq', ?_⟩
      rw [hseen'', hseen', hseen, List.flatten_cons]
      simp only [List.append_assoc]
  obtain ⟨t, r', hsteps, hshows', hreq, hq', hseen'⟩ := hend
  have hinv := ran_inv (hsteps.ran h)
  refine ⟨t, hsteps, hseen', ?_, fun j hj => hshows'.kernel j hj (hq'.none_left (hreq ▸ hj))⟩
  rw [hinv.insp, hseen', ← inspected_tally hv i]

theorem bothFilled_drains : ∃ t, UserSteps bothFilled t ∧
    t.seen = [[1, 2, 3, 4, 5], [6, 7, 8], [9]] ∧ t.insp.rcvPkts = 3 := by
  have hv : ∀ p ∈ [[[1, 2, 3, 4, 5], [6, 7, 8]], [[9]]].flatten, verdict p ≠ none := by
    decide +kernel
  obtain ⟨t, hsteps, hseen, hinsp, -⟩ := mmap_drains bothFilled_ran hv
  exact ⟨t, hsteps, hseen, (congrArg DnsInsp.rcvPkts hinsp).trans (by decide +kernel)⟩

end Steps

end DnsPkt.MmapCapture
