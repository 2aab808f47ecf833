import DnsPkt.MessageBuild
import DnsPkt.MessageRun
import Mathlib.Data.List.Forall2

/-!
# Records in a message and on the wire

A view of a record is what its type gives a meaning to: the owner name, the
fixed fields and the typed RDATA, with strings in place of pointers. A slot of
a message shows a view through the string store, a position of a packet holds
one. The two are compared string by string.
-/

set_option autoImplicit false

namespace DnsPkt.RecordView
open DnsPkt.Octets DnsPkt.Protocol DnsPkt.MessageStore DnsPkt.MessageSlots DnsPkt.MessageBuild
open DnsPkt.RecordDecoder DnsPkt.RecordRun DnsPkt.RecordEntry DnsPkt.MessageRun

inductive RdView where
  | a (addr : Vector UInt8 4)
  | name (name : Bytes)
  | soa (mname rname : Bytes) (serial refresh retry expire minTtl : UInt32)
  | hinfo (cpu os : Bytes)
  | mx (pref : UInt16) (name : Bytes)
  | txt (strs : List Bytes)
  | aaaa (addr : Vector UInt8 16)
  | srv (prior weight port : UInt16) (name : Bytes)
  | opt (udpSize : UInt16) (extRcode ednsVer : UInt8) (doBit : Bool) (zBits : BitVec 15)
  | none

structure RrView where
  name : Bytes
  rrType : UInt16
  rrClass : UInt16
  ttl : UInt32
  rdata : RdView

def RdView.strs : RdView → List Bytes
  | .name n => [n]
  | .soa m r .. => [m, r]
  | .hinfo cpu os => [cpu, os]
  | .mx _ n => [n]
  | .txt strs => strs
  | .srv _ _ _ n => [n]
  | _ => []

/-- The view has the form of the type and the numbers of the slot. -/
def RdFields (k : RrKind) (r : Rdata Ptr) (v : RdView) : Prop :=
  match k with
  | .a => v = .a r.a
  | .ns | .cname | .ptr => ∃ n, v = .name n
  | .soa => ∃ m n, v = .soa m n r.soaSerial r.soaRefresh r.soaRetry r.soaExpire r.soaMinTtl
  | .hinfo => ∃ cpu os, v = .hinfo cpu os
  | .mx => ∃ n, v = .mx r.mxPref n
  | .txt => ∃ strs, v = .txt strs
  | .aaaa => v = .aaaa r.aaaa
  | .srv => ∃ n, v = .srv r.srvPrior r.srvWeight r.srvPort n
  | .opt => v = .opt r.optUdpSize r.optExtRcode r.optEdnsVer r.optDoBit r.optZBits
  | .any | .other => v = .none

def rdPtrs (rrType : UInt16) (r : Rdata Ptr) : List Ptr := rdNames rrType r ++ rdStrs rrType r

def Points (st : NameStore) (p : Ptr) (str : Bytes) : Prop := st.str p = some str

structure RrShows (st : NameStore) (r : DnsRr Ptr) (v : RrView) : Prop where
  name : Points st r.name v.name
  rrType : r.rrType = v.rrType
  rrClass : r.rrClass = v.rrClass
  ttl : r.ttl = v.ttl
  fields : RdFields (rrKind r.rrType) r.rdata v.rdata
  strs : List.Forall₂ (Points st) (rdPtrs r.rrType r.rdata) v.rdata.strs

def StrsAt (pkt : Bytes) (fin : ℕ) : ℕ → List Bytes → Prop
  | off, [] => off = fin
  | off, str :: rest => strAt pkt fin off = some str ∧ StrsAt pkt fin (off+1+str.length) rest

def soaView (mname rname b : Bytes) : RdView :=
  .soa mname rname (decU32 (slice b 0 4)) (decU32 (slice b 4 4)) (decU32 (slice b 8 4))
    (decU32 (slice b 12 4)) (decU32 (slice b 16 4))

def srvView (b name : Bytes) : RdView :=
  .srv (decU16 (slice b 0 2)) (decU16 (slice b 2 2)) (decU16 (slice b 4 2)) name

def optView (h : RrHdr) : RdView :=
  .opt h.rrClass (optExtRcode h.ttl) (optVersion h.ttl) (optDoBit h.ttl) (optZBits h.ttl)

def RdataAt (pkt : Bytes) (h : RrHdr) (start fin : ℕ) (v : RdView) : Prop :=
  match rrKind h.rrType with
  | .a => fin = start+4 ∧ v = .a (toVector 4 (slice pkt start 4))
  | .ns | .cname | .ptr => ∃ text, NameAt pkt start text fin ∧ v = .name (shown text)
  | .soa => ∃ t1 e1 t2 e2, NameAt pkt start t1 e1 ∧ NameAt pkt e1 t2 e2 ∧ fin = e2+20 ∧
      v = soaView (shown t1) (shown t2) (slice pkt e2 20)
  | .hinfo => ∃ cpu os, StrsAt pkt fin start [cpu, os] ∧ v = .hinfo cpu os
  | .mx => ∃ text, NameAt pkt (start+2) text fin ∧
      v = .mx (decU16 (slice pkt start 2)) (shown text)
  | .txt => ∃ strs, StrsAt pkt fin start strs ∧ v = .txt strs
  | .aaaa => fin = start+16 ∧ v = .aaaa (toVector 16 (slice pkt start 16))
  | .srv => ∃ text, NameAt pkt (start+6) text fin ∧ v = srvView (slice pkt start 6) (shown text)
  | .opt => v = optView h
  | .any | .other => v = .none

/-- The class of an `OPT` record is the UDP size, so the record has none. -/
def wireView (text : Bytes) (h : RrHdr) (rd : RdView) : RrView :=
  ⟨shown text, h.rrType, if rrKind h.rrType = .opt then 0 else h.rrClass, h.ttl, rd⟩

def RecordAt (pkt : Bytes) (off : ℕ) (v : RrView) (fin : ℕ) : Prop :=
  ∃ text e rd, NameAt pkt off text e ∧ e+10 ≤ pkt.length ∧ fin = rdataEnd pkt e ∧
    fin ≤ pkt.length ∧ RdataAt pkt (hdrAt pkt e) (e+10) fin rd ∧
    v = wireView text (hdrAt pkt e) rd

def RecordsAt (pkt : Bytes) : ℕ → List RrView → ℕ → Prop
  | off, [], fin => fin = off
  | off, v :: rest, fin => ∃ mid, RecordAt pkt off v mid ∧ RecordsAt pkt mid rest fin

def QuestionAt (pkt : Bytes) (off : ℕ) (q : DnsQd Bytes) (fin : ℕ) : Prop :=
  ∃ e, NameAt pkt off q.qname e ∧ fin = e+4 ∧ fin ≤ pkt.length ∧ (q.qtype, q.qclass) = qdAt pkt e

def QuestionsAt (pkt : Bytes) : ℕ → List (DnsQd Bytes) → ℕ → Prop
  | off, [], fin => fin = off
  | off, q :: rest, fin => ∃ mid, QuestionAt pkt off q mid ∧ QuestionsAt pkt mid rest fin

theorem strsAt_unique {pkt : Bytes} {fin off : ℕ} {xs ys : List Bytes}
    (hx : StrsAt pkt fin off xs) (hy : StrsAt pkt fin off ys) : xs = ys := by
  have hlt {off : ℕ} {str : Bytes} (h : strAt pkt fin off = some str) : off < fin := by
    simp only [strAt] at h
    split_ifs at h
    omega
  induction xs generalizing off ys with
  | nil =>
    cases ys with
    | nil => rfl
    | cons y ys =>
      have := hlt hy.1
      have : off = fin := hx
      omega
  | cons x xs ih =>
    cases ys with
    | nil =>
      have := hlt hx.1
      have : off = fin := hy
      omega
    | cons y ys =>
      obtain rfl : x = y := Option.some.inj (hx.1.symm.trans hy.1)
      rw [ih hx.2 hy.2]

theorem RdataAt.unique {pkt : Bytes} {h : RrHdr} {start fin : ℕ} {v v' : RdView}
    (hv : RdataAt pkt h start fin v) (hv' : RdataAt pkt h start fin v') : v = v' := by
  unfold RdataAt at hv hv'
  cases hk : rrKind h.rrType with
  | a | aaaa =>
    simp only [hk] at hv hv'
    rw [hv.2, hv'.2]
  | opt | any | other =>
    simp only [hk] at hv hv'
    rw [hv, hv']
  | ns | cname | ptr | mx | srv =>
    simp only [hk] at hv hv'
    obtain ⟨t, hn, rfl⟩ := hv
    obtain ⟨t', hn', rfl⟩ := hv'
    rw [(hn.unique hn').1]
  | soa =>
    simp only [hk] at hv hv'
    obtain ⟨t1, e1, t2, e2, h1, h2, -, rfl⟩ := hv
    obtain ⟨t1', e1', t2', e2', h1', h2', -, rfl⟩ := hv'
    obtain ⟨rfl, rfl⟩ := h1.unique h1'
    obtain ⟨rfl, rfl⟩ := h2.unique h2'
    rfl
  | hinfo =>
    simp only [hk] at hv hv'
    obtain ⟨c, o, hs, rfl⟩ := hv
    obtain ⟨c', o', hs', rfl⟩ := hv'
    have := strsAt_unique hs hs'
    simp only [List.cons.injEq, and_true] at this
    rw [this.1, this.2]
  | txt =>
    simp only [hk] at hv hv'
    obtain ⟨xs, hs, rfl⟩ := hv
    obtain ⟨ys, hs', rfl⟩ := hv'
    rw [strsAt_unique hs hs']

theorem RecordAt.unique {pkt : Bytes} {off fin fin' : ℕ} {v v' : RrView}
    (h : RecordAt pkt off v fin) (h' : RecordAt pkt off v' fin') : v = v' ∧ fin = fin' := by
  obtain ⟨text, e, rd, hn, -, rfl, -, hrd, rfl⟩ := h
  obtain ⟨text', e', rd', hn', -, rfl, -, hrd', rfl⟩ := h'
  obtain ⟨rfl, rfl⟩ := hn.unique hn'
  rw [hrd.unique hrd']
  exact ⟨rfl, rfl⟩

theorem forall₂_right {α β : Type} {R : α → β → Prop} {xs : List α} {ys : List β}
    (h : List.Forall₂ R xs ys) : ∀ y ∈ ys, ∃ x ∈ xs, R x y := by
  induction h with
  | nil => exact fun y hy => absurd hy List.not_mem_nil
  | @cons x y xs ys hxy _ ih =>
    refine List.forall_mem_cons.mpr ⟨⟨x, List.mem_cons_self, hxy⟩, fun z hz => ?_⟩
    obtain ⟨w, hw, hwz⟩ := ih z hz
    exact ⟨w, List.mem_cons_of_mem x hw, hwz⟩

/-- Each pointer is what `msg_store_str` returned for its string. -/
def PutsAll : NameStore → List Bytes → List Ptr → NameStore → Prop
  | st, [], [], st' => st' = st
  | st, s :: ss, p :: ps, st' => ∃ st1, Puts st s p st1 ∧ PutsAll st1 ss ps st'
  | _, _, _, _ => False

def storeSize (ss : List Bytes) : ℕ := (ss.map fun s => s.length+1).sum

theorem PutsAll.later {ss : List Bytes} {ps : List Ptr} {st st' : NameStore}
    (h : PutsAll st ss ps st') : Later st st' := by
  induction ss generalizing ps st with
  | nil =>
    cases ps with
    | nil =>
      obtain rfl : st' = st := h
      exact .refl _
    | cons p ps => exact h.elim
  | cons s ss ih =>
    cases ps with
    | nil => exact h.elim
    | cons p ps =>
      obtain ⟨st1, hp, hr⟩ := h
      exact hp.later.trans (ih hr)

theorem PutsAll.append {ss ss' : List Bytes} {ps ps' : List Ptr} {st st1 st2 : NameStore}
    (h : PutsAll st ss ps st1) (h' : PutsAll st1 ss' ps' st2) :
    PutsAll st (ss ++ ss') (ps ++ ps') st2 := by
  induction ss generalizing ps st with
  | nil =>
    cases ps with
    | nil =>
      obtain rfl : st1 = st := h
      exact h'
    | cons p ps => exact h.elim
  | cons s ss ih =>
    cases ps with
    | nil => exact h.elim
    | cons p ps =>
      obtain ⟨st3, hp, hr⟩ := h
      exact ⟨st3, hp, ih hr⟩

/-- Strings without zero bytes are shown by the pointers they were stored at, also later. -/
theorem putsAll_shows {ss : List Bytes} {ps : List Ptr} {st st' st'' : NameStore}
    (h : PutsAll st ss ps st') (hlater : Later st' st'') (hne : ∀ p ∈ ps, p ≠ .null)
    (h0 : ∀ s ∈ ss, (0 : UInt8) ∉ s) : List.Forall₂ (Points st'') ps ss := by
  induction ss generalizing ps st with
  | nil =>
    cases ps with
    | nil => exact .nil
    | cons p ps => exact h.elim
  | cons s ss ih =>
    cases ps with
    | nil => exact h.elim
    | cons p ps =>
      obtain ⟨st1, hp, hr⟩ := h
      refine .cons ?_ (ih hr (fun q hq => hne q (by simp [hq])) fun x hx => h0 x (by simp [hx]))
      rcases hp with ⟨off, hs, rfl⟩ | ⟨-, rfl, -⟩
      · have hstr := ((hr.later.trans hlater).keep _ _ (msgStoreStr_some hs).1).str
        rw [Points, hstr, cstr_of_no_zero _ (h0 s (by simp))]
      · exact absurd rfl (hne .null (by simp))

end DnsPkt.RecordView
