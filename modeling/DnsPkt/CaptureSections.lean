import DnsPkt.CapturePackets

/-!
# Interfaces of a section

A section header starts a section that has no interface yet. The reader keeps
`have_idb` over a section header, so packets of a later section are delivered
for an interface of an earlier one.
-/

set_option autoImplicit false

namespace DnsPkt.CaptureSections
open DnsPkt.CheckedRun DnsPkt.CheckedRun.Run DnsPkt.Octets DnsPkt.ByteOrder
open DnsPkt.CaptureFile DnsPkt.CaptureProgress DnsPkt.CapturePackets

def sameField (field : PcapFile → Bool) : Frame PcapFile ℤ Endless where
  keep f g := field g = field f
  leave f _ g := field g = field f
  raise _ := True
  refl _ := rfl
  trans h1 h2 := h2.trans h1
  lift h1 h2 := h2.trans h1

/-- The field is none of those that are set with every kind of block. -/
def Apart (field : PcapFile → Bool) : Prop :=
  ∀ (f : PcapFile) (pos : ℕ) (mustSwap haveShb haveEof : Bool), field { f with
    pos := pos, mustSwap := mustSwap, haveShb := haveShb, haveEof := haveEof } = field f

theorem apart_idb : Apart PcapFile.haveIdb := fun _ _ _ _ _ => rfl

theorem apart_ng : Apart PcapFile.isNg := fun _ _ _ _ _ => rfl

variable (data : Bytes) (bufLen : ℕ)

section Same

variable {field : PcapFile → Bool}

theorem same_u32 (b : Bytes) (i : ℕ) : Keeps (sameField field) (u32 b i) :=
  .of_ok fun f => ⟨_, f, rfl, rfl⟩

theorem same_when (p : Prop) [Decidable p] (c : ℤ) :
    Keeps (sameField field) (when p (exit c) : Rd Unit) :=
  keeps_when p fun _ => keeps_exit fun _ => rfl

theorem same_orLeave {α : Type} (c : ℤ) {x : Rd α} (hx : Keeps (sameField field) x) :
    Keeps (sameField field) (orLeave c x) where
  ok {f a g} h := by
    unfold orLeave at h
    cases hf : x f <;> rw [hf] at h <;> cases h
    exact hx.ok hf
  exit {f e g} h := by
    unfold orLeave at h
    cases hf : x f with
    | ok a t =>
      rw [hf] at h
      cases h
    | exit d t =>
      rw [hf] at h
      cases h
      have hsame := hx.exit hf
      exact hsame
    | fault d =>
      rw [hf] at h
      cases h
  fault _ := trivial

variable (hf : Apart field)

include hf

theorem same_readData (len : ℕ) : Keeps (sameField field) (pcapReadData data len) where
  ok {f b g} h := by
    obtain ⟨-, -, rfl⟩ := pcapReadData_ok data h
    exact hf f _ _ _ _
  exit {f e g} h := by
    unfold pcapReadData at h
    dsimp only at h
    split at h
    · cases h
    · split at h
      · cases h
        exact hf f _ _ _ _
      · cases h
        exact hf f _ _ _ _
  fault _ := trivial

theorem same_skip (n : ℕ) : Keeps (sameField field) (pcapDataSkip n) :=
  keeps_modify fun f => hf f _ _ _ _

theorem same_peekBlock : Keeps (sameField field) (pcapPeekBlock data) := by
  refine keeps_call (G := sameField field) ?_ (fun _ _ h => h) (fun _ _ _ h => h) fun _ h => h
  apply Keeps.bind (same_readData data hf 4) fun b => ?_
  apply Keeps.bind (keeps_modify fun f => hf f _ _ _ _) fun _ => ?_
  exact (same_u32 b 0).bind fun _ => keeps_pure _

theorem same_readShb : Keeps (sameField field) (pcapReadShb data) := by
  apply Keeps.bind (same_readData data hf 24) fun b => ?_
  apply Keeps.bind (keeps_modify fun f => hf f _ _ _ _) fun _ => ?_
  apply Keeps.bind (same_when _ _) fun _ => ?_
  apply Keeps.bind (keeps_modify fun f => hf f _ _ _ _) fun _ => ?_
  exact (same_u32 b 4).bind fun _ => (same_when _ _).bind fun _ => same_skip hf _

theorem same_packet (len skip : ℕ) :
    Keeps (sameField field) (do
      let pkt ← orLeave 0 (pcapReadData data len)
      pcapDataSkip skip
      pure pkt) :=
  (same_orLeave 0 (same_readData data hf len)).bind fun pkt =>
    (same_skip hf skip).bind fun _ => keeps_pure pkt

theorem same_readTail (ready : PcapFile → Bool) (len : ℕ) :
    Keeps (sameField field) (readTail data ready len bufLen) := by
  apply Keeps.bind keeps_get fun f => ?_
  apply Keeps.bind (same_when _ _) fun _ => ?_
  apply Keeps.bind (same_orLeave 0 (same_readData data hf len)) fun b => ?_
  apply Keeps.bind (same_u32 b 4) fun totLen => ?_
  exact (same_when _ _).bind fun _ => (same_when _ _).bind fun _ => same_packet data hf _ _

theorem same_readEpb : Keeps (sameField field) (pcapReadEpb data bufLen) := by
  apply Keeps.bind keeps_get fun f => ?_
  apply Keeps.bind (same_when _ _) fun _ => ?_
  apply Keeps.bind (same_orLeave 0 (same_readData data hf 28)) fun b => ?_
  apply Keeps.bind (same_u32 b 4) fun totLen => ?_
  apply Keeps.bind (same_u32 b 20) fun inclLen => ?_
  exact (same_when _ _).bind fun _ => (same_when _ _).bind fun _ => same_packet data hf _ _

theorem same_skipBlock : Keeps (sameField field) (pcapSkipBlock data) := by
  apply Keeps.bind (same_readData data hf 8) fun b => ?_
  exact (same_u32 b 4).bind fun _ => (same_when _ _).bind fun _ => same_skip hf _

/-- The kinds of blocks, interface descriptions apart. -/
theorem same_block {type : ℤ} {idb : Rd (Option Bytes)}
    (hidb : type = pcapIdbType → Keeps (sameField field) idb) :
    Keeps (sameField field) (if type = pcapShbType then
        orLeave (-1) (pcapReadShb data) >>= fun _ => pure none
      else if type = pcapIdbType then idb
      else if type = pcapSpbType then pcapReadSpb data bufLen >>= fun pkt => pure (some pkt)
      else if type = pcapEpbType then pcapReadEpb data bufLen >>= fun pkt => pure (some pkt)
      else if type = pcapDsbType then pcapReadDsb data bufLen >>= fun pkt => pure (some pkt)
      else orLeave (-1) (pcapSkipBlock data) >>= fun _ => pure none) := by
  split_ifs with _ hty
  · exact (same_orLeave _ (same_readShb data hf)).bind fun _ => keeps_pure _
  · exact hidb hty
  · rw [pcapReadSpb_tail]
    exact (same_readTail data bufLen hf _ _).bind fun _ => keeps_pure _
  · exact (same_readEpb data bufLen hf).bind fun _ => keeps_pure _
  · rw [pcapReadDsb_tail]
    exact (same_readTail data bufLen hf _ _).bind fun _ => keeps_pure _
  · exact (same_orLeave _ (same_skipBlock data hf)).bind fun _ => keeps_pure _

end Same

def ReadsBlock (type len : ℕ) (f : PcapFile) : Prop :=
  Enters data f ∧ typeAt data f = type ∧ f.pos+len ≤ data.length

abbrev ReadsShb (f : PcapFile) : Prop := ReadsBlock data pcapShbType 24 f

abbrev ReadsIdb (f : PcapFile) : Prop := ReadsBlock data pcapIdbType 16 f

instance (type len : ℕ) (f : PcapFile) : Decidable (ReadsBlock data type len f) :=
  inferInstanceAs (Decidable ((_ ∧ _) ∧ _))

/-- The state in which a run ended that has no endless loop. -/
def after {α : Type} : Outcome PcapFile ℤ Endless α → Option PcapFile
  | .ok _ g => some g
  | .exit _ g => some g
  | .fault _ => none

theorem Keeps.after_same {α : Type} {field : PcapFile → Bool} {x : Rd α}
    (hx : Keeps (sameField field) x) {f g : PcapFile} (h : after (x f) = some g) :
    field g = field f := by
  cases hf : x f with
  | ok a t =>
    rw [hf] at h
    cases h
    exact hx.ok hf
  | exit e t =>
    rw [hf] at h
    cases h
    exact hx.exit hf
  | fault d =>
    rw [hf] at h
    cases h

theorem idb_read {f g : PcapFile} (h : after (pcapReadIdb data f) = some g) :
    g.haveIdb = (f.haveIdb || decide (f.pos+16 ≤ data.length)) := by
  by_cases hin : f.pos+16 ≤ data.length
  · have hrest (b : Bytes) : Keeps (sameField PcapFile.haveIdb) (u32 b 4 >>= fun totLen =>
        when (totLen < 16) (exit pcapFail) >>= fun _ => pcapDataSkip (totLen-16)) :=
      (same_u32 b 4).bind fun _ => (same_when _ _).bind fun _ => same_skip apart_idb _
    rw [pcapReadIdb, bind_of_ok (pcapReadData_run data hin)] at h
    have hidb := Keeps.after_same (hrest _) (f := { f with pos := f.pos+16, haveIdb := true }) h
    simp only [hidb, hin, decide_true, Bool.or_true]
  · cases hr : pcapReadData data 16 f with
    | ok b t =>
      obtain ⟨rfl, hlen, -⟩ := pcapReadData_ok data hr
      simp only [slice, List.length_take, List.length_drop] at hlen
      omega
    | exit e t =>
      rw [pcapReadIdb, bind_of_exit hr] at h
      cases h
      have hsame : g.haveIdb = f.haveIdb := (same_readData data apart_idb 16).exit hr
      simp only [hsame, hin, decide_false, Bool.or_false]
    | fault d => exact ((forward_readData data 16).fault hr).elim

/-- Only an interface description that is read changes `have_idb`. -/
theorem round_idb {f g : PcapFile} (h : after (xpbRound data bufLen f) = some g) :
    g.haveIdb = (f.haveIdb || decide (ReadsIdb data f)) := by
  by_cases henter : Enters data f
  · by_cases hty : typeAt data f = pcapIdbType
    · have hreads : ReadsIdb data f ↔ f.pos+16 ≤ data.length :=
        ⟨fun h => h.2.2, fun h => ⟨henter, hty, h⟩⟩
      have hround : after (xpbRound data bufLen f) = after (pcapReadIdb data f) := by
        rw [xpbRound, bind_of_ok (pcapPeekBlock_run data henter.1),
          bind_when_neg (not_lt.mpr henter.2), hty, if_neg (by decide), if_pos rfl]
        cases hidb : pcapReadIdb data f with
        | ok u t =>
          have hleave : orLeave (-1) (pcapReadIdb data) f = .ok u t := by rw [orLeave, hidb]
          rw [bind_of_ok hleave]
          rfl
        | exit e t =>
          have hleave : orLeave (-1) (pcapReadIdb data) f = .exit (-1) t := by rw [orLeave, hidb]
          rw [bind_of_exit hleave]
          rfl
        | fault d =>
          have hleave : orLeave (-1) (pcapReadIdb data) f = .fault d := by rw [orLeave, hidb]
          rw [bind_of_fault hleave]
          rfl
      rw [hround] at h
      rw [idb_read data h]
      simp only [hreads]
    · have hreads : ¬ ReadsIdb data f := fun h => hty h.2.1
      rw [decide_eq_false hreads, Bool.or_false]
      rw [xpbRound, bind_of_ok (pcapPeekBlock_run data henter.1),
        bind_when_neg (not_lt.mpr henter.2)] at h
      exact Keeps.after_same (same_block data bufLen apart_idb fun hidb => absurd hidb hty) h
  · have hreads : ¬ ReadsIdb data f := fun h => henter h.1
    rw [decide_eq_false hreads, Bool.or_false]
    cases hpeek : pcapPeekBlock data f with
    | ok c t =>
      have hneg : c < 0 := by
        by_cases hin : f.pos+4 ≤ data.length
        · rw [pcapPeekBlock_run data hin] at hpeek
          cases hpeek
          by_contra hge
          exact henter ⟨hin, by omega⟩
        · obtain ⟨c', t', hpeek', hneg, -⟩ := pcapPeekBlock_stop data hin
          rw [hpeek'] at hpeek
          cases hpeek
          exact hneg
      rw [xpbRound, bind_of_ok hpeek, bind_when_pos hneg] at h
      cases h
      exact (same_peekBlock data apart_idb).ok hpeek
    | exit e t => exact absurd hpeek (call_ne_exit _ _ _ _)
    | fault d =>
      rw [xpbRound, bind_of_fault hpeek] at h
      cases h

/-- No block changes the format of the file. -/
theorem round_ng {f g : PcapFile} (h : after (xpbRound data bufLen f) = some g) :
    g.isNg = f.isNg := by
  refine Keeps.after_same ?_ h
  apply Keeps.bind (same_peekBlock data apart_ng) fun type => ?_
  apply Keeps.bind (same_when _ _) fun _ => ?_
  refine same_block data bufLen apart_ng fun _ => ?_
  refine (same_orLeave (-1) ?_).bind fun _ => keeps_pure _
  apply Keeps.bind (same_readData data apart_ng 16) fun b => ?_
  apply Keeps.bind (keeps_modify fun _ => rfl) fun _ => ?_
  exact (same_u32 b 4).bind fun _ => (same_when _ _).bind fun _ => same_skip apart_ng _

/-- The states in which a call of `pcap_read_xpb` enters its rounds, the last one
first, and the state that it leaves. -/
def xpbRounds (bufLen : ℕ) : ℕ → PcapFile → List PcapFile × PcapFile
  | 0, f => ([], f)
  | k+1, f => match xpbRound data bufLen f with
    | .ok none g => ((xpbRounds bufLen k g).1 ++ [f], (xpbRounds bufLen k g).2)
    | .ok (some _) g => ([f], g)
    | .exit _ g => ([f], g)
    | .fault _ => ([f], f)

def callRounds (bufLen : ℕ) (f : PcapFile) : List PcapFile × PcapFile :=
  if f.sysErr ∨ f.haveEof then ([], f) else xpbRounds data bufLen (data.length+1) f

/-- A pcapng file that was opened, and the rounds of the calls of `pcap_read` made so far. -/
inductive Session : List PcapFile → PcapFile → Prop where
  | opened {f : PcapFile} (h : pcapOpen data = some f) (hng : f.isNg = true) : Session [] f
  | read {vs : List PcapFile} {f g : PcapFile} (h : Session vs f) (bufLen : ℕ)
      (hg : after (pcapRead data bufLen f) = some g) :
      Session ((callRounds data bufLen f).1 ++ vs) g

theorem xpbRounds_state (k : ℕ) (f : PcapFile) (hk : data.length-f.pos < k) :
    after (pcapReadXpb data bufLen k f) = some (xpbRounds data bufLen k f).2 := by
  induction k generalizing f with
  | zero => omega
  | succ k ih =>
    rw [pcapReadXpb, xpbRounds]
    cases hr : xpbRound data bufLen f with
    | ok r t =>
      obtain ⟨hmove, hpos⟩ := xpbRound_ok data bufLen hr
      rw [bind_of_ok hr]
      cases r with
      | some pkt => rfl
      | none => exact ih t (by omega)
    | exit e t =>
      rw [bind_of_exit hr]
      rfl
    | fault d => exact (xpbRound_ne_fault data bufLen f d hr).elim

/-- The rounds of a call end in the state that `pcap_read` leaves. -/
theorem pcapRead_state {f : PcapFile} (hng : f.isNg = true) :
    after (pcapRead data bufLen f) = some (callRounds data bufLen f).2 := by
  by_cases hstop : f.sysErr = true ∨ f.haveEof = true
  · rw [pcapRead, if_pos hstop, callRounds, if_pos hstop]
    rfl
  · have hstate := xpbRounds_state data bufLen (data.length+1) f (by omega)
    rw [pcapRead, if_neg hstop, readPkt, if_pos hng, callRounds, if_neg hstop, ← hstate]
    cases pcapReadXpb data bufLen (data.length+1) f <;> rfl

/-- Rounds one after another from the state `f0`, the last one first. -/
inductive Rounds (f0 : PcapFile) : List PcapFile → PcapFile → Prop where
  | none : Rounds f0 [] f0
  | round {vs : List PcapFile} {f g : PcapFile} (h : Rounds f0 vs f) (bufLen : ℕ)
      (hg : after (xpbRound data bufLen f) = some g) : Rounds f0 (f :: vs) g

variable {data bufLen} {f0 : PcapFile}

theorem Rounds.append {vs us : List PcapFile} {f g : PcapFile} (h : Rounds data f0 vs f)
    (h' : Rounds data f us g) : Rounds data f0 (us ++ vs) g := by
  induction h' with
  | none => exact h
  | round _ bufLen hg ih => exact ih.round bufLen hg

theorem Rounds.ng {vs : List PcapFile} {f : PcapFile} (h : Rounds data f0 vs f) :
    f.isNg = f0.isNg := by
  induction h with
  | none => rfl
  | round _ bufLen hg ih => exact (round_ng data bufLen hg).trans ih

theorem rounds_xpb (k : ℕ) (f : PcapFile) :
    Rounds data f (xpbRounds data bufLen k f).1 (xpbRounds data bufLen k f).2 := by
  induction k generalizing f with
  | zero => exact .none
  | succ k ih =>
    rw [xpbRounds]
    cases hr : xpbRound data bufLen f with
    | ok r t =>
      have hone : Rounds data f [f] t := .round .none bufLen (by rw [hr]; rfl)
      cases r with
      | some pkt => exact hone
      | none => exact hone.append (ih t)
    | exit e t => exact .round .none bufLen (by rw [hr]; rfl)
    | fault d => exact (xpbRound_ne_fault data bufLen f d hr).elim

theorem open_no_idb {f : PcapFile} (h : pcapOpen data = some f) : f.haveIdb = false := by
  have hsetup : Keeps (sameField PcapFile.haveIdb) (do
      let isNg ← pcapDetectFmt data
      modify fun f => { f with isNg := isNg }
      if isNg then pcapReadShb data else pcapReadHdr data : Rd Unit) := by
    have hdetect : Keeps (sameField PcapFile.haveIdb) (pcapDetectFmt data) := by
      apply Keeps.bind (same_readData data apart_idb 4) fun b => ?_
      apply Keeps.bind (keeps_modify fun _ => rfl) fun _ => ?_
      dsimp only
      split_ifs
      · exact keeps_pure _
      · exact keeps_pure _
      · exact keeps_exit fun _ => rfl
    have hhdr : Keeps (sameField PcapFile.haveIdb) (pcapReadHdr data) :=
      (same_readData data apart_idb 24).bind fun b =>
        keeps_when _ fun _ => keeps_modify fun _ => rfl
    apply Keeps.bind hdetect fun isNg => ?_
    apply Keeps.bind (keeps_modify fun _ => rfl) fun _ => ?_
    split_ifs
    · exact same_readShb data apart_idb
    · exact hhdr
  unfold pcapOpen at h
  dsimp only at h
  split at h
  · next hrun =>
    cases h
    exact hsetup.ok hrun
  · cases h

theorem session_rounds {vs : List PcapFile} {f : PcapFile} (h : Session data vs f) :
    ∃ f0, f0.haveIdb = false ∧ f0.isNg = true ∧ Rounds data f0 vs f := by
  induction h with
  | opened h hng => exact ⟨_, open_no_idb h, hng, .none⟩
  | @read vs f g _ bufLen hg ih =>
    obtain ⟨f0, h0, hng, hrounds⟩ := ih
    refine ⟨f0, h0, hng, hrounds.append ?_⟩
    rw [pcapRead_state data bufLen (hrounds.ng.trans hng)] at hg
    cases hg
    rw [callRounds]
    split_ifs
    · exact .none
    · exact rounds_xpb _ f

variable (data) in
def Described : List PcapFile → Prop
  | [] => False
  | f :: vs => ¬ ReadsShb data f ∧ (ReadsIdb data f ∨ Described vs)

variable (data) in
def Delivers (f : PcapFile) : Prop :=
  IsPacket data f ∧ ∃ bufLen pkt g, xpbRound data bufLen f = .ok (some pkt) g

variable (data) in
/-- The interface that the reader knows, and the one of a packet it delivers, belong to the
section. -/
def PerSection (vs : List PcapFile) (f : PcapFile) : Prop :=
  (f.haveIdb = true → Described data vs) ∧ (Delivers data f → Described data vs)

def EachState (P : List PcapFile → PcapFile → Prop) : List PcapFile → PcapFile → Prop
  | [], f => P [] f
  | g :: vs, f => P (g :: vs) f ∧ EachState P vs g

theorem delivers_idb {f : PcapFile} (h : Delivers data f) : f.haveIdb = true := by
  obtain ⟨hty, bufLen, pkt, g, hrun⟩ := h
  have henter : Enters data f := by
    by_contra hno
    obtain ⟨t, ht, -⟩ := xpbRound_stop data bufLen hno
    rw [ht] at hrun
    cases hrun
  by_contra hidb
  rw [xpbRound_refused data bufLen henter (.inl ⟨hty, by simpa using hidb⟩)] at hrun
  cases hrun

theorem perSection_iff {vs : List PcapFile} {f : PcapFile} :
    PerSection data vs f ↔ (f.haveIdb = true → Described data vs) :=
  ⟨fun h => h.1, fun h => ⟨h, fun hd => h (delivers_idb hd)⟩⟩

/-- Where no section header is read in a state with an interface, the interface is of the
section. -/
theorem rounds_described {vs : List PcapFile} {f : PcapFile} (h0 : f0.haveIdb = false)
    (h : Rounds data f0 vs f) (hshb : ∀ g ∈ vs, ReadsShb data g → g.haveIdb = false) :
    EachState (PerSection data) vs f := by
  induction h with
  | none => exact perSection_iff.mpr fun h => by rw [h0] at h; cases h
  | @round vs f g hrounds bufLen hg ih =>
    have hbefore := ih fun g hg => hshb g (List.mem_cons_of_mem _ hg)
    have hlast : PerSection data vs f := by
      cases vs with
      | nil => exact hbefore
      | cons => exact hbefore.1
    refine ⟨perSection_iff.mpr fun hidb => ?_, hbefore⟩
    rw [round_idb data bufLen hg, Bool.or_eq_true, decide_eq_true_eq] at hidb
    constructor
    · intro hreads
      rw [hshb f List.mem_cons_self hreads] at hidb
      have hty := hreads.2.1
      rcases hidb with h | h
      · cases h
      · rw [h.2.1] at hty
        exact absurd hty (by decide)
    · rcases hidb with h | h
      · exact .inr (hlast.1 h)
      · exact .inl h

theorem header_keeps_interface {vs : List PcapFile} {f g : PcapFile}
    (h : Rounds data f0 (g :: vs) f) (hidb : g.haveIdb = true) : f.haveIdb = true := by
  cases h with
  | round _ bufLen hg => rw [round_idb data bufLen hg, hidb, Bool.true_or]

/-- The interface is that of the section in every state of a run, exactly when no section header
is read while the reader knows an interface. -/
theorem interface_per_section_iff {vs : List PcapFile} {f : PcapFile} (h : Session data vs f) :
    EachState (PerSection data) vs f ↔ ∀ g ∈ vs, ReadsShb data g → g.haveIdb = false := by
  obtain ⟨f0, h0, -, hrounds⟩ := session_rounds h
  refine ⟨fun hkept => ?_, rounds_described h0 hrounds⟩
  clear h
  induction hrounds with
  | none => simp
  | @round vs f g hr bufLen hg ih =>
    obtain ⟨hlast, hbefore⟩ := hkept
    intro g' hg' hreads
    rcases List.mem_cons.mp hg' with rfl | hg'
    · by_contra hidb
      have hstill := header_keeps_interface (hr.round bufLen hg) (by simpa using hidb)
      exact (hlast.1 hstill).1 hreads
    · exact ih hbefore g' hg' hreads

def secondSection : Bytes :=
  shbBytes false ++ idbBytes false ++ shbBytes false ++ epbBytes false 0 [1, 2, 3, 4]

def oneSection : Bytes := shbBytes false ++ idbBytes false ++ epbBytes false 0 [1, 2, 3, 4]

def startOf (pos : ℕ) (idb : Bool) : PcapFile := ⟨pos, true, false, true, idb, false, false⟩

theorem oneSection_described :
    EachState (PerSection oneSection) [startOf 48 true, startOf 28 false] (startOf 84 true) := by
  have hopen : pcapOpen oneSection = some (startOf 28 false) := by decide +kernel
  have hcall : callRounds oneSection 100 (startOf 28 false) =
      ([startOf 48 true, startOf 28 false], startOf 84 true) := by decide +kernel
  have hleft : after (pcapRead oneSection 100 (startOf 28 false)) = some (startOf 84 true) := by
    decide +kernel
  have hsession := Session.read (.opened hopen rfl) 100 hleft
  rw [hcall] at hsession
  exact (interface_per_section_iff hsession).mpr (by decide +kernel)

theorem packet_of_another_section : ∃ f vs t, pcapOpen secondSection = some f ∧
    Session secondSection vs t ∧ pcapRead secondSection 100 f = .ok [1, 2, 3, 4] t ∧
      ¬ EachState (PerSection secondSection) vs t := by
  have hopen : pcapOpen secondSection = some (startOf 28 false) := by decide +kernel
  have hcall : callRounds secondSection 100 (startOf 28 false) =
      ([startOf 76 true, startOf 48 true, startOf 28 false], startOf 112 true) := by
    decide +kernel
  have hread : pcapRead secondSection 100 (startOf 28 false) =
      .ok [1, 2, 3, 4] (startOf 112 true) := by decide +kernel
  have hsession := Session.read (.opened hopen rfl) 100 (congrArg after hread)
  rw [hcall] at hsession
  refine ⟨_, _, _, hopen, hsession, hread, fun h => ?_⟩
  have hdescribed := h.2.1.1 rfl
  exact hdescribed.1 (by decide +kernel)

end DnsPkt.CaptureSections
