import DnsPkt.CaptureFile

/-!
# Reading a capture file ends

Lengths that are taken from the file are only ever skipped forwards. A round
of the block loop peeks at four bytes of the file, so it starts before the
end, and it leaves the position behind its start. The number of bytes that
are left bounds the rounds of a call and the calls of a program.
-/

set_option autoImplicit false

namespace DnsPkt.CaptureProgress
open DnsPkt.CheckedRun DnsPkt.CheckedRun.Run DnsPkt.Octets DnsPkt.ByteOrder DnsPkt.CaptureFile

def forward : Frame PcapFile ℤ Endless where
  keep f g := f.pos ≤ g.pos
  leave f _ g := f.pos ≤ g.pos
  raise _ := False
  refl _ := le_rfl
  trans h1 h2 := h1.trans h2
  lift h1 h2 := h1.trans h2

section Forward

variable (data : Bytes)

theorem pcapReadData_ok {len : ℕ} {f g : PcapFile} {b : Bytes}
    (h : pcapReadData data len f = .ok b g) :
    b = slice data f.pos len ∧ b.length = len ∧ g = { f with pos := f.pos+len } := by
  unfold pcapReadData at h
  dsimp only at h
  split at h
  · next hlen =>
    cases h
    exact ⟨rfl, hlen, by rw [hlen]⟩
  · split at h <;> cases h

theorem pcapReadData_run {len : ℕ} {f : PcapFile} (h : f.pos+len ≤ data.length) :
    pcapReadData data len f = .ok (slice data f.pos len) { f with pos := f.pos+len } := by
  have hlen := length_slice data f.pos len h
  unfold pcapReadData
  simp only [hlen, if_true]

/-- A read that fails inside the file still moves to its end. -/
theorem pcapReadData_exit {len : ℕ} {f g : PcapFile} {c : ℤ}
    (h : pcapReadData data len f = .exit c g) :
    f.pos ≤ g.pos ∧ (f.pos < data.length → 0 < len → f.pos < g.pos) := by
  have hgot : f.pos < data.length → 0 < len → 0 < (slice data f.pos len).length := by
    intro hpos hlen
    simp only [slice, List.length_take, List.length_drop]
    omega
  unfold pcapReadData at h
  dsimp only at h
  split at h
  · cases h
  · split at h <;> cases h
    · exact ⟨by simp, fun h1 h2 => by have := hgot h1 h2; simp only; omega⟩
    · exact ⟨by simp, fun h1 h2 => by have := hgot h1 h2; simp only; omega⟩

theorem forward_readData (len : ℕ) : Keeps forward (pcapReadData data len) where
  ok h := by
    obtain ⟨-, -, rfl⟩ := pcapReadData_ok data h
    exact Nat.le_add_right _ _
  exit h := (pcapReadData_exit data h).1
  fault h := by
    unfold pcapReadData at h
    dsimp only at h
    split at h
    · cases h
    · split at h <;> cases h

theorem forward_u32 (b : Bytes) (i : ℕ) : Keeps forward (u32 b i) :=
  .of_ok fun f => ⟨_, f, rfl, le_rfl⟩

theorem forward_skip (n : ℕ) : Keeps forward (pcapDataSkip n) :=
  keeps_modify fun f => Nat.le_add_right f.pos n

theorem forward_when (p : Prop) [Decidable p] (c : ℤ) : Keeps forward (when p (exit c) : Rd Unit) :=
  keeps_when p fun _ => keeps_exit fun _ => le_rfl

theorem forward_orLeave {α : Type} (c : ℤ) {x : Rd α} (hx : Keeps forward x) :
    Keeps forward (orLeave c x) where
  ok {f a g} h := by
    unfold orLeave at h
    cases hf : x f <;> rw [hf] at h <;> cases h
    exact hx.ok hf
  exit {f e g} h := by
    unfold orLeave at h
    cases hf : x f <;> rw [hf] at h <;> cases h
    have hle := hx.exit hf
    exact hle
  fault {f d} h := by
    unfold orLeave at h
    cases hf : x f <;> rw [hf] at h <;> cases h
    exact hx.fault hf

end Forward

def Moves {α : Type} (f : PcapFile) : Outcome PcapFile ℤ Endless α → Prop
  | .ok _ g => f.pos < g.pos
  | .exit _ g => f.pos < g.pos
  | .fault _ => False

def Advances {α : Type} (data : Bytes) (x : Rd α) : Prop :=
  ∀ f : PcapFile, f.pos < data.length → Moves f (x f)

section Advances

variable {data : Bytes}

theorem advances_readData {len : ℕ} (hlen : 0 < len) : Advances data (pcapReadData data len) := by
  intro f hpos
  cases h : pcapReadData data len f with
  | ok b g =>
    obtain ⟨-, -, rfl⟩ := pcapReadData_ok data h
    exact Nat.lt_add_of_pos_right hlen
  | exit c g => exact (pcapReadData_exit data h).2 hpos hlen
  | fault d => exact (forward_readData data len).fault h

theorem advances_orLeave {α : Type} (c : ℤ) {x : Rd α} (hx : Advances data x) :
    Advances data (orLeave c x) := by
  intro f hpos
  have hmove := hx f hpos
  unfold orLeave
  cases h : x f with
  | ok a g => rwa [h] at hmove
  | exit e g => rwa [h] at hmove
  | fault d => rwa [h] at hmove

theorem advances_bind {α β : Type} {x : Rd α} {rest : α → Rd β} (hx : Advances data x)
    (hrest : ∀ a, Keeps forward (rest a)) : Advances data (x >>= rest) := by
  intro f hpos
  have hmove := hx f hpos
  cases h : x f with
  | ok a g =>
    rw [h] at hmove
    rw [bind_of_ok h]
    cases hr : rest a g with
    | ok b t => exact lt_of_lt_of_le hmove ((hrest a).ok hr)
    | exit e t => exact lt_of_lt_of_le hmove ((hrest a).exit hr)
    | fault d => exact (hrest a).fault hr
  | exit e g =>
    rw [bind_of_exit h]
    rwa [h] at hmove
  | fault d =>
    rw [h] at hmove
    exact hmove.elim

theorem advances_readShb : Advances data (pcapReadShb data) := by
  refine advances_bind (advances_readData (by decide)) fun b => ?_
  apply Keeps.bind (keeps_modify fun f => le_refl f.pos) fun _ => ?_
  apply Keeps.bind (forward_when _ _) fun _ => ?_
  apply Keeps.bind (keeps_modify fun f => le_refl f.pos) fun _ => ?_
  apply Keeps.bind (forward_u32 b 4) fun _ => ?_
  exact (forward_when _ _).bind fun _ => forward_skip _

theorem advances_readIdb : Advances data (pcapReadIdb data) := by
  refine advances_bind (advances_readData (by decide)) fun b => ?_
  apply Keeps.bind (keeps_modify fun f => le_refl f.pos) fun _ => ?_
  apply Keeps.bind (forward_u32 b 4) fun _ => ?_
  exact (forward_when _ _).bind fun _ => forward_skip _

theorem advances_skipBlock : Advances data (pcapSkipBlock data) := by
  refine advances_bind (advances_readData (by decide)) fun b => ?_
  apply Keeps.bind (forward_u32 b 4) fun _ => ?_
  exact (forward_when _ _).bind fun _ => forward_skip _

theorem advances_readRec (bufLen : ℕ) : Advances data (pcapReadRec data bufLen) := by
  refine advances_bind (advances_readData (by decide)) fun b => ?_
  apply Keeps.bind (forward_u32 b 8) fun _ => ?_
  exact (forward_when _ _).bind fun _ => forward_readData data _

/-- The part of a packet reader behind its header. -/
theorem forward_packet (len skip : ℕ) :
    Keeps forward (orLeave 0 (pcapReadData data len) >>= fun pkt =>
      pcapDataSkip skip >>= fun _ => pure pkt) :=
  (forward_orLeave 0 (forward_readData data len)).bind fun pkt =>
    (forward_skip skip).bind fun _ => keeps_pure pkt

theorem moves_readSpb (bufLen : ℕ) {f : PcapFile} (hidb : f.haveIdb) (hpos : f.pos < data.length) :
    Moves f (pcapReadSpb data bufLen f) := by
  unfold pcapReadSpb
  rw [bind_of_ok (get_run f), bind_when_neg (by simp [hidb])]
  refine advances_bind (advances_orLeave 0 (advances_readData (by decide))) (fun b => ?_) f hpos
  apply Keeps.bind (forward_u32 b 4) fun totLen => ?_
  apply Keeps.bind (forward_when _ _) fun _ => ?_
  apply Keeps.bind (forward_when _ _) fun _ => ?_
  apply forward_packet

theorem moves_readEpb (bufLen : ℕ) {f : PcapFile} (hidb : f.haveIdb) (hpos : f.pos < data.length) :
    Moves f (pcapReadEpb data bufLen f) := by
  unfold pcapReadEpb
  rw [bind_of_ok (get_run f), bind_when_neg (by simp [hidb])]
  refine advances_bind (advances_orLeave 0 (advances_readData (by decide))) (fun b => ?_) f hpos
  apply Keeps.bind (forward_u32 b 4) fun _ => ?_
  apply Keeps.bind (forward_u32 b 20) fun _ => ?_
  apply Keeps.bind (forward_when _ _) fun _ => ?_
  exact (forward_when _ _).bind fun _ => forward_packet _ _

theorem moves_readDsb (bufLen : ℕ) {f : PcapFile} (hshb : f.haveShb) (hpos : f.pos < data.length) :
    Moves f (pcapReadDsb data bufLen f) := by
  unfold pcapReadDsb
  rw [bind_of_ok (get_run f), bind_when_neg (by simp [hshb])]
  refine advances_bind (advances_orLeave 0 (advances_readData (by decide))) (fun b => ?_) f hpos
  apply Keeps.bind (forward_u32 b 4) fun totLen => ?_
  apply Keeps.bind (forward_when _ _) fun _ => ?_
  apply Keeps.bind (forward_when _ _) fun _ => ?_
  apply forward_packet

end Advances

section Round

variable (data : Bytes) (bufLen : ℕ)

def typeAt (f : PcapFile) : ℤ := toInt (loadAs f.mustSwap (slice data f.pos 4))

def Enters (f : PcapFile) : Prop := f.pos+4 ≤ data.length ∧ 0 ≤ typeAt data f

/-- The next block is refused because the block it needs was not read. -/
def Refused (f : PcapFile) : Prop :=
  (typeAt data f = pcapSpbType ∨ typeAt data f = pcapEpbType) ∧ f.haveIdb = false ∨
    typeAt data f = pcapDsbType ∧ f.haveShb = false

theorem pcapPeekBlock_run {f : PcapFile} (h : f.pos+4 ≤ data.length) :
    pcapPeekBlock data f = .ok (typeAt data f) f := by
  refine (call_ok _ _ _ _).mpr (.inl ?_)
  rw [bind_of_ok (pcapReadData_run data h)]
  change Outcome.ok (toInt (loadAs f.mustSwap (slice (slice data f.pos 4) 0 4)))
    { f with pos := f.pos+4-4 } = _
  rw [slice_slice data f.pos (le_refl 4), Nat.add_sub_cancel, Nat.add_zero]
  rfl

theorem pcapPeekBlock_stop {f : PcapFile} (h : ¬ f.pos+4 ≤ data.length) :
    ∃ c g, pcapPeekBlock data f = .ok c g ∧ c < 0 ∧ f.pos ≤ g.pos := by
  cases hr : pcapReadData data 4 f with
  | ok b g =>
    obtain ⟨rfl, hlen, -⟩ := pcapReadData_ok data hr
    simp only [slice, List.length_take, List.length_drop] at hlen
    omega
  | exit c g =>
    refine ⟨c, g, (call_ok _ _ _ _).mpr (.inr (bind_of_exit hr _)), ?_,
      (pcapReadData_exit data hr).1⟩
    unfold pcapReadData at hr
    dsimp only at hr
    split at hr
    · cases hr
    · split at hr <;> cases hr <;> decide
  | fault d => exact ((forward_readData data 4).fault hr).elim

theorem xpbRound_stop {f : PcapFile} (h : ¬ Enters data f) :
    ∃ g, xpbRound data bufLen f = .exit 0 g ∧ f.pos ≤ g.pos := by
  by_cases hin : f.pos+4 ≤ data.length
  · have hneg : typeAt data f < 0 := by
      by_contra hge
      exact h ⟨hin, by omega⟩
    refine ⟨f, ?_, le_rfl⟩
    rw [xpbRound, bind_of_ok (pcapPeekBlock_run data hin), bind_when_pos hneg]
    rfl
  · obtain ⟨c, g, hpeek, hneg, hle⟩ := pcapPeekBlock_stop data hin
    refine ⟨g, ?_, hle⟩
    rw [xpbRound, bind_of_ok hpeek, bind_when_pos hneg]
    rfl

theorem xpbRound_refused {f : PcapFile} (h : Enters data f) (href : Refused data f) :
    xpbRound data bufLen f = .exit 0 f := by
  rw [xpbRound, bind_of_ok (pcapPeekBlock_run data h.1), bind_when_neg (not_lt.mpr h.2)]
  rcases href with ⟨hty | hty, hidb⟩ | ⟨hty, hshb⟩
  · rw [hty, if_neg (by decide), if_neg (by decide), if_pos rfl, pcapReadSpb]
    refine bind_of_exit ?_ _
    rw [bind_of_ok (get_run f), bind_when_pos (by simp [hidb])]
    rfl
  · rw [hty, if_neg (by decide), if_neg (by decide), if_neg (by decide), if_pos rfl, pcapReadEpb]
    refine bind_of_exit ?_ _
    rw [bind_of_ok (get_run f), bind_when_pos (by simp [hidb])]
    rfl
  · rw [hty, if_neg (by decide), if_neg (by decide), if_neg (by decide), if_neg (by decide),
      if_pos rfl, pcapReadDsb]
    refine bind_of_exit ?_ _
    rw [bind_of_ok (get_run f), bind_when_pos (by simp [hshb])]
    rfl

theorem moves_bind {α β : Type} {x : Rd α} {h : α → β} {f : PcapFile} (hx : Moves f (x f)) :
    Moves f ((x >>= fun a => pure (h a)) f) := by
  cases hf : x f with
  | ok a g =>
    rw [bind_of_ok hf]
    rwa [hf] at hx
  | exit e g =>
    rw [bind_of_exit hf]
    rwa [hf] at hx
  | fault d =>
    rw [hf] at hx
    exact hx.elim

theorem xpbRound_moves {f : PcapFile} (h : Enters data f) (href : ¬ Refused data f) :
    Moves f (xpbRound data bufLen f) := by
  have hpos : f.pos < data.length := by
    have := h.1
    omega
  rw [xpbRound, bind_of_ok (pcapPeekBlock_run data h.1), bind_when_neg (not_lt.mpr h.2)]
  split
  · exact moves_bind (advances_orLeave (-1) advances_readShb f hpos)
  split
  · exact moves_bind (advances_orLeave (-1) advances_readIdb f hpos)
  split
  · next hty =>
    refine moves_bind (moves_readSpb bufLen ?_ hpos)
    by_contra hidb
    exact href (.inl ⟨.inl hty, by simpa using hidb⟩)
  split
  · next hty =>
    refine moves_bind (moves_readEpb bufLen ?_ hpos)
    by_contra hidb
    exact href (.inl ⟨.inr hty, by simpa using hidb⟩)
  split
  · next hty =>
    refine moves_bind (moves_readDsb bufLen ?_ hpos)
    by_contra hshb
    exact href (.inr ⟨hty, by simpa using hshb⟩)
  · exact moves_bind (advances_orLeave (-1) advances_skipBlock f hpos)

/-- A round that does not leave the loop moves on. -/
theorem xpbRound_ok {f g : PcapFile} {r : Option Bytes} (h : xpbRound data bufLen f = .ok r g) :
    f.pos < g.pos ∧ f.pos < data.length := by
  by_cases hin : Enters data f
  · have hpos := hin.1
    by_cases href : Refused data f
    · rw [xpbRound_refused data bufLen hin href] at h
      cases h
    · have hmove := xpbRound_moves data bufLen hin href
      rw [h] at hmove
      exact ⟨hmove, by omega⟩
  · obtain ⟨t, ht, -⟩ := xpbRound_stop data bufLen hin
    rw [ht] at h
    cases h

theorem xpbRound_ne_fault (f : PcapFile) (d : Endless) : xpbRound data bufLen f ≠ .fault d := by
  intro h
  by_cases hin : Enters data f
  · by_cases href : Refused data f
    · rw [xpbRound_refused data bufLen hin href] at h
      cases h
    · have hmove := xpbRound_moves data bufLen hin href
      rw [h] at hmove
      exact hmove
  · obtain ⟨t, ht, -⟩ := xpbRound_stop data bufLen hin
    rw [ht] at h
    cases h

end Round

section Calls

variable (data : Bytes) (bufLen : ℕ)

theorem pcapReadXpb_ends {k : ℕ} {f : PcapFile} (hk : data.length-f.pos < k) :
    (∀ d, pcapReadXpb data bufLen k f ≠ .fault d) ∧
      ∀ pkt g, pcapReadXpb data bufLen k f = .ok pkt g → f.pos < g.pos ∧ f.pos < data.length := by
  induction k generalizing f with
  | zero => omega
  | succ k ih =>
    rw [pcapReadXpb]
    cases hr : xpbRound data bufLen f with
    | ok r t =>
      obtain ⟨hmove, hpos⟩ := xpbRound_ok data bufLen hr
      rw [bind_of_ok hr]
      cases r with
      | some pkt =>
        constructor
        · intro d h
          cases h
        · intro pkt g h
          cases h
          exact ⟨hmove, hpos⟩
      | none =>
        obtain ⟨hne, hok⟩ := ih (show data.length-t.pos < k by omega)
        exact ⟨hne, fun pkt g h => ⟨hmove.trans (hok pkt g h).1, hpos⟩⟩
    | exit e t =>
      rw [bind_of_exit hr]
      constructor
      · intro d h
        cases h
      · intro pkt g h
        cases h
    | fault d => exact (xpbRound_ne_fault data bufLen f d hr).elim

theorem pcapReadRec_ok {f g : PcapFile} {pkt : Bytes} (h : pcapReadRec data bufLen f = .ok pkt g) :
    f.pos < g.pos ∧ f.pos < data.length := by
  have hpos : f.pos < data.length := by
    obtain ⟨b, t, hb, -⟩ := (bind_ok _ _ _ _ _).mp h
    obtain ⟨rfl, hlen, -⟩ := pcapReadData_ok data hb
    simp only [slice, List.length_take, List.length_drop] at hlen
    omega
  have hmove := advances_readRec bufLen f hpos
  rw [h] at hmove
  exact ⟨hmove, hpos⟩

theorem forward_readRec : Keeps forward (pcapReadRec data bufLen) := by
  apply Keeps.bind (forward_readData data 16) fun b => ?_
  apply Keeps.bind (forward_u32 b 8) fun _ => ?_
  exact (forward_when _ _).bind fun _ => forward_readData data _

theorem readPkt_ends (f : PcapFile) :
    (∀ d, readPkt data bufLen f ≠ .fault d) ∧
      ∀ pkt g, readPkt data bufLen f = .ok pkt g → f.pos < g.pos ∧ f.pos < data.length := by
  unfold readPkt
  split
  · exact pcapReadXpb_ends data bufLen (by omega)
  · exact ⟨fun d h => (forward_readRec data bufLen).fault h,
      fun pkt g h => pcapReadRec_ok data bufLen h⟩

/-- A call returns, and a positive length leaves the file behind its former position. -/
theorem pcapRead_ends (f : PcapFile) :
    ∃ pkt g, pcapRead data bufLen f = .ok pkt g ∧
      (pkt ≠ [] → f.pos < g.pos ∧ f.pos < data.length) := by
  obtain ⟨hne, hok⟩ := readPkt_ends data bufLen f
  unfold pcapRead
  split
  · exact ⟨[], f, rfl, fun h => absurd rfl h⟩
  · cases hr : readPkt data bufLen f with
    | ok pkt g => exact ⟨pkt, g, rfl, fun _ => hok pkt g hr⟩
    | exit e g => exact ⟨[], g, rfl, fun h => absurd rfl h⟩
    | fault d => exact (hne d hr).elim

theorem readLoop_stop {k : ℕ} {f g : PcapFile} (h : pcapRead data bufLen f = .ok [] g) :
    readLoop data bufLen (k+1) f = some ([], g) := by
  rw [readLoop, h]

theorem readLoop_next {k : ℕ} {f g : PcapFile} {pkt : Bytes} (hpkt : pkt ≠ [])
    (h : pcapRead data bufLen f = .ok pkt g) :
    readLoop data bufLen (k+1) f =
      (readLoop data bufLen k g).map fun r => (pkt :: r.1, r.2) := by
  cases pkt with
  | nil => exact absurd rfl hpkt
  | cons x pkt => rw [readLoop, h]

theorem readLoop_same {k : ℕ} {f g : PcapFile}
    (h : pcapRead data bufLen f = pcapRead data bufLen g) :
    readLoop data bufLen k f = readLoop data bufLen k g := by
  cases k with
  | zero => rfl
  | succ k => rw [readLoop, readLoop, h]

theorem readLoop_ends {k : ℕ} {f : PcapFile} (hk : data.length-f.pos < k) :
    ∃ r, readLoop data bufLen k f = some r := by
  induction k generalizing f with
  | zero => omega
  | succ k ih =>
    obtain ⟨pkt, g, hr, hmove⟩ := pcapRead_ends data bufLen f
    by_cases hpkt : pkt = []
    · exact ⟨_, readLoop_stop data bufLen (hpkt ▸ hr)⟩
    · obtain ⟨h1, h2⟩ := hmove hpkt
      obtain ⟨r, hrest⟩ := ih (show data.length-g.pos < k by omega)
      exact ⟨(pkt :: r.1, r.2), by rw [readLoop_next data bufLen hpkt hr, hrest, Option.map_some]⟩

/-- Every round of the block loop that is not refused moves on, a refused one ends the
call, every call returns and the loop of the programs ends. -/
theorem reading_ends :
    (∀ f, Enters data f → ¬ Refused data f → Moves f (xpbRound data bufLen f)) ∧
      (∀ f, Enters data f → Refused data f → xpbRound data bufLen f = .exit 0 f) ∧
      (∀ f, ¬ Enters data f → ∃ g, xpbRound data bufLen f = .exit 0 g) ∧
      (∀ k f, data.length-f.pos < k → ∀ d, pcapReadXpb data bufLen k f ≠ .fault d) ∧
      (∀ f, ∃ pkt g, pcapRead data bufLen f = .ok pkt g ∧ (0 < pkt.length → f.pos < g.pos)) ∧
      ∀ k f, data.length-f.pos < k → ∃ r, readLoop data bufLen k f = some r := by
  refine ⟨fun f => xpbRound_moves data bufLen, fun f => xpbRound_refused data bufLen, ?_,
    fun k f hk => (pcapReadXpb_ends data bufLen hk).1, ?_, fun k f => readLoop_ends data bufLen⟩
  · intro f h
    obtain ⟨g, hg, -⟩ := xpbRound_stop data bufLen h
    exact ⟨g, hg⟩
  · intro f
    obtain ⟨pkt, g, hr, hmove⟩ := pcapRead_ends data bufLen f
    exact ⟨pkt, g, hr, fun h => (hmove (List.length_pos_iff.mp h)).1⟩

def earlyPacket : Bytes := shbBytes false ++ spbBytes false [1, 2, 3, 4]

theorem round_without_progress : ∃ f, pcapOpen earlyPacket = some f ∧ Enters earlyPacket f ∧
    ∃ c g, xpbRound earlyPacket 4 f = .exit c g ∧ ¬ f.pos < g.pos := by
  have hopen : pcapOpen earlyPacket = some ⟨28, true, false, true, false, false, false⟩ := by
    decide +kernel
  have henter : Enters earlyPacket ⟨28, true, false, true, false, false, false⟩ := by
    refine ⟨?_, ?_⟩ <;> decide +kernel
  have hround : xpbRound earlyPacket 4 ⟨28, true, false, true, false, false, false⟩ =
      .exit 0 ⟨28, true, false, true, false, false, false⟩ := by decide +kernel
  exact ⟨_, hopen, henter, _, _, hround, by decide⟩

end Calls

end DnsPkt.CaptureProgress
