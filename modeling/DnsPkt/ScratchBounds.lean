import DnsPkt.PacketBounds

/-!
# Writes to the scratch buffer

The description of a record is a sequence of pieces, each written at the
cursor that the pieces before it left. A piece that starts inside the buffer
is cut to the room that is left, but the cursor then moves by its full
length. A later piece that starts past the end is written with an enormous
room. So the buffer is overrun exactly when a piece starts past its end.
-/

set_option autoImplicit false

namespace DnsPkt.ScratchBounds
open DnsPkt.CheckedRun DnsPkt.CheckedRun.Run DnsPkt.Octets DnsPkt.Protocol DnsPkt.WireName
open DnsPkt.MessageStore DnsPkt.ReportText DnsPkt.RecordDecoder DnsPkt.MessageDecoder
open DnsPkt.RecordRun DnsPkt.RecordEntry DnsPkt.MessageRun DnsPkt.PacketBounds

def isMsgWrite : Fault → Prop
  | .msgWrite _ => True
  | _ => False

/-- A piece of a description: a text of known length or the name at an offset. -/
inductive Piece where
  | text (len : ℕ)
  | name (off : ℕ)

/-- No piece starts past the buffer, apart from a name of which nothing is stored. -/
def Fits (pkt : Bytes) : ℕ → List Piece → Prop
  | _, [] => True
  | w, .text len :: rest => w ≤ dnsMsgSize ∧ Fits pkt (w+len) rest
  | w, .name off :: rest =>
    (dnsMsgSize < w → storedText pkt off w = []) ∧
    (w ≤ dnsMsgSize → ∀ text e, NameAt pkt off text e →
      w+(shown text).length+1 ≤ dnsMsgSize → Fits pkt (w+(shown text).length) rest)

def txtPieces (pkt : Bytes) (rdEnd : ℕ) : ℕ → ℕ → List Piece
  | 0, _ => []
  | k+1, off =>
    if off < rdEnd then match strAt pkt rdEnd off with
      | none => []
      | some str => .text (5+(cstr str).length) :: txtPieces pkt rdEnd k (off+1+str.length)
    else []

def hinfoPieces (pkt : Bytes) (rdEnd start : ℕ) : List Piece :=
  match strAt pkt rdEnd start with
  | none => []
  | some cpu =>
    .text (5+(cstr cpu).length) ::
      if rdEnd ≤ start+1+cpu.length then []
      else match strAt pkt rdEnd (start+1+cpu.length) with
        | none => []
        | some os => [.text (8+(cstr os).length)]

def soaVals (b : Bytes) : List (String × UInt32) :=
  [("serial", decU32 (slice b 0 4)), ("refresh", decU32 (slice b 4 4)),
    ("retry", decU32 (slice b 8 4)), ("expire", decU32 (slice b 12 4)),
    ("min_ttl", decU32 (slice b 16 4))]

def valText (v : String × UInt32) : Bytes :=
  ascii " " ++ ascii v.1 ++ ascii "=" ++ decimal v.2.toNat

def valPieces (vals : List (String × UInt32)) : List Piece :=
  vals.map fun v => .text (valText v).length

def soaPieces (pkt : Bytes) (rdEnd start : ℕ) : List Piece :=
  [.text 6, .name start, .text 7] ++ match nameEnd pkt start with
    | none => []
    | some e1 => .name e1 :: match nameEnd pkt e1 with
      | none => []
      | some e2 => if rdEnd < e2+20 then [] else valPieces (soaVals (slice pkt e2 20))

def mxText (pref : UInt16) : Bytes := ascii "pref " ++ decimal pref.toNat ++ ascii " "

def srvText (b : Bytes) : Bytes :=
  ascii "Priority " ++ decimal (decU16 (slice b 0 2)).toNat ++ ascii " Weight " ++
    decimal (decU16 (slice b 2 2)).toNat ++ ascii " port " ++
    decimal (decU16 (slice b 4 2)).toNat ++ ascii " "

/-- The pieces of a description that can start past the buffer. The other
record types write one piece, at a cursor inside the buffer. -/
def pieces (pkt : Bytes) (h : RrHdr) (start rdEnd : ℕ) : List Piece :=
  match rrKind h.rrType with
  | .soa => soaPieces pkt rdEnd start
  | .hinfo => if h.rdlen.toNat < 2 then [] else hinfoPieces pkt rdEnd start
  | .mx =>
    if h.rdlen.toNat < 3 then []
    else [.text (mxText (decU16 (slice pkt start 2))).length, .name (start+2)]
  | .txt => txtPieces pkt rdEnd (rdEnd-start) start
  | .srv =>
    if h.rdlen.toNat < 7 then []
    else [.text (srvText (slice pkt start 6)).length, .name (start+6)]
  | _ => []

section Step

variable {env : DecEnv} {α : Type}

theorem describe_run (he : env.needEmsg = true) {w : ℕ} (hw : w ≤ dnsMsgSize) (rc : ℤ)
    (text : Bytes) (s : DecState) :
    describe env w rc text s = .ok (w+text.length, text.length) (put s w (cut w text)) := by
  unfold describe
  rw [if_pos he, bind_of_ok (snprintf_run hw text s)]
  rfl

theorem describe_writes (he : env.needEmsg = true) {w : ℕ} (hw : w ≤ 2^64) (rc : ℤ)
    (text : Bytes) (f : ℕ × ℤ → Dec α) (s : DecState) :
    Avoids isMsgWrite (describe env w rc text >>= f) s ↔
      w ≤ dnsMsgSize ∧
        Avoids isMsgWrite (f (w+text.length, text.length)) (put s w (cut w text)) := by
  by_cases h : w ≤ dnsMsgSize
  · rw [avoids_bind_of_ok (describe_run he h rc text s)]
    simp only [h, true_and]
  · have hf : describe env w rc text s = .fault (.msgWrite w) := by
      unfold describe
      rw [if_pos he, bind_of_fault (snprintf_over (by omega) hw text s)]
    rw [avoids_of_fault (bind_of_fault hf f)]
    simp [isMsgWrite, h]

theorem name_writes (field : DnsLocation) (w : ℕ) (f : ℕ → Dec α) (s : DecState) :
    Avoids isMsgWrite (nameField env field w >>= f) s ↔
      (dnsMsgSize < w → storedText env.pkt s.dec.offset w = []) ∧
      (w ≤ dnsMsgSize → ∀ text e, NameAt env.pkt s.dec.offset text e →
        w+(shown text).length+1 ≤ dnsMsgSize →
        Avoids isMsgWrite (f (shown text).length)
          (moveTo (put s w (shown text ++ [0])) e)) := by
  by_cases hw : w ≤ dnsMsgSize
  · simp only [show ¬ dnsMsgSize < w by omega, hw, false_implies, true_and, forall_true_left]
    rw [avoids_bind]
    constructor
    · exact fun h text e hn hfit => h.2 _ _ (nameField_run env field hn hfit)
    · refine fun h => ⟨nameField_avoids env field hw _ s, fun n t ht => ?_⟩
      obtain ⟨text, e, hn, hfit, rfl, rfl⟩ := nameField_ok hw ht
      exact h text e hn hfit
  · simp only [show dnsMsgSize < w by omega, hw, false_implies, and_true, forall_true_left]
    rcases nameField_over env field (show dnsMsgSize < w by omega) s with ⟨hs, h⟩ | ⟨hs, c, t, h⟩
    · rw [avoids_of_fault (bind_of_fault h f)]
      simp [isMsgWrite, hs]
    · exact iff_of_true (avoids_of_exit (bind_of_exit h f)) hs

theorem readBytes_writes {i n : ℕ} (f : Bytes → Dec α) (s : DecState) :
    Avoids isMsgWrite (readBytes env i n >>= f) s ↔
      (n = 0 ∨ i+n ≤ env.pkt.length → Avoids isMsgWrite (f (slice env.pkt i n)) s) := by
  by_cases h : n = 0 ∨ i+n ≤ env.pkt.length
  · rw [avoids_bind_of_ok (readBytes_run env h s)]
    simp only [h, forall_true_left]
  · rw [avoids_of_fault (bind_of_fault (readBytes_over env h s) f)]
    simp [isMsgWrite, h]

theorem guard_writes {p : Prop} [Decidable p] (group field : DnsLocation) (ec : ℤ)
    (f : Unit → Dec α) (s : DecState) :
    Avoids isMsgWrite (when p (retErr group field ec) >>= f) s ↔
      (¬ p → Avoids isMsgWrite (f ()) s) := by
  by_cases h : p
  · simp only [h, not_true, false_implies, iff_true]
    exact avoids_of_exit (bind_when_pos h _ _ _)
  · simp only [h, not_false_eq_true, forall_true_left]
    rw [when_neg h, avoids_bind_of_ok (pure_run () s)]

/-- A string field in a describing run, up to its description. -/
theorem strField_run {field : DnsLocation} {label : Bytes} {rdEnd w : ℕ} {rc : ℤ}
    {load : Bytes → Dec Unit} {s : DecState} {str : Bytes} (he : env.needEmsg = true)
    (hl : env.loadMsg = false) (hrd : rdEnd ≤ env.pkt.length)
    (hread : s.dec.offset+1 ≤ env.pkt.length)
    (hstr : strAt env.pkt rdEnd s.dec.offset = some str) (hw : w ≤ dnsMsgSize) :
    strField env field label rdEnd w rc load s =
      .ok (w+(label ++ cstr str).length, (label ++ cstr str).length)
        (moveTo (put (moveTo s (s.dec.offset+1)) w (cut w (label ++ cstr str)))
          (s.dec.offset+1+str.length)) := by
  obtain ⟨hlen, hin⟩ := strAt_length hrd hstr
  have hslice : slice env.pkt (s.dec.offset+1) str.length = str := by
    simp only [strAt] at hstr
    split_ifs at hstr
    rw [hlen]
    exact Option.some.inj hstr
  unfold strField
  rw [bind_of_ok (getOffset_run s), bind_of_ok (readBytes_run env (.inr hread) s),
    bind_of_ok (advance_run _ _)]
  simp only [← hlen]
  rw [when_neg (by omega), bind_of_ok (pure_run _ _),
    bind_of_ok (readBytes_run env (.inr (by omega)) _), hslice,
    bind_of_ok (describe_run he hw rc _ _)]
  dsimp only
  rw [when_neg (by simp [hl]), bind_of_ok (pure_run _ _), bind_of_ok (advance_run _ _)]
  simp

theorem strField_exit (field : DnsLocation) (label : Bytes) {rdEnd : ℕ} (w : ℕ) (rc : ℤ)
    (load : Bytes → Dec Unit) {s : DecState} (hread : s.dec.offset+1 ≤ env.pkt.length)
    (hstr : strAt env.pkt rdEnd s.dec.offset = none) :
    ∃ c t, strField env field label rdEnd w rc load s = .exit c t := by
  simp only [strAt] at hstr
  split_ifs at hstr with hlt
  unfold strField
  rw [bind_of_ok (getOffset_run s), bind_of_ok (readBytes_run env (.inr hread) s),
    bind_of_ok (advance_run _ _)]
  exact ⟨_, _, bind_when_pos hlt _ _ _⟩

theorem strField_over {field : DnsLocation} {label : Bytes} {rdEnd w : ℕ} {rc : ℤ}
    {load : Bytes → Dec Unit} {s : DecState} {str : Bytes} (he : env.needEmsg = true)
    (hrd : rdEnd ≤ env.pkt.length) (hread : s.dec.offset+1 ≤ env.pkt.length)
    (hstr : strAt env.pkt rdEnd s.dec.offset = some str) (hw : dnsMsgSize < w) (hw' : w ≤ 2^64) :
    strField env field label rdEnd w rc load s = .fault (.msgWrite w) := by
  obtain ⟨hlen, hin⟩ := strAt_length hrd hstr
  unfold strField
  rw [bind_of_ok (getOffset_run s), bind_of_ok (readBytes_run env (.inr hread) s),
    bind_of_ok (advance_run _ _)]
  simp only [← hlen]
  rw [when_neg (by omega), bind_of_ok (pure_run _ _),
    bind_of_ok (readBytes_run env (.inr (by omega)) _)]
  refine bind_of_fault ?_ _
  unfold describe
  rw [if_pos he, bind_of_fault (snprintf_over hw hw' _ _)]

theorem strField_ok {field : DnsLocation} {label : Bytes} {rdEnd w : ℕ} {rc : ℤ}
    {load : Bytes → Dec Unit} {s t : DecState} {p : ℕ × ℤ} (he : env.needEmsg = true)
    (hl : env.loadMsg = false) (hrd : rdEnd ≤ env.pkt.length) (hw : w ≤ 2^64)
    (h : strField env field label rdEnd w rc load s = .ok p t) :
    ∃ str, strAt env.pkt rdEnd s.dec.offset = some str ∧ w ≤ dnsMsgSize ∧
      p = (w+(label ++ cstr str).length, ((label ++ cstr str).length : ℤ)) ∧
      t = moveTo (put (moveTo s (s.dec.offset+1)) w (cut w (label ++ cstr str)))
        (s.dec.offset+1+str.length) := by
  by_cases hread : s.dec.offset+1 ≤ env.pkt.length
  · cases hstr : strAt env.pkt rdEnd s.dec.offset with
    | none =>
      obtain ⟨c, u, hx⟩ := strField_exit field label w rc load hread hstr
      rw [hx] at h
      cases h
    | some str =>
      by_cases hfit : w ≤ dnsMsgSize
      · rw [strField_run he hl hrd hread hstr hfit] at h
        cases h
        exact ⟨str, rfl, hfit, rfl, rfl⟩
      · rw [strField_over he hrd hread hstr (by omega) hw] at h
        cases h
  · unfold strField at h
    rw [bind_of_ok (getOffset_run s), bind_of_fault (readBytes_over env (by omega) s)] at h
    cases h

theorem strField_writes {field : DnsLocation} {label : Bytes} {rdEnd w : ℕ} {rc : ℤ}
    {load : Bytes → Dec Unit} (f : ℕ × ℤ → Dec α) (s : DecState) (he : env.needEmsg = true)
    (hl : env.loadMsg = false) (hrd : rdEnd ≤ env.pkt.length)
    (hread : s.dec.offset+1 ≤ env.pkt.length) (hw' : w ≤ 2^64) :
    Avoids isMsgWrite (strField env field label rdEnd w rc load >>= f) s ↔
      ∀ str, strAt env.pkt rdEnd s.dec.offset = some str → w ≤ dnsMsgSize ∧
        Avoids isMsgWrite (f (w+(label ++ cstr str).length, (label ++ cstr str).length))
          (moveTo (put (moveTo s (s.dec.offset+1)) w (cut w (label ++ cstr str)))
            (s.dec.offset+1+str.length)) := by
  cases hstr : strAt env.pkt rdEnd s.dec.offset with
  | none =>
    obtain ⟨c, t, hx⟩ := strField_exit field label w rc load hread hstr
    exact iff_of_true (avoids_of_exit (bind_of_exit hx f)) (by simp)
  | some str =>
    simp only [Option.some.injEq, forall_eq']
    by_cases hw : w ≤ dnsMsgSize
    · rw [avoids_bind_of_ok (strField_run he hl hrd hread hstr hw)]
      simp only [hw, true_and]
    · rw [avoids_of_fault (bind_of_fault (strField_over he hrd hread hstr (by omega) hw') f)]
      simp [isMsgWrite, hw]

end Step

theorem valText_length_le (b : Bytes) : ∀ v ∈ soaVals b, (valText v).length ≤ 19 := by
  have hd (x : UInt32) : (decimal x.toNat).length ≤ 10 :=
    decimal_length_le _ _ (by decide) (lt_of_lt_of_le x.toNat_lt (by decide))
  intro v hv
  have hlabel : (ascii v.1).length ≤ 7 := by
    simp only [soaVals, List.mem_cons, List.not_mem_nil, or_false] at hv
    rcases hv with rfl | rfl | rfl | rfl | rfl <;> dsimp only <;> decide
  have hval := hd v.2
  simp only [valText, List.length_append, show (ascii " ").length = 1 from rfl,
    show (ascii "=").length = 1 from rfl]
  omega

section Kinds

variable {env : DecEnv} (he : env.needEmsg = true) (hl : env.loadMsg = false)
include he

theorem describeVals_writes (vals : List (String × UInt32)) (w : ℕ) (rc : ℤ) (s : DecState)
    (hw : w ≤ 2^63) (hlen : ∀ v ∈ vals, (valText v).length ≤ 2^32) :
    Avoids isMsgWrite (describeVals env vals w rc) s ↔ Fits env.pkt w (valPieces vals) := by
  induction vals generalizing w rc s with
  | nil => simp [describeVals, valPieces, Fits]
  | cons v rest ih =>
    have hv := hlen v (List.mem_cons_self ..)
    unfold valText at hv
    simp only [describeVals, valPieces, List.map_cons, Fits]
    rw [describe_writes he (by omega)]
    refine and_congr_right fun hfit => ?_
    rw [show (dnsMsgSize : ℕ) = 1124 from rfl] at hfit
    exact ih _ _ _ (by omega) fun u hu => hlen u (List.mem_cons_of_mem _ hu)

include hl in
theorem rdataSoa_writes (sc : Sect) (w rdEnd : ℕ) (rc : ℤ) (s : DecState) (hw : w ≤ dnsMsgSize)
    (hrd : rdEnd ≤ env.pkt.length) :
    Avoids isMsgWrite (rdataSoa env sc w rdEnd rc) s ↔
      Fits env.pkt w (soaPieces env.pkt rdEnd s.dec.offset) := by
  rw [show (dnsMsgSize : ℕ) = 1124 from rfl] at hw
  have hnone : ¬ env.loadMsg = true := by simp [hl]
  unfold rdataSoa soaPieces
  simp only [List.cons_append, List.nil_append, Fits]
  rw [describe_writes he (by omega)]
  refine and_congr_right fun _ => ?_
  rw [show (ascii "MNAME=").length = 6 from rfl]
  dsimp only
  rw [name_writes, put_offset]
  refine and_congr_right fun _ => forall_congr' fun hw1 => forall₂_congr fun m e1 =>
    forall_congr' fun hn1 => forall_congr' fun hfit1 => ?_
  rw [avoids_bind_of_ok (loadName_validate hl _ _ _ _),
    describe_writes he (by rw [show (dnsMsgSize : ℕ) = 1124 from rfl] at hfit1; omega)]
  refine and_congr_right fun hw2 => ?_
  rw [show (ascii " RNAME=").length = 7 from rfl]
  dsimp only
  obtain ⟨-, -, -, -, he1⟩ := hn1
  simp only [he1, Fits]
  rw [name_writes, put_offset, moveTo_offset]
  refine and_congr_right fun _ => forall_congr' fun hw3 => forall₂_congr fun r e2 =>
    forall_congr' fun hn2 => forall_congr' fun hfit2 => ?_
  obtain ⟨-, -, -, -, he2⟩ := hn2
  rw [when_neg hnone, avoids_bind_of_ok (pure_run _ _), avoids_bind_of_ok (getOffset_run _),
    guard_writes]
  simp only [he2, moveTo_offset]
  by_cases hin : rdEnd < e2+20
  · simp [hin, Fits]
  · simp only [hin, not_false_eq_true, forall_true_left, if_false]
    rw [readBytes_writes]
    simp only [show e2+20 ≤ env.pkt.length by omega, or_true, forall_true_left]
    rw [avoids_bind_of_ok (advance_run _ _), avoids_bind]
    refine (and_iff_left fun p t _ => ?_).trans (describeVals_writes he _ _ _ _ ?_ ?_)
    · exact avoids_seq ((avoids_when _ _ _).mpr fun h => absurd h hnone) fun _ _ _ =>
        avoids_pure _ _
    · rw [show (dnsMsgSize : ℕ) = 1124 from rfl] at hfit2
      omega
    · exact fun v hv => (valText_length_le _ v hv).trans (by omega)

include hl in
theorem rdataHinfo_writes (sc : Sect) (h : RrHdr) (w rdEnd : ℕ) (rc : ℤ) (s : DecState)
    (hw : w ≤ dnsMsgSize) (hrd : rdEnd ≤ env.pkt.length)
    (hread : 2 ≤ h.rdlen.toNat → s.dec.offset+1 ≤ env.pkt.length) :
    Avoids isMsgWrite (rdataHinfo env sc h w rdEnd rc) s ↔
      Fits env.pkt w
        (if h.rdlen.toNat < 2 then [] else hinfoPieces env.pkt rdEnd s.dec.offset) := by
  rw [show (dnsMsgSize : ℕ) = 1124 from rfl] at hw
  unfold rdataHinfo
  rw [guard_writes]
  by_cases hlen : h.rdlen.toNat < 2
  · simp [hlen, Fits]
  simp only [hlen, not_false_eq_true, forall_true_left, if_false]
  rw [strField_writes _ s he hl hrd (hread (by omega)) (by omega), hinfoPieces]
  cases hcpu : strAt env.pkt rdEnd s.dec.offset with
  | none => simp [Fits]
  | some cpu =>
    have hcpulen := (strAt_length hrd hcpu).1
    have hbyte := ((slice env.pkt s.dec.offset 1).getD 0 0).toNat_lt
    have hcstr := cstr_length_le cpu
    simp only [Option.some.injEq, forall_eq', Fits, List.length_append,
      show (ascii " cpu=").length = 5 from rfl]
    refine and_congr_right fun _ => ?_
    rw [avoids_bind_of_ok (getOffset_run _), guard_writes]
    simp only [moveTo_offset]
    by_cases hend : rdEnd ≤ s.dec.offset+1+cpu.length
    · simp [hend, Fits]
    simp only [hend, not_false_eq_true, forall_true_left, if_false]
    rw [strField_writes _ _ he hl hrd (by rw [moveTo_offset]; omega) (by omega), moveTo_offset]
    cases hos : strAt env.pkt rdEnd (s.dec.offset+1+cpu.length) with
    | none => simp [Fits]
    | some os => simp [Fits]

include hl in
theorem txtLoop_writes (sc : Sect) (rdEnd k w : ℕ) (rc : ℤ) (s : DecState) (hw : w ≤ 2^32)
    (hrd : rdEnd ≤ env.pkt.length) :
    Avoids isMsgWrite (txtLoop env sc rdEnd k w rc) s ↔
      Fits env.pkt w (txtPieces env.pkt rdEnd k s.dec.offset) := by
  induction k generalizing w rc s with
  | zero => simp [txtLoop, txtPieces, Fits]
  | succ k ih =>
    simp only [txtLoop, txtPieces]
    rw [avoids_bind_of_ok (getOffset_run s)]
    by_cases hin : s.dec.offset < rdEnd
    · simp only [hin, if_true]
      rw [strField_writes _ s he hl hrd (by omega) (by omega)]
      cases hstr : strAt env.pkt rdEnd s.dec.offset with
      | none => simp [Fits]
      | some str =>
        have hlen := (strAt_length hrd hstr).1
        have hbyte := ((slice env.pkt s.dec.offset 1).getD 0 0).toNat_lt
        have hcstr := cstr_length_le str
        simp only [Option.some.injEq, forall_eq', Fits, List.length_append,
          show (ascii " txt=").length = 5 from rfl]
        refine and_congr_right fun hfit => ?_
        rw [show (dnsMsgSize : ℕ) = 1124 from rfl] at hfit
        rw [ih _ _ _ (by omega), moveTo_offset]
    · simp [hin, Fits]

include hl in
theorem rdataNumsName_writes (sc : Sect) (h : RrHdr) (field : DnsLocation) (len : ℕ)
    (text : Bytes → Bytes) (setNums : Bytes → Rdata Ptr → Rdata Ptr)
    (setName : Ptr → Rdata Ptr → Rdata Ptr) (w : ℕ) (rc : ℤ) (s : DecState)
    (hw : w ≤ dnsMsgSize)
    (hread : len+1 ≤ h.rdlen.toNat → s.dec.offset+len ≤ env.pkt.length) :
    Avoids isMsgWrite
        (rdataNumsName env sc h field len text setNums setName w s.dec.offset rc) s ↔
      Fits env.pkt w (if h.rdlen.toNat < len+1 then []
        else [.text (text (slice env.pkt s.dec.offset len)).length,
          .name (s.dec.offset+len)]) := by
  rw [show (dnsMsgSize : ℕ) = 1124 from rfl] at hw
  have hnone : ¬ env.loadMsg = true := by simp [hl]
  unfold rdataNumsName
  rw [guard_writes]
  by_cases hlen : h.rdlen.toNat < len+1
  · simp [hlen, Fits]
  simp only [hlen, not_false_eq_true, forall_true_left, if_false, Fits]
  rw [readBytes_writes]
  simp only [hread (by omega), or_true, forall_true_left]
  rw [avoids_bind_of_ok (advance_run _ _), describe_writes he (by omega)]
  refine and_congr_right fun _ => ?_
  dsimp only
  rw [name_writes, put_offset, moveTo_offset]
  refine and_congr_right fun _ => forall_congr' fun _ => forall₂_congr fun m e =>
    forall_congr' fun _ => forall_congr' fun _ => iff_of_true ?_ trivial
  exact avoids_seq ((avoids_when _ _ _).mpr fun h => absurd h hnone) fun _ _ _ =>
    avoids_seq (avoids_of_ok (loadName_validate hl _ _ _ _)) fun _ _ _ => avoids_pure _ _

include hl in
theorem rdataMx_writes (sc : Sect) (h : RrHdr) (w : ℕ) (rc : ℤ) (s : DecState)
    (hw : w ≤ dnsMsgSize) (hread : 3 ≤ h.rdlen.toNat → s.dec.offset+2 ≤ env.pkt.length) :
    Avoids isMsgWrite (rdataMx env sc h w s.dec.offset rc) s ↔
      Fits env.pkt w (if h.rdlen.toNat < 3 then []
        else [.text (mxText (decU16 (slice env.pkt s.dec.offset 2))).length,
          .name (s.dec.offset+2)]) := by
  rw [rdataMx_eq]
  exact rdataNumsName_writes he hl sc h _ _ _ _ _ w rc s hw hread

include hl in
theorem rdataSrv_writes (sc : Sect) (h : RrHdr) (w : ℕ) (rc : ℤ) (s : DecState)
    (hw : w ≤ dnsMsgSize) (hread : 7 ≤ h.rdlen.toNat → s.dec.offset+6 ≤ env.pkt.length) :
    Avoids isMsgWrite (rdataSrv env sc h w s.dec.offset rc) s ↔
      Fits env.pkt w (if h.rdlen.toNat < 7 then []
        else [.text (srvText (slice env.pkt s.dec.offset 6)).length, .name (s.dec.offset+6)]) := by
  rw [rdataSrv_eq]
  exact rdataNumsName_writes he hl sc h _ _ _ _ _ w rc s hw hread

theorem rdataAddr_writes (start w : ℕ) (rc : ℤ) (s : DecState) (hw : w ≤ dnsMsgSize) :
    Avoids isMsgWrite (describeIp env start w rc) s := by
  unfold describeIp
  rw [sizeLeft_of_le hw]
  split_ifs with hroom
  · exact avoids_pure _ _
  · rw [readBytes_writes]
    intro _
    have := ip4Str_length_le (slice env.pkt start 4)
    rw [show ip4AddrStrlen = 16 from rfl] at hroom
    rw [avoids_bind_of_ok (putMsg_run (by simp; omega) s)]
    exact avoids_pure _ _

include hl in
/-- A record type whose description is one piece stays inside the buffer. -/
theorem rrRdata_single (sc : Sect) (h : RrHdr) (w rdEnd : ℕ) (rc : ℤ) (s : DecState)
    (hw : w ≤ dnsMsgSize)
    (hk : rrKind h.rrType ∉ [RrKind.soa, .hinfo, .mx, .txt, .srv]) :
    Avoids isMsgWrite (rrRdata env sc h w s.dec.offset rdEnd rc) s := by
  have hnone : ¬ env.loadMsg = true := by simp [hl]
  have hname (field : DnsLocation) (f : ℕ → Ptr → Rdata Ptr → Rdata Ptr) :
      Avoids isMsgWrite (rdataName env sc field f w) s :=
    avoids_seq (nameField_avoids env field hw _ s) fun _ _ _ =>
      avoids_seq (avoids_of_ok (loadName_validate hl _ _ _ _)) fun _ _ _ => avoids_pure _ _
  have hskip : Avoids isMsgWrite (rdataSkip h rc) s :=
    avoids_seq (avoids_modify _ _) fun _ _ _ => avoids_pure _ _
  unfold rrRdata
  cases hkind : rrKind h.rrType with
  | a =>
    exact (guard_writes _ _ _ _ _).mpr fun _ =>
      avoids_seq ((avoids_when _ _ _).mpr fun h => absurd h hnone) fun _ _ _ =>
      avoids_seq (avoids_modify _ _) fun _ t _ => rdataAddr_writes he _ _ _ t hw
  | aaaa =>
    exact (guard_writes _ _ _ _ _).mpr fun _ => avoids_seq (avoids_modify _ _) fun _ _ _ =>
      avoids_seq ((avoids_when _ _ _).mpr fun h => absurd h hnone) fun _ t _ =>
      rdataAddr_writes he _ _ _ t hw
  | ns => exact hname _ _
  | cname => exact hname _ _
  | ptr => exact hname _ _
  | opt =>
    refine (guard_writes _ _ _ _ _).mpr fun _ => ?_
    rw [when_neg hnone, avoids_bind_of_ok (pure_run _ _), avoids_bind_of_ok (get_run _),
      avoids_bind_of_ok (snprintf_run hw _ _)]
    exact avoids_seq (avoids_modify _ _) fun _ _ _ => avoids_pure _ _
  | any => exact hskip
  | other => exact hskip
  | soa => simp [hkind] at hk
  | hinfo => simp [hkind] at hk
  | mx => simp [hkind] at hk
  | txt => simp [hkind] at hk
  | srv => simp [hkind] at hk

include hl in
theorem rrRdata_writes (sc : Sect) (h : RrHdr) (w rdEnd : ℕ) (rc : ℤ) (s : DecState)
    (hw : w ≤ dnsMsgSize) (hrd : rdEnd ≤ env.pkt.length)
    (hfix : s.dec.offset+fixedLen env h w ≤ env.pkt.length) :
    Avoids isMsgWrite (rrRdata env sc h w s.dec.offset rdEnd rc) s ↔
      Fits env.pkt w (pieces env.pkt h s.dec.offset rdEnd) := by
  by_cases hk : rrKind h.rrType ∈ [RrKind.soa, .hinfo, .mx, .txt, .srv]
  · simp only [List.mem_cons, List.not_mem_nil, or_false] at hk
    unfold rrRdata pieces
    rcases hk with hk | hk | hk | hk | hk
    · simp only [hk]
      exact rdataSoa_writes he hl sc w rdEnd rc s hw hrd
    · simp only [hk]
      refine rdataHinfo_writes he hl sc h w rdEnd rc s hw hrd fun hlen => ?_
      simpa [fixedLen, hk, hlen] using hfix
    · simp only [hk]
      refine rdataMx_writes he hl sc h w rc s hw fun hlen => ?_
      simpa [fixedLen, hk, hlen] using hfix
    · simp only [hk]
      rw [show (dnsMsgSize : ℕ) = 1124 from rfl] at hw
      rw [rdataTxt, avoids_bind, txtLoop_writes he hl sc rdEnd _ w rc s (by omega) hrd]
      exact and_iff_left fun _ _ _ => avoids_pure _ _
    · simp only [hk]
      refine rdataSrv_writes he hl sc h w rc s hw fun hlen => ?_
      simpa [fixedLen, hk, hlen] using hfix
  · refine iff_of_true (rrRdata_single he hl sc h w rdEnd rc s hw hk) ?_
    unfold pieces
    cases hkind : rrKind h.rrType <;> simp_all [Fits]

omit he in
theorem rrReport_writes (sc : Sect) (h : RrHdr) (out : RdataOut) (s : DecState) :
    Avoids isMsgWrite (rrReport env sc h out) s := by
  have hstr (w : ℕ) (t : DecState) : Avoids isMsgWrite (msgStr w) t :=
    (msgStr_avoids w _ t).mpr (.inr id)
  unfold rrReport
  split
  · refine avoids_seq ?_ fun _ t _ => avoids_seq ?_ fun _ u _ => dnsWmsg_avoids _ _ _ u
    · unfold nameText
      split
      · exact avoids_pure _ _
      · exact hstr 0 s
    · cases out.desc with
      | empty => exact avoids_pure _ _
      | scratch w => exact hstr w t
      | unknown => exact avoids_pure _ _
  · exact avoids_pure _ _

include hl in
theorem rrTail_writes (sc : Sect) (h : RrHdr) (n rdEnd : ℕ) (s : DecState)
    (hw : n+1 ≤ dnsMsgSize) (hs : s.dec.offset ≤ env.pkt.length)
    (hrd : rdEnd ≤ env.pkt.length) :
    Avoids isMsgWrite (rrTail env sc h n s.dec.offset rdEnd) s ↔
      (s.dec.offset+fixedLen env h (n+1) ≤ env.pkt.length →
        Fits env.pkt (n+1) (pieces env.pkt h s.dec.offset rdEnd)) := by
  have hrest : Avoids isMsgWrite (rrTail env sc h n s.dec.offset rdEnd) s ↔
      Avoids isMsgWrite (rrRdata env sc h (n+1) s.dec.offset rdEnd n) s := by
    rw [rrTail, avoids_bind]
    exact and_iff_left fun out t _ => avoids_seq (avoids_of_ok (getOffset_run t)) fun _ _ _ =>
      (guard_writes _ _ _ _ _).mpr fun _ =>
      avoids_seq ((avoids_when _ _ _).mpr fun _ => avoids_modify _ _) fun _ _ _ =>
      rrReport_writes _ _ _ _
  rw [hrest]
  by_cases hfix : s.dec.offset+fixedLen env h (n+1) ≤ env.pkt.length
  · simp only [hfix, forall_true_left]
    exact rrRdata_writes he hl sc h (n+1) rdEnd n s hw hrd hfix
  · refine iff_of_true (fun c hc hw' => ?_) fun h => absurd h hfix
    -- The run ends at the read outside the packet, before anything is described.
    have hread := mt (rrRdata_reads sc h (n+1) rdEnd n hw hs hrd).mp hfix
    rw [avoids_pktRead] at hread
    push Not at hread
    obtain ⟨i, hi⟩ := hread
    rw [hi] at hc
    cases hc
    exact hw'

end Kinds

/-- The description of the record at the decoder's offset: unless the fixed
part of the RDATA is already outside the packet, no piece of it starts past
the scratch buffer. -/
def DescriptionFits (env : DecEnv) (v : Sect × DecState) : Prop :=
  ∀ text e, Entry env v.1 v.2 text e →
    e+10+fixedLen env (hdrAt env.pkt e) ((shown text).length+1) ≤ env.pkt.length →
    Fits env.pkt ((shown text).length+1)
      (pieces env.pkt (hdrAt env.pkt e) (e+10) (rdEndAt env.pkt e))

theorem dnsRrDecode_writes {env : DecEnv} (he : env.needEmsg = true) (hl : env.loadMsg = false)
    (v : Sect × DecState) :
    Avoids isMsgWrite (dnsRrDecode env v.1) v.2 ↔ DescriptionFits env v := by
  unfold dnsRrDecode DescriptionFits
  rw [avoids_call]
  by_cases h : ∃ text e, Entry env v.1 v.2 text e
  · obtain ⟨text, e, h⟩ := h
    have htail := rrTail_writes he hl v.1 (hdrAt env.pkt e) (shown text).length
      (rdEndAt env.pkt e) (entered env v.1 v.2 text e) h.room h.hdr h.rdata
    rw [Avoids, rrBody_entered h]
    refine htail.trans ⟨fun hin text' e' h' => ?_, fun hin => hin text e h⟩
    obtain ⟨rfl, rfl⟩ := h.unique h'
    exact hin
  · push Not at h
    obtain ⟨c, t, hx⟩ := rrBody_rejected h
    exact iff_of_true (avoids_of_exit hx) fun text e he => absurd he (h text e)

theorem avoids_msgWrite {α : Type} (x : Dec α) (s : DecState) :
    Avoids isMsgWrite x s ↔ ∀ i, x s ≠ .fault (.msgWrite i) := by
  constructor
  · exact fun h i hi => h _ hi trivial
  · intro h c hc hp
    cases c with
    | msgWrite i => exact h i hc
    | _ => exact hp

/-- The scratch buffer is never overrun exactly when the description of every
decoded record fits. -/
theorem scratch_inside_iff (pkt : Bytes) (emsgLen : ℕ) :
    (∀ i, dnsValidate pkt emsgLen ≠ .fault (.msgWrite i)) ↔
      ∀ v ∈ recordVisits (validateEnv pkt emsgLen) (zeroMsg 0),
        DescriptionFits (validateEnv pkt emsgLen) v := by
  rw [dnsValidate, ← avoids_msgWrite, validateRun_avoids]
  have hrec (v : Sect × DecState) := @dnsRrDecode_writes (validateEnv pkt emsgLen) rfl rfl v
  simp only [hrec]

/-- A `SOA` record whose owner name of 369 characters is also its `MNAME` and
its `RNAME`. -/
def soaPkt : Bytes :=
  responseHdr 1 0 0 ++ (List.replicate 5 (63 :: List.replicate 63 97)).flatten ++
    48 :: List.replicate 48 97 ++
    [0, 0, 6, 0, 1, 0, 0, 0, 60, 0, 24, 0xc0, 12, 0xc0, 12] ++ List.replicate 20 255

theorem soa_overruns_scratch :
    (dnsMsgSize : ℕ) = 1124 ∧ dnsValidate soaPkt 4096 = .fault (.msgWrite 1136) :=
  ⟨rfl, Outcome.eq_fault (by decide +kernel)⟩

end DnsPkt.ScratchBounds
