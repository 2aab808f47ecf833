import DnsPkt.OptRoundTrip

/-!
# What a record of a message says

The text of a record is its fields with strings in place of pointers, and its
names without their case: the root is a name that is empty or a dot. A slot
shows its text where no pointer is null. A written record has the text of its
slot, except for the fields that the encoding of `OPT` changes.
-/

set_option autoImplicit false

namespace DnsPkt.RecordText
open DnsPkt.Octets DnsPkt.Protocol DnsPkt.MessageStore DnsPkt.MessageSlots DnsPkt.NameCompression
open DnsPkt.MessageBuild DnsPkt.EncodedMessage DnsPkt.RecordDecoder DnsPkt.RecordRun
open DnsPkt.RecordView DnsPkt.WrittenRecord DnsPkt.LoadedRecord DnsPkt.OptRoundTrip

def canonName (name : Bytes) : Bytes := fold (shown name)

def RdView.canon : RdView → RdView
  | .name n => .name (canonName n)
  | .soa m r serial refresh retry expire minTtl =>
    .soa (canonName m) (canonName r) serial refresh retry expire minTtl
  | .mx pref n => .mx pref (canonName n)
  | .srv prior weight port n => .srv prior weight port (canonName n)
  | v => v

def RrView.canon (v : RrView) : RrView :=
  { v with name := canonName v.name, rdata := RdView.canon v.rdata }

theorem shown_shown (text : Bytes) : shown (shown text) = shown text := by
  have hpos := shown_pos text
  rw [shown, if_neg fun h => by simp [h] at hpos]

def textOf (st : NameStore) (p : Ptr) : Bytes := (st.str p).getD []

def rdText (st : NameStore) (rrType : UInt16) (r : Rdata Ptr) : RdView :=
  match rrKind rrType with
  | .a => .a r.a
  | .ns => .name (textOf st r.nsName)
  | .cname => .name (textOf st r.cname)
  | .soa => .soa (textOf st r.soaMname) (textOf st r.soaRname) r.soaSerial r.soaRefresh r.soaRetry
      r.soaExpire r.soaMinTtl
  | .ptr => .name (textOf st r.ptrName)
  | .hinfo => .hinfo (textOf st r.hinfoCpuStr) (textOf st r.hinfoOsStr)
  | .mx => .mx r.mxPref (textOf st r.mxName)
  | .txt => .txt ((txtPtrs r).map (textOf st))
  | .aaaa => .aaaa r.aaaa
  | .srv => .srv r.srvPrior r.srvWeight r.srvPort (textOf st r.srvName)
  | .opt => .opt r.optUdpSize r.optExtRcode r.optEdnsVer r.optDoBit r.optZBits
  | .any | .other => .none

def rrText (st : NameStore) (r : DnsRr Ptr) : RrView :=
  ⟨textOf st r.name, r.rrType, r.rrClass, r.ttl, rdText st r.rrType r.rdata⟩

def Present (st : NameStore) (r : DnsRr Ptr) : Prop := ∀ p ∈ rrPtrs r, (st.str p).isSome

structure SameRr (st st' : NameStore) (r r' : DnsRr Ptr) : Prop where
  there : Present st r
  back : Present st' r'
  text : RrView.canon (rrText st' r') = RrView.canon (rrText st r)

theorem points_text {st : NameStore} {ps : List Ptr} {xs : List Bytes}
    (h : List.Forall₂ (Points st) ps xs) :
    (∀ p ∈ ps, (st.str p).isSome) ∧ xs = ps.map (textOf st) := by
  induction h with
  | nil => exact ⟨fun p hp => absurd hp List.not_mem_nil, rfl⟩
  | @cons p x ps xs hp _ ih =>
    have hstr : st.str p = some x := hp
    refine ⟨List.forall_mem_cons.mpr ⟨by rw [hstr]; rfl, ih.1⟩, ?_⟩
    rw [List.map_cons, ← ih.2, textOf, hstr]
    rfl

theorem rdText_fields (st : NameStore) (rrType : UInt16) (r : Rdata Ptr) :
    RdFields (rrKind rrType) r (rdText st rrType r) ∧
      (rdText st rrType r).strs = (rdPtrs rrType r).map (textOf st) := by
  unfold rdText RdFields rdPtrs rdNames rdStrs
  cases hk : rrKind rrType <;> simp [RdView.strs]

/-- The numbers of a slot and the strings determine a view. -/
theorem rdFields_unique {k : RrKind} {r : Rdata Ptr} {v v' : RdView} (h : RdFields k r v)
    (h' : RdFields k r v') (hstrs : v.strs = v'.strs) : v = v' := by
  unfold RdFields at h h'
  cases k with
  | a | aaaa | opt | any | other =>
    rw [h, h']
  | ns | cname | ptr | mx | srv | txt =>
    obtain ⟨x, rfl⟩ := h
    obtain ⟨y, rfl⟩ := h'
    simpa [RdView.strs] using hstrs
  | hinfo | soa =>
    obtain ⟨x, x', rfl⟩ := h
    obtain ⟨y, y', rfl⟩ := h'
    simpa [RdView.strs] using hstrs

/-- A slot that shows a view has it as its text. -/
theorem shows_text {st : NameStore} {r : DnsRr Ptr} {v : RrView} (h : RrShows st r v) :
    Present st r ∧ rrText st r = v := by
  obtain ⟨name, rrType, rrClass, ttl, rdata⟩ := v
  obtain ⟨hname, rfl, rfl, rfl, hfields, hstrs⟩ := h
  dsimp only at hname hfields hstrs
  obtain ⟨hsome, hall⟩ := points_text hstrs
  obtain ⟨hfirst, howner⟩ := points_text (.cons hname .nil)
  obtain ⟨hfields', hall'⟩ := rdText_fields st r.rrType r.rdata
  refine ⟨fun p hp => ?_, ?_⟩
  · rcases List.mem_cons.mp hp with rfl | hp
    · exact hfirst _ List.mem_cons_self
    · exact hsome p hp
  · rw [rrText, rdFields_unique hfields' hfields (hall'.trans hall.symm),
      ← List.singleton_inj.mp howner]

/-- The fields of an `OPT` record that its encoding keeps: the halves of the packed TTL
are the same, and the generic fields are those that it is written to. -/
structure PlainOpt (r : DnsRr Ptr) : Prop where
  rrClass : r.rrClass = 0
  high : r.rdata.optExtRcode.toNat*2^8+r.rdata.optEdnsVer.toNat = flagHalf r.rdata
  ttl : r.ttl.toNat = flagHalf r.rdata*2^16+flagHalf r.rdata

theorem canon_name {st : NameStore} {p : Ptr} {x : Bytes} (h : NameWritten st p x) :
    canonName x = canonName (textOf st p) := by
  obtain ⟨ls, ls', hn, hs, rfl⟩ := h
  rw [canonName, canonName, shown_shown, textOf, hn.text]
  have hlen := length_dotted_same hs
  have hfold : fold (dotted ls') = fold (dotted ls) := by rw [fold_dotted, fold_dotted, hs]
  by_cases h : dotted ls = []
  · have h' : dotted ls' = [] := by
      rw [h] at hlen
      exact List.eq_nil_of_length_eq_zero hlen
    rw [h, h']
  · have h' : dotted ls' ≠ [] := fun h' =>
      h (List.eq_nil_of_length_eq_zero (by rw [← hlen, h']; rfl))
    rw [shown, shown, if_neg h, if_neg h', hfold]

theorem strOf_text {st : NameStore} {ps : List Ptr} {xs : List Bytes}
    (h : List.Forall₂ (StrOf st) ps xs) : xs = ps.map (textOf st) := by
  induction h with
  | nil => rfl
  | cons hp _ ih => rw [List.map_cons, ← ih, textOf, hp.2]

theorem wire_opt {r : DnsRr Ptr} (hk : rrKind r.rrType = .opt) :
    (r.rrClass = 0 ∧ wireTtl r = r.ttl ∧ optView (wireHdr r 0) = .opt r.rdata.optUdpSize
      r.rdata.optExtRcode r.rdata.optEdnsVer r.rdata.optDoBit r.rdata.optZBits) ↔ PlainOpt r := by
  have httl := wireTtl_opt hk
  have hlt := flagHalf_lt r.rdata
  constructor
  · rintro ⟨hc, ht, hv⟩
    obtain ⟨h1, h2⟩ := (sameOpt_iff hk hv).mp ⟨rfl, rfl, rfl, rfl, rfl⟩
    rw [ht] at httl
    exact ⟨hc, h1, by omega⟩
  · rintro ⟨hc, h1, ht⟩
    have hlow : r.ttl.toNat % 2^16 = flagHalf r.rdata := by omega
    let h := wireHdr r 0
    obtain ⟨e1, e2, e3, e4, e5⟩ := (sameOpt_iff hk (r := { r.rdata with
      optUdpSize := h.rrClass
      optExtRcode := optExtRcode h.ttl
      optEdnsVer := optVersion h.ttl
      optDoBit := optDoBit h.ttl
      optZBits := optZBits h.ttl }) rfl).mpr ⟨h1, hlow⟩
    refine ⟨hc, UInt32.toNat_inj.mp (by omega), ?_⟩
    rw [← e1, ← e2, ← e3, ← e4, ← e5]
    rfl

theorem canon_rdata {st : NameStore} {r : DnsRr Ptr} {h : RrHdr} {v : RdView}
    (hv : RdWritten st r h v) (hk : rrKind r.rrType ≠ .opt) :
    RdView.canon v = RdView.canon (rdText st r.rrType r.rdata) := by
  have hfields := hv.fields
  rw [if_neg hk] at hfields
  obtain ⟨ns, ss, hstrs, hns, hss⟩ := hv.strs
  rw [strOf_text hss] at hstrs
  clear hss
  unfold rdText
  unfold RdFields at hfields
  unfold rdNames at hns
  unfold rdStrs at hstrs
  cases hkind : rrKind r.rrType with
  | opt => exact absurd hkind hk
  | a | aaaa | any | other =>
    simp only [hkind] at hfields ⊢
    rw [hfields]
  | ns | cname | ptr | mx | srv =>
    simp only [hkind] at hfields hns hstrs ⊢
    obtain ⟨x, rfl⟩ := hfields
    cases hns with
    | cons hx hnil =>
      cases hnil
      obtain rfl := List.singleton_inj.mp hstrs
      simp only [RdView.canon, canon_name hx]
  | soa =>
    simp only [hkind] at hfields hns hstrs ⊢
    obtain ⟨x, y, rfl⟩ := hfields
    cases hns with
    | cons hx hrest =>
      cases hrest with
      | cons hy hnil =>
        cases hnil
        obtain ⟨rfl, hrest⟩ := List.cons.inj hstrs
        obtain rfl := List.singleton_inj.mp hrest
        simp only [RdView.canon, canon_name hx, canon_name hy]
  | hinfo =>
    simp only [hkind] at hfields hns hstrs ⊢
    cases hns
    obtain ⟨x, y, rfl⟩ := hfields
    obtain ⟨rfl, hrest⟩ := List.cons.inj hstrs
    obtain rfl := List.singleton_inj.mp hrest
    rfl
  | txt =>
    simp only [hkind] at hfields hns hstrs ⊢
    cases hns
    obtain ⟨strs, rfl⟩ := hfields
    rw [show strs = (txtPtrs r.rdata).map (textOf st) from hstrs]

/-- A written record has the text of its slot, except that the encoding of `OPT` keeps
plain ones only. -/
theorem canon_written {st : NameStore} {r : DnsRr Ptr} {v : RrView} (h : WrittenView st r v) :
    RrView.canon v = RrView.canon (rrText st r) ↔ (rrKind r.rrType = .opt → PlainOpt r) := by
  obtain ⟨name, rrType, rrClass, ttl, rdata⟩ := v
  obtain ⟨hname, rfl, hclass, httl, hrd⟩ := h
  dsimp only at hname hclass httl hrd
  simp only [RrView.canon, rrText, RrView.mk.injEq, canon_name hname, true_and]
  by_cases hk : rrKind r.rrType = .opt
  · have hview := hrd.fields
    rw [if_pos hk] at hclass hview
    have htext : rdText st r.rrType r.rdata = .opt r.rdata.optUdpSize r.rdata.optExtRcode
        r.rdata.optEdnsVer r.rdata.optDoBit r.rdata.optZBits := by
      rw [rdText, hk]
    rw [htext, hview, hclass, httl, eq_comm, ← wire_opt hk]
    exact ⟨fun h _ => h, fun h => h hk⟩
  · rw [if_neg hk] at hclass
    rw [hclass, httl, wireTtl, if_neg hk, canon_rdata hrd hk]
    exact ⟨fun _ h => absurd h hk, fun _ => ⟨rfl, rfl, rfl⟩⟩

def nameRoom (st : NameStore) (p : Ptr) : ℕ := (shown (textOf st p)).length+1

def strRoom (st : NameStore) (p : Ptr) : ℕ := (textOf st p).length+1

/-- The owner of an `OPT` record is stored twice. -/
def rrRoom (st : NameStore) (r : DnsRr Ptr) : ℕ :=
  (if rrKind r.rrType = .opt then nameRoom st r.name else 0)+nameRoom st r.name+
    ((rdNames r.rrType r.rdata).map (nameRoom st)).sum+
    ((rdStrs r.rrType r.rdata).map (strRoom st)).sum

theorem length_written {st : NameStore} {p : Ptr} {x : Bytes} (h : NameWritten st p x) :
    x.length+1 = nameRoom st p := by
  have hcanon := congrArg List.length (canon_name h)
  obtain ⟨ls, ls', -, -, rfl⟩ := h
  rw [canonName, canonName, length_fold, length_fold, shown_shown] at hcanon
  rw [hcanon, nameRoom]

theorem names_room {st : NameStore} {ps : List Ptr} {xs : List Bytes}
    (h : List.Forall₂ (NameWritten st) ps xs) : storeSize xs = (ps.map (nameRoom st)).sum := by
  induction h with
  | nil => rfl
  | cons hx _ ih => rw [storeSize_cons, ih, length_written hx, List.map_cons, List.sum_cons]

theorem strs_room (st : NameStore) (ps : List Ptr) :
    storeSize (ps.map (textOf st)) = (ps.map (strRoom st)).sum := by
  rw [storeSize, List.map_map]
  rfl

theorem room_written {st : NameStore} {r : DnsRr Ptr} {v : RrView} (h : WrittenView st r v) :
    storeSize (loadedStrs v) = rrRoom st r := by
  obtain ⟨ns, ss, hstrs, hns, hss⟩ := h.rdata.strs
  rw [loadedStrs, storeSize_append, storeSize_cons, hstrs, storeSize_append, names_room hns,
    strOf_text hss, strs_room, length_written h.name, h.rrType, rrRoom]
  split
  · rw [storeSize_cons, length_written h.name]
    simp only [storeSize, List.map_nil, List.sum_nil]
    omega
  · simp only [storeSize, List.map_nil, List.sum_nil]
    omega

end DnsPkt.RecordText
