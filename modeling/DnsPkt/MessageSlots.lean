import DnsPkt.MessageStore

/-!
# Slots and stored strings

Between the call that starts a record and the one that counts it, only the
string store and one slot of a section change. `stage` is a message in that
condition. Strings in the store stay where they are, because the store only
grows at its end.
-/

set_option autoImplicit false

namespace DnsPkt.MessageSlots
open DnsPkt.CheckedRun DnsPkt.Octets DnsPkt.Protocol DnsPkt.MessageStore

/-- The bytes of a string and its terminator stand at a pointer, below the
end of the store. -/
def Stored (st : NameStore) (p : Ptr) (str : Bytes) : Prop :=
  ∃ off, p = .ref off ∧ off+str.length+1 ≤ st.len ∧ slice st.mem off (str.length+1) = str ++ [0]

theorem Stored.str {st : NameStore} {p : Ptr} {str : Bytes} (h : Stored st p str) :
    st.str p = some (cstr str) := by
  obtain ⟨off, rfl, -, hs⟩ := h
  have hdrop : st.mem.drop off = (str ++ [0]) ++ (st.mem.drop off).drop (str.length+1) := by
    rw [← hs]
    exact (List.take_append_drop _ _).symm
  rw [NameStore.str, hdrop, List.append_assoc]
  exact congrArg some (cstr_append_zero str _)

structure Later (st st' : NameStore) : Prop where
  len : st.len ≤ st'.len
  keep : ∀ p str, Stored st p str → Stored st' p str

theorem Later.refl (st : NameStore) : Later st st := ⟨le_rfl, fun _ _ h => h⟩

theorem Later.trans {a b c : NameStore} (h1 : Later a b) (h2 : Later b c) : Later a c :=
  ⟨h1.len.trans h2.len, fun p str h => h2.keep p str (h1.keep p str h)⟩

theorem msgStoreStr_some {st st' : NameStore} {str : Bytes} {off : ℕ}
    (h : msgStoreStr st str = some (off, st')) :
    Stored st' (.ref off) str ∧ Later st st' ∧ st'.len = st.len+str.length+1 ∧
      str.length ≤ dnsNameMaxstr := by
  unfold msgStoreStr at h
  split_ifs at h with h1 h2
  have hsize := st.size
  simp only [Option.some.injEq, Prod.mk.injEq] at h
  obtain ⟨rfl, rfl⟩ := h
  have hlen : (str ++ [0]).length = str.length+1 := by simp
  refine ⟨⟨st.len, rfl, le_rfl, ?_⟩, ⟨by simp only; omega, ?_⟩, rfl, by omega⟩
  · have := slice_patch_at st.mem st.len (str ++ [0]) (by omega)
    rwa [hlen] at this
  · rintro p s ⟨off, rfl, hle, hs⟩
    refine ⟨off, rfl, by simp only; omega, ?_⟩
    rw [← hs]
    exact slice_patch_before _ _ _ _ _ (by omega) (by omega)

theorem msgStoreStr_isSome {st : NameStore} {str : Bytes} :
    (msgStoreStr st str).isSome ↔
      str.length ≤ dnsNameMaxstr ∧ st.len+str.length+1 ≤ dnsMaxPdusize := by
  unfold msgStoreStr
  split_ifs with h1 h2
  · simp
    omega
  · simp [h2]
    omega
  · simp [h2]

/-- No string that can be shown from the store is longer than a name. -/
def Tame (st : NameStore) : Prop := ∀ off, (cstr (st.mem.drop off)).length ≤ dnsNameMaxstr

theorem Tame.str_le {st : NameStore} (h : Tame st) (p : Ptr) :
    ((st.str p).getD []).length ≤ dnsNameMaxstr := by
  cases p with
  | null => exact Nat.zero_le _
  | ref off => exact h off
  | wild => exact Nat.zero_le _

def KeepsTxt (f : DnsRr Ptr → DnsRr Ptr) : Prop :=
  ∀ r, (f r).rdata.txtStr.length = r.rdata.txtStr.length

theorem length_setAaaa (v : Vector UInt8 16) (r : Rdata Ptr) :
    (r.setAaaa v).txtStr.length = r.txtStr.length := by
  simp only [Rdata.setAaaa, Rdata.word, Rdata.head, Rdata.flagWord, List.length_set]

/-- One write of a call that fills a slot: it stores a string or changes the free slot of
a section. -/
inductive Touch (m : DnsMsg) : DnsMsg → Prop
  | store {str : Bytes} {off : ℕ} {st : NameStore} (h : msgStoreStr m.store str = some (off, st)) :
      Touch m { m with store := st }
  | slot (sc : Sect) {f : DnsRr Ptr → DnsRr Ptr} (hf : KeepsTxt f) : Touch m (m.modifySlot sc f)

@[simp] theorem hdr_modifySlot (m : DnsMsg) (sc : Sect) (f : DnsRr Ptr → DnsRr Ptr) :
    (m.modifySlot sc f).hdr = m.hdr := by
  cases sc <;> rfl

@[simp] theorem hdr_countUp (m : DnsMsg) (sc : Sect) : (m.countUp sc).hdr = m.hdr := by
  unfold DnsMsg.countUp
  cases sc <;> dsimp only <;> split <;> rfl

theorem Touch.hdr {m m' : DnsMsg} (h : Touch m m') : m'.hdr = m.hdr := by
  cases h with
  | store h => rfl
  | slot sc hf => exact hdr_modifySlot m sc _

theorem Touch.counts {m m' : DnsMsg} (h : Touch m m') :
    m'.qdLen = m.qdLen ∧ ∀ sc, (m'.sect sc).count = (m.sect sc).count := by
  cases h with
  | store h => exact ⟨rfl, fun sc => by cases sc <;> rfl⟩
  | slot sc hf =>
    refine ⟨by cases sc <;> rfl, fun sc' => ?_⟩
    cases sc <;> cases sc' <;> rfl

def slot (m : DnsMsg) (sc : Sect) : DnsRr Ptr :=
  (m.sect sc).slots.getD (m.sect sc).count (zeroRr .null)

def stage (m : DnsMsg) (sc : Sect) (st : NameStore) (r : DnsRr Ptr) : DnsMsg :=
  DnsMsg.modifySlot { m with store := st } sc fun _ => r

def records (m : DnsMsg) (sc : Sect) : List (DnsRr Ptr) :=
  (m.sect sc).slots.take (m.sect sc).count

theorem take_modify_self {α : Type} (l : List α) (i : ℕ) (f : α → α) :
    (l.modify i f).take i = l.take i := by
  rw [List.take_modify]
  exact List.modify_eq_self (List.length_take_le _ _)

variable (m : DnsMsg) (sc : Sect) (st : NameStore) (r : DnsRr Ptr)

@[simp] theorem stage_store : (stage m sc st r).store = st := by
  cases sc <;> rfl

@[simp] theorem stage_base : (stage m sc st r).base = m.base := by
  cases sc <;> rfl

@[simp] theorem stage_hdr : (stage m sc st r).hdr = m.hdr := by
  cases sc <;> rfl

@[simp] theorem stage_qd : (stage m sc st r).qd = m.qd := by
  cases sc <;> rfl

@[simp] theorem stage_qdLen : (stage m sc st r).qdLen = m.qdLen := by
  cases sc <;> rfl

@[simp] theorem stage_count (sc' : Sect) :
    ((stage m sc st r).sect sc').count = (m.sect sc').count := by
  cases sc <;> cases sc' <;> rfl

theorem stage_slots :
    ((stage m sc st r).sect sc).slots = (m.sect sc).slots.modify (m.sect sc).count fun _ => r := by
  cases sc <;> rfl

theorem stage_sect_ne {sc' : Sect} (h : sc' ≠ sc) : (stage m sc st r).sect sc' = m.sect sc' := by
  cases sc <;> cases sc' <;> first | rfl | exact absurd rfl h

@[simp] theorem stage_modifySlot (f : DnsRr Ptr → DnsRr Ptr) :
    (stage m sc st r).modifySlot sc f = stage m sc st (f r) := by
  have hmod : ((m.sect sc).slots.modify (m.sect sc).count fun _ => r).modify
      (m.sect sc).count f = (m.sect sc).slots.modify (m.sect sc).count fun _ => f r :=
    List.modify_modify_eq _ _ _ _
  cases sc <;>
    simp only [stage, DnsMsg.modifySlot, DnsMsg.setSect, DnsMsg.sect] at hmod ⊢ <;> simp only [hmod]

@[simp] theorem stage_setStore (st' : NameStore) :
    { stage m sc st r with store := st' } = stage m sc st' r := by
  cases sc <;> rfl

variable {m sc}

theorem slot_stage (h : (m.sect sc).count < dnsMaxRr) : slot (stage m sc st r) sc = r := by
  have hlt : (m.sect sc).count < (m.sect sc).slots.length := by
    rw [(m.sect sc).size]
    exact h
  simp [slot, stage_slots, List.getD_eq_getElem?_getD, hlt]

theorem stage_self (m : DnsMsg) (sc : Sect) : stage m sc m.store (slot m sc) = m := by
  have hmod : ((m.sect sc).slots.modify (m.sect sc).count fun _ => slot m sc) =
      (m.sect sc).slots := by
    apply List.ext_getElem?
    intro i
    by_cases hi : (m.sect sc).count = i
    · subst hi
      cases h : (m.sect sc).slots[(m.sect sc).count]? <;> simp [slot, h]
    · rw [List.getElem?_modify_ne _ _ hi]
  cases sc <;>
    simp only [stage, DnsMsg.modifySlot, DnsMsg.setSect, DnsMsg.sect] at hmod ⊢ <;> simp only [hmod]

/-- Staging leaves every counted record as it is. -/
@[simp] theorem records_stage (sc' : Sect) : records (stage m sc st r) sc' = records m sc' := by
  by_cases h : sc' = sc
  · subst h
    rw [records, stage_count, stage_slots, take_modify_self]
    rfl
  · rw [records, records, stage_sect_ne _ _ _ _ h]

theorem countUp_records_ne {sc' : Sect} (h : sc' ≠ sc) :
    records (m.countUp sc) sc' = records m sc' := by
  unfold DnsMsg.countUp
  dsimp only
  split
  · cases sc <;> cases sc' <;> first | rfl | exact absurd rfl h
  · rfl

/-- Counting the staged slot appends it to the records of its section. -/
theorem countUp_records (h : (m.sect sc).count < dnsMaxRr) :
    records ((stage m sc st r).countUp sc) sc = records m sc ++ [r] := by
  have hlt : (m.sect sc).count < (m.sect sc).slots.length := by
    rw [(m.sect sc).size]
    exact h
  have hrec : records ((stage m sc st r).countUp sc) sc =
      ((m.sect sc).slots.modify (m.sect sc).count fun _ => r).take ((m.sect sc).count+1) := by
    have hc : ((stage m sc st r).sect sc).count+1 ≤ dnsMaxRr := by
      rw [stage_count]
      exact h
    unfold DnsMsg.countUp
    dsimp only
    rw [dif_pos hc]
    cases sc <;> rfl
  rw [hrec, List.take_add_one, take_modify_self]
  simp [records, hlt]

end DnsPkt.MessageSlots
