import DnsPkt.AnswerBytes
import DnsPkt.ApartRecords

/-!
# Records of the options

The record that an option gives is told by its value, by the owner that is set and,
unless the answer is filled, by what the buffer held. Two records of one option
differ in nothing else, and a record with an owner is told from one without.
-/

set_option autoImplicit false

namespace DnsPkt.OptionRecords
open DnsPkt.Octets DnsPkt.Protocol DnsPkt.MessageStore DnsPkt.AlikeMessages
open DnsPkt.AnswerRecords DnsPkt.ApartRecords DnsPkt.QueryFlags DnsPkt.AnswerArguments
open DnsPkt.ResponseOptions DnsPkt.AnswerBytes

def argName (value : Str) : Bytes := (sliceTrim (sliceSplitch (some value.bytes) 32).1).getD []

def argAttrs (value : Str) : Attrs :=
  setAttrs value.bytes.length (sliceSplitch (some value.bytes) 32).2 ⟨0, 0⟩

def argRr (value : Str) (tmp : AnswerBuf) : DnsRr Str :=
  let r := readAnswer (argName value) tmp
  ⟨none, UInt16.ofNat r.1, (argAttrs value).rrClass, (argAttrs value).ttl, 0, r.2⟩

theorem answerRr_eq (value : Str) (tmp : AnswerBuf) : answerRr value tmp =
    if dnsNameMaxstr < (argName value).length then none else some (argRr value tmp) := rfl

def complete (owner : Bytes) (rr : DnsRr Str) : DnsRr Str :=
  { rr with
    name := some ⟨cstr owner, zero_notMem_cstr _⟩
    rrClass := if rr.rrClass = 0 then dnsClassIn else rr.rrClass }

theorem loadDefaults_complete {gen : RespGen} (hclass : gen.dnsClass = dnsClassIn)
    (httl : gen.ttl = 0) (rr : DnsRr Str) : loadDefaults gen rr = complete gen.dnsName rr := by
  have hkeep : (if rr.ttl = 0 then gen.ttl else rr.ttl) = rr.ttl := by
    rw [httl]
    split_ifs with h
    · exact h.symm
    · rfl
  rw [loadDefaults, complete, hclass, hkeep]

section Record

variable {value : Str} {owner owner' : Bytes} {tmp tmp' : AnswerBuf}

theorem dnsGetClass_lt (str : Bytes) : (dnsGetClass str).toNat < 256 := by
  rw [dnsGetClass]
  split_ifs <;> decide

theorem setAttrs_class (k : ℕ) (str : Slice) (a : Attrs) (ha : a.rrClass.toNat < 256) :
    (setAttrs k str a).rrClass.toNat < 256 := by
  induction k generalizing str a with
  | zero => exact ha
  | succ k ih =>
    rw [setAttrs]
    split_ifs with hstr
    · exact ha
    · refine ih _ _ ?_
      rw [setAttr]
      split_ifs
      · exact dnsGetClass_lt _
      · exact ha
      · exact ha

theorem complete_class : (complete owner (argRr value tmp)).rrClass.toNat < 256 := by
  simp only [complete]
  split_ifs
  · decide
  · exact setAttrs_class _ _ _ (by decide)

theorem complete_type : (complete owner (argRr value tmp)).rrType =
    UInt16.ofNat (readAnswer (argName value) tmp).1 := rfl

theorem complete_rdata : (complete owner (argRr value tmp)).rdata =
    (readAnswer (argName value) tmp).2 := rfl

theorem complete_kind (h : (argName value).length ≤ dnsNameMaxstr) (owner : Bytes)
    (tmp : AnswerBuf) : IsAnswer (complete owner (argRr value tmp)) ∧
      0 < (complete owner (argRr value tmp)).rrType.toNat ∧
      (complete owner (argRr value tmp)).rrType.toNat < 192 := by
  rw [IsAnswer, complete_type]
  rcases readAnswer_type h with ht | ht | ht
  · rw [ht]
    exact ⟨.inl rfl, by decide, by decide⟩
  · rw [ht]
    exact ⟨.inr (.inl rfl), by decide, by decide⟩
  · rw [ht]
    exact ⟨.inr (.inr rfl), (by decide : 0 < (UInt16.ofNat dnsTypeCname).toNat),
      (by decide : (UInt16.ofNat dnsTypeCname).toNat < 192)⟩

theorem complete_small (h : (argName value).length ≤ dnsNameMaxstr) (owner : Bytes)
    (tmp : AnswerBuf) : SmallHead (complete owner (argRr value tmp)) := by
  obtain ⟨-, hpos, hlt⟩ := complete_kind h owner tmp
  exact ⟨hpos, hlt, complete_class⟩

/-- The target of an alias does not depend on the buffer. -/
theorem complete_target (h : (argName value).length ≤ dnsNameMaxstr)
    (hk : rrKind (complete owner (argRr value tmp)).rrType = .cname) :
    (complete owner (argRr value tmp)).rdata.cname.bytes = cstr (argName value) := by
  rw [complete_type] at hk
  rw [complete_rdata]
  rcases readAnswer_type h with ht | ht | ht
  · rw [ht] at hk
    cases hk
  · rw [ht] at hk
    cases hk
  · rw [ht]
    rfl

theorem complete_comparable (h : (argName value).length ≤ dnsNameMaxstr)
    (howner : owner = owner' ∨ cstr owner = [] ∨ cstr owner' = []) :
    Comparable (complete owner (argRr value tmp)) (complete owner' (argRr value tmp')) where
  small_l := complete_small h owner tmp
  small_r := complete_small h owner' tmp'
  rrClass := rfl
  ttl := rfl
  owner := howner.imp_left (congrArg cstr)
  target hk hk' := (complete_target h hk).trans (complete_target h hk').symm

theorem argRr_filled (hf : Filled (argName value)) (h : (argName value).length ≤ dnsNameMaxstr)
    (tmp tmp' : AnswerBuf) : argRr value tmp = argRr value tmp' := by
  rw [argRr, argRr, readAnswer_filled hf h tmp tmp']

/-- A record that is not filled looks different over different bytes. -/
theorem seeAnswer_unfilled (hf : ¬Filled (argName value))
    (h : (argName value).length ≤ dnsNameMaxstr) :
    seeAnswer (complete owner (argRr value (flatBuf 0))) ≠
      seeAnswer (complete owner' (argRr value (flatBuf 1))) := by
  intro heq
  obtain ⟨-, -, -, -, hnums, -⟩ := RrSeen.mk.inj heq
  rw [answerNums, answerNums, complete_type, complete_type, complete_rdata, complete_rdata] at hnums
  rcases readAnswer_unfilled hf h with hbad | hbad
  · obtain ⟨ht, hv⟩ := hbad 0
    obtain ⟨ht', hv'⟩ := hbad 1
    rw [ht, ht'] at hnums
    have hquad := RdNums.a.inj hnums
    rw [hquad, hv'] at hv
    cases hv
  · obtain ⟨ht, hv⟩ := hbad 0
    obtain ⟨ht', hv'⟩ := hbad 1
    rw [ht, ht'] at hnums
    have haddr := RdNums.aaaa.inj hnums
    rw [haddr, hv'] at hv
    cases hv

end Record

end DnsPkt.OptionRecords
