import DnsPkt.OptionRecords

/-!
# What the options leave

A list of options is read one after another. It is accepted exactly when each
option passes a check of its own and there is room for all records, and the
message is that of the records added in order, each with the owner that was
set in front of it.
-/

set_option autoImplicit false

namespace DnsPkt.ParsedOptions
open DnsPkt.CheckedRun DnsPkt.CheckedRun.Run DnsPkt.Octets DnsPkt.Protocol DnsPkt.MessageStore
open DnsPkt.NameEncoder DnsPkt.MessageEncoder DnsPkt.AlikeMessages DnsPkt.AnswerRecords
open DnsPkt.QueryFlags DnsPkt.QueryTool DnsPkt.AnswerArguments DnsPkt.ResponseOptions
open DnsPkt.OptionRecords
open DnsPkt.GeneratedFrame (ethipudpLen pcapStartPkt pcapEndPkt)

/-- The message in the packet, after an encoding that left these bytes behind the headers. -/
def packed (pktBuf : Bytes) : Outcome DnsEnc ℤ Fault ℤ → Option Bytes
  | .ok n t => if ethipudpLen+t.pktBuf.length ≤ dnsMaxPdusize ∧ 0 < n then
      some (slice (patch pktBuf ethipudpLen t.pktBuf) ethipudpLen n.toNat) else none
  | .exit n t => if ethipudpLen+t.pktBuf.length ≤ dnsMaxPdusize ∧ 0 < n then
      some (slice (patch pktBuf ethipudpLen t.pktBuf) ethipudpLen n.toNat) else none
  | .fault _ => none

def sent : Outcome QueryFlags.DnsGen ℤ Fault Unit → Option Bytes
  | .ok _ t => some (packetMsg t)
  | .exit _ _ => none
  | .fault _ => none

theorem slice_headers {b udp ip eth : Bytes} (hb : 42 ≤ b.length) (hudp : udp.length = 8)
    (hip : ip.length = 20) (heth : eth.length = 14) (n : ℕ) :
    slice (patch (patch (patch b 34 udp) 14 ip) 0 eth) 42 n = slice b 42 n := by
  have hlen : (eth ++ (ip ++ udp)).length = 42 := by
    rw [List.length_append, List.length_append]
    omega
  rw [GeneratedFrame.patch_headers hb hudp hip heth, slice, slice, ← List.append_assoc ip,
    ← List.append_assoc, List.drop_left' hlen]

section Packet

variable {gen : QueryFlags.DnsGen}

theorem slice_pcapEndPkt (gen : GeneratedFrame.DnsGen) (n : ℕ) :
    slice (pcapEndPkt gen).pktBuf ethipudpLen n = slice gen.pktBuf ethipudpLen n := by
  have hsize : gen.pktBuf.length = 2048 := gen.size
  exact slice_headers (by omega) rfl rfl rfl n

theorem genEncDnsmsg_from (hlen : gen.pktLen = ethipudpLen) (htcp : gen.useTcp = false) :
    genEncDnsmsg gen = (encodeAt ethipudpLen >>= fun len => do
      when (len ≤ 0) (exit (-1))
      modify fun s => { s with msgLen := len.toNat, pktLen := s.pktLen+len.toNat }
      when gen.useTcp do
        store gen.pktLen (encU16 (UInt16.ofNat len.toNat))
        modify fun s => { s with pktLen := s.pktLen+2 }) gen := by
  have hstart : gen.pktLen+(if gen.useTcp then 2 else 0) = ethipudpLen := by
    rw [hlen, htcp]
    rfl
  rw [genEncDnsmsg, bind_of_ok (get_run gen), hstart]

theorem genEncDnsmsg_fault (hlen : gen.pktLen = ethipudpLen) (htcp : gen.useTcp = false) {c : Fault}
    (h : encodeAt ethipudpLen gen = .fault c) : genEncDnsmsg gen = .fault c := by
  rw [genEncDnsmsg_from hlen htcp, bind_of_fault h]

theorem genEncDnsmsg_done (hlen : gen.pktLen = ethipudpLen) (htcp : gen.useTcp = false) {n : ℤ}
    {g : QueryFlags.DnsGen} (h : encodeAt ethipudpLen gen = .ok n g) : genEncDnsmsg gen =
      if n ≤ 0 then .exit (-1) g
      else .ok () { g with msgLen := n.toNat, pktLen := g.pktLen+n.toNat } := by
  rw [genEncDnsmsg_from hlen htcp, bind_of_ok h, htcp]
  by_cases hn : n ≤ 0
  · rw [bind_when_pos hn, if_pos hn]
    rfl
  · rw [bind_when_neg hn, if_neg hn]
    rfl

/-- An encoding that leaves `b` in the packet behind the headers and returns `n`. -/
theorem stored_packed {n : ℤ} {b : Bytes} (hlen : gen.pktLen = ethipudpLen)
    (htcp : gen.useTcp = false)
    (henc : encodeAt ethipudpLen gen = (do
      store ethipudpLen b
      modify fun gen => { gen with msg := { gen.msg with hdr := syncHdr gen.msg } }
      pure n : Tool ℤ) gen) :
    sent ((genEncDnsmsg >>= fun _ => modify (onPacket pcapEndPkt)) gen) =
      if ethipudpLen+b.length ≤ dnsMaxPdusize ∧ 0 < n then
        some (slice (patch gen.pktBuf ethipudpLen b) ethipudpLen n.toNat) else none := by
  by_cases hroom : ethipudpLen+b.length ≤ dnsMaxPdusize
  · obtain ⟨g, hput, hbuf, hglen⟩ : ∃ g, store ethipudpLen b gen = .ok () g ∧
        g.pktBuf = patch gen.pktBuf ethipudpLen b ∧ g.pktLen = ethipudpLen := by
      rw [store, dif_pos hroom]
      exact ⟨_, rfl, rfl, hlen⟩
    have hdone := genEncDnsmsg_done hlen htcp (henc.trans (bind_of_ok hput _))
    by_cases hn : n ≤ 0
    · rw [if_pos hn] at hdone
      rw [bind_of_exit hdone, if_neg (fun h => absurd h.2 (not_lt.mpr hn))]
      rfl
    · rw [if_neg hn] at hdone
      rw [bind_of_ok hdone, if_pos ⟨hroom, not_le.mp hn⟩, ← hbuf]
      have hdata := slice_pcapEndPkt { g.toDnsGen with pktLen := g.pktLen+n.toNat } n.toNat
      have hout : (g.pktLen+n.toNat)-ethipudpLen = n.toNat := by omega
      change some (slice _ ethipudpLen ((g.pktLen+n.toNat)-ethipudpLen)) = _
      rw [hout]
      exact congrArg some hdata
  · have hput : store ethipudpLen b gen = .fault (.bufWrite ethipudpLen) := by
      rw [store, dif_neg hroom]
    have hfault := genEncDnsmsg_fault hlen htcp (henc.trans (bind_of_fault hput _))
    rw [bind_of_fault hfault, if_neg (fun h => hroom h.1)]
    rfl

/-- What `run_resp` makes of a message. -/
theorem runResp_packed (htcp : gen.useTcp = false) (id : UInt16) :
    sent (runResp id gen) = packed gen.pktBuf
      (dnsMsgEncode (dnsMsgInit gen.msg id dnsFlagsQr) (gen.pktBuf.drop ethipudpLen)) := by
  obtain ⟨g, hg⟩ : ∃ g : QueryFlags.DnsGen, g =
    { gen with msg := dnsMsgInit gen.msg id dnsFlagsQr, pktLen := ethipudpLen } := ⟨_, rfl⟩
  have hrun : runResp id gen = (genEncDnsmsg >>= fun _ => modify (onPacket pcapEndPkt)) g := by
    rw [hg]
    rfl
  have hmsg : g.msg = dnsMsgInit gen.msg id dnsFlagsQr := by rw [hg]
  have hbuf : g.pktBuf = gen.pktBuf := by rw [hg]
  have hlen : g.pktLen = ethipudpLen := by rw [hg]
  have htcp' : g.useTcp = false := by rw [hg, ← htcp]
  rw [hrun, ← hmsg, ← hbuf]
  cases henc : dnsMsgEncode g.msg (g.pktBuf.drop ethipudpLen) with
  | ok n t =>
    apply stored_packed hlen htcp'
    rw [encodeAt, henc]
  | exit n t =>
    apply stored_packed hlen htcp'
    rw [encodeAt, henc]
  | fault c =>
    have henc' : encodeAt ethipudpLen g = .fault c := by rw [encodeAt, henc]
    rw [bind_of_fault (genEncDnsmsg_fault hlen htcp' henc')]
    rfl

end Packet

/-- An option as it is given, with a value if it has one. -/
structure Arg where
  opt : RespOpt
  value : Str
  given : value.isSome = opt.hasArg

def optStr (opt : RespOpt) : CStr where
  bytes := opt.text
  no_nul := by
    cases opt with
    | sect sc => cases sc <;> decide
    | _ => decide

def Arg.words (a : Arg) : List CStr := optStr a.opt :: a.value.toList

def Arg.Dashed (a : Arg) : Prop := a.value.bytes.head? = some 45

instance (a : Arg) : Decidable a.Dashed :=
  inferInstanceAs (Decidable (a.value.bytes.head? = some 45))

theorem findOpt_text (opt : RespOpt) : findOpt opt.text = some opt := by
  cases opt with
  | sect sc => cases sc <;> decide
  | _ => decide

theorem cmdArgvNext_words (a : Arg) (rest : List CStr) : cmdArgvNext (a.words ++ rest) =
    if a.Dashed then .stop optMissval else .opt a.opt a.value rest := by
  obtain ⟨opt, value, hgiven⟩ := a
  have hfind : findOpt (optStr opt).bytes = some opt := findOpt_text opt
  cases value with
  | none =>
    have harg : opt.hasArg = false := hgiven.symm
    have hdash : ¬ (⟨opt, none, hgiven⟩ : Arg).Dashed := by simp [Arg.Dashed, Str.bytes]
    rw [if_neg hdash]
    simp [Arg.words, cmdArgvNext, hfind, harg]
  | some v =>
    have harg : opt.hasArg = true := hgiven.symm
    simp only [Arg.words, Option.toList_some, List.cons_append, List.nil_append, cmdArgvNext, hfind,
      harg, if_true]
    rfl

/-- One round of the loop over the options. -/
def Arg.run (a : Arg) (tmp : AnswerBuf) (gen : RespGen) : ℤ × RespGen :=
  if a.Dashed then (optMissval, gen) else handle gen a.opt a.value tmp

abbrev Rounds := List (Arg × AnswerBuf)

def runArgs : Rounds → RespGen → ℤ × RespGen
  | [], gen => (optEof, gen)
  | (a, tmp) :: ps, gen =>
    let r := a.run tmp gen
    if r.1 < 0 then r else runArgs ps r.2

def rounds (stack : ℕ → AnswerBuf) : ℕ → List Arg → Rounds
  | k+1, a :: l => (a, stack k) :: rounds stack k l
  | _, _ => []

theorem parseOpts_rounds (stack : ℕ → AnswerBuf) {k : ℕ} {l : List Arg} (hk : l.length < k)
    (gen : RespGen) : parseOpts stack k (l.flatMap Arg.words) gen =
    runArgs (rounds stack k l) gen := by
  induction l generalizing k gen with
  | nil =>
    obtain ⟨k, rfl⟩ : ∃ j, k = j+1 := ⟨k-1, by omega⟩
    rfl
  | cons a l ih =>
    rw [List.length_cons] at hk
    obtain ⟨k, rfl⟩ : ∃ j, k = j+1 := ⟨k-1, by omega⟩
    rw [List.flatMap_cons, parseOpts, cmdArgvNext_words, rounds, runArgs, Arg.run]
    by_cases hdash : a.Dashed
    · rw [if_pos hdash, if_pos hdash]
      rfl
    · rw [if_neg hdash, if_neg hdash]
      simp only [ih (by omega : l.length < k)]

theorem map_rounds (stack : ℕ → AnswerBuf) {k : ℕ} {l : List Arg} (hk : l.length ≤ k) :
    (rounds stack k l).map Prod.fst = l := by
  induction l generalizing k with
  | nil => cases k <;> rfl
  | cons a l ih =>
    rw [List.length_cons] at hk
    obtain ⟨k, rfl⟩ : ∃ j, k = j+1 := ⟨k-1, by omega⟩
    rw [rounds, List.map_cons, ih (by omega)]

theorem length_words (l : List Arg) : l.length ≤ (l.flatMap Arg.words).length := by
  induction l with
  | nil => exact le_rfl
  | cons a l ih =>
    rw [List.flatMap_cons, List.length_append, Arg.words, List.length_cons, List.length_cons]
    omega

def nameAfter (owner : Bytes) (a : Arg) : Bytes := if a.opt = .name then a.value.bytes else owner

def idOf (value : Str) : UInt16 := UInt16.ofNat (strtol value.bytes 0).toNat

def idAfter (id : UInt16) (a : Arg) : UInt16 := if a.opt = .id then idOf a.value else id

def addition (owner : Bytes) (p : Arg × AnswerBuf) : Additions :=
  match p.1.opt with
  | .sect sc => [(sc, complete owner (argRr p.1.value p.2))]
  | _ => []

/-- The records of a list of options, each with the owner that is set at its place. -/
def answers : Bytes → Rounds → Additions
  | _, [] => []
  | owner, p :: ps => addition owner p ++ answers (nameAfter owner p.1) ps

def Arg.Passes (a : Arg) : Prop := ¬a.Dashed ∧
  match a.opt with
  | .id => 0 ≤ strtol a.value.bytes 0 ∧ strtol a.value.bytes 0 ≤ 0xffff
  | .name => a.value.bytes.length < dnsNameMaxstr
  | .flags => ((entries a.value.bytes).foldlM applyEntry 0).isSome
  | .sect _ => (argName a.value).length ≤ dnsNameMaxstr
  | .output => True
  | .pcapng => True

structure Left (l : List Arg) (gen gen' : RespGen) : Prop where
  dnsClass : gen'.dnsClass = gen.dnsClass
  ttl : gen'.ttl = gen.ttl
  useTcp : gen'.useTcp = gen.useTcp
  pktBuf : gen'.pktBuf = gen.pktBuf
  dnsName : gen'.dnsName = l.foldl nameAfter gen.dnsName
  id : gen'.id = l.foldl idAfter gen.id
  output : gen'.output.isSome = (gen.output.isSome || l.any fun a => a.opt = .output)

theorem left_nil (gen : RespGen) : Left [] gen gen :=
  ⟨rfl, rfl, rfl, rfl, rfl, rfl, (Bool.or_false _).symm⟩

theorem Left.trans {l l' : List Arg} {gen g gen' : RespGen} (h : Left l gen g)
    (h' : Left l' g gen') : Left (l ++ l') gen gen' where
  dnsClass := h'.dnsClass.trans h.dnsClass
  ttl := h'.ttl.trans h.ttl
  useTcp := h'.useTcp.trans h.useTcp
  pktBuf := h'.pktBuf.trans h.pktBuf
  dnsName := by rw [h'.dnsName, h.dnsName, List.foldl_append]
  id := by rw [h'.id, h.id, List.foldl_append]
  output := by rw [h'.output, h.output, List.any_append, Bool.or_assoc]

theorem addAll_append (m : DnsMsg) (rs rs' : Additions) :
    addAll m (rs ++ rs') = (addAll m rs).bind fun t => addAll t rs' := by
  induction rs generalizing m with
  | nil => rfl
  | cons p rs ih =>
    rw [List.cons_append, addAll, addAll]
    simp only [ih]
    split_ifs <;> rfl

section Option

variable {a : Arg} {tmp : AnswerBuf} {gen : RespGen}

def Fails (rc : ℤ) : Prop := rc < 0 ∧ rc ≠ optEof

theorem fails_one : Fails (-1) := ⟨by decide, by decide⟩

theorem addSect_eq (hclass : gen.dnsClass = dnsClassIn) (httl : gen.ttl = 0) (sc : Sect)
    (value : Str) (h : (argName value).length ≤ dnsNameMaxstr) :
    addSect gen sc value tmp =
      let r := returned (dnsSectAddRr sc (complete gen.dnsName (argRr value tmp)) gen.msg)
      (r.1, { gen with msg := r.2 }) := by
  have hcode (rr : DnsRr Str) :
      dnsAddRr gen.msg (sectCode sc) (some rr) = returned (dnsSectAddRr sc rr gen.msg) := by
    cases sc <;> rfl
  simp only [addSect, answerRr_eq, if_neg (not_lt.mpr h), loadDefaults_complete hclass httl, hcode]

/-- A record is added, or the code is −1. -/
theorem returned_answer {rr : DnsRr Str} (hrr : IsAnswer rr) (sc : Sect) (m : DnsMsg) :
    (∃ t, returned (dnsSectAddRr sc rr m) = (0, t)) ∨
      ∃ t, returned (dnsSectAddRr sc rr m) = (-1, t) := by
  obtain ⟨hadd, hfail⟩ := addRr_answer hrr m sc
  by_cases hroom : (m.sect sc).count < dnsMaxRr ∧ FaithfulAdd.StoreFits m.store (answerStrs rr)
  · obtain ⟨t, ht, -⟩ := hadd hroom
    exact .inl ⟨t, by rw [ht]; rfl⟩
  · obtain ⟨t, ht⟩ := hfail hroom
    exact .inr ⟨t, by rw [ht]; rfl⟩

theorem addSect_added (hclass : gen.dnsClass = dnsClassIn) (httl : gen.ttl = 0) {sc : Sect}
    {value : Str} (h : (argName value).length ≤ dnsNameMaxstr) {m : DnsMsg}
    (hm : addAll gen.msg [(sc, complete gen.dnsName (argRr value tmp))] = some m) :
    addSect gen sc value tmp = (0, { gen with msg := m }) := by
  have hanswer := (complete_kind h gen.dnsName tmp).1
  rw [addSect_eq hclass httl sc value h]
  rcases returned_answer hanswer sc gen.msg with ⟨t, ht⟩ | ⟨t, ht⟩
  · simp only [addAll, ht] at hm
    cases hm
    rw [ht]
  · simp only [addAll, ht] at hm
    cases hm

theorem addSect_full (hclass : gen.dnsClass = dnsClassIn) (httl : gen.ttl = 0) {sc : Sect}
    {value : Str} (h : (argName value).length ≤ dnsNameMaxstr)
    (hnone : addAll gen.msg [(sc, complete gen.dnsName (argRr value tmp))] = none) :
    (addSect gen sc value tmp).1 = -1 := by
  have hanswer := (complete_kind h gen.dnsName tmp).1
  rw [addSect_eq hclass httl sc value h]
  rcases returned_answer hanswer sc gen.msg with ⟨t, ht⟩ | ⟨t, ht⟩
  · simp only [addAll, ht] at hnone
    cases hnone
  · rw [ht]

/-- One option that passes its check and finds room for its record. -/
theorem run_passes (hclass : gen.dnsClass = dnsClassIn) (httl : gen.ttl = 0) (ha : a.Passes)
    {m : DnsMsg} (hm : addAll gen.msg (addition gen.dnsName (a, tmp)) = some m) :
    ∃ gen', a.run tmp gen = (0, gen') ∧ Left [a] gen gen' ∧ gen'.msg = m := by
  obtain ⟨opt, value, hgiven⟩ := a
  obtain ⟨hdash, ha⟩ := ha
  rw [Arg.run, if_neg hdash]
  cases opt with
  | id =>
    cases hm
    have hval : 0 ≤ strtol value.bytes 0 ∧ strtol value.bytes 0 ≤ 0xffff := ha
    have hrange : ¬(strtol value.bytes 0 < 0 ∨ 0xffff < strtol value.bytes 0) := by omega
    refine ⟨{ gen with id := idOf value }, ?_, ⟨rfl, rfl, rfl, rfl, rfl, rfl, ?_⟩, rfl⟩
    · rw [handle, setId, if_neg hrange]
      rfl
    · simp
  | name =>
    cases hm
    have hlen : ¬dnsNameMaxstr ≤ value.bytes.length := not_le.mpr ha
    refine ⟨{ gen with dnsName := value.bytes }, ?_, ⟨rfl, rfl, rfl, rfl, rfl, rfl, ?_⟩, rfl⟩
    · rw [handle, setDnsName, if_neg hlen]
    · simp
  | flags =>
    cases hm
    obtain ⟨fl, hfl⟩ := Option.isSome_iff_exists.mp ha
    refine ⟨{ gen with dnsFlags := fl }, ?_, ⟨rfl, rfl, rfl, rfl, rfl, rfl, ?_⟩, rfl⟩
    · rw [handle, setFlags, setDnsFlags_eq, hfl]
      rfl
    · simp
  | sect sc =>
    refine ⟨_, addSect_added hclass httl ha hm, ⟨rfl, rfl, rfl, rfl, rfl, rfl, ?_⟩, rfl⟩
    simp
  | output =>
    cases hm
    refine ⟨{ gen with output := value }, rfl, ⟨rfl, rfl, rfl, rfl, rfl, rfl, ?_⟩, rfl⟩
    have hsome : value.isSome = true := hgiven
    simpa using hsome
  | pcapng =>
    cases hm
    refine ⟨{ gen with usePcapng := true }, rfl, ⟨rfl, rfl, rfl, rfl, rfl, rfl, ?_⟩, rfl⟩
    simp

/-- One option that does not. -/
theorem run_fails (hclass : gen.dnsClass = dnsClassIn) (httl : gen.ttl = 0)
    (h : ¬a.Passes ∨ addAll gen.msg (addition gen.dnsName (a, tmp)) = none) :
    Fails (a.run tmp gen).1 := by
  obtain ⟨opt, value, hgiven⟩ := a
  rw [Arg.run]
  by_cases hdash : (⟨opt, value, hgiven⟩ : Arg).Dashed
  · rw [if_pos hdash]
    exact (⟨by decide, by decide⟩ : Fails optMissval)
  rw [if_neg hdash]
  cases opt with
  | id =>
    have hbad : strtol value.bytes 0 < 0 ∨ 0xffff < strtol value.bytes 0 := by
      by_contra hrange
      refine h.resolve_right nofun ⟨hdash, ?_⟩
      change 0 ≤ strtol value.bytes 0 ∧ strtol value.bytes 0 ≤ 0xffff
      omega
    rw [handle, setId, if_pos hbad]
    exact fails_one
  | name =>
    have hlong : dnsNameMaxstr ≤ value.bytes.length := by
      by_contra hlen
      exact h.resolve_right nofun ⟨hdash, not_le.mp hlen⟩
    rw [handle, setDnsName, if_pos hlong]
    exact fails_one
  | flags =>
    have hnone : (entries value.bytes).foldlM applyEntry 0 = none := by
      rw [← Option.not_isSome_iff_eq_none]
      exact fun hsome => h.resolve_right nofun ⟨hdash, hsome⟩
    rw [handle, setFlags, setDnsFlags_eq, hnone]
    exact fails_one
  | sect sc =>
    by_cases hlen : (argName value).length ≤ dnsNameMaxstr
    · have hnone := h.resolve_left (not_not.mpr ⟨hdash, hlen⟩)
      have hcode : (handle gen (.sect sc) value tmp).1 = -1 := addSect_full hclass httl hlen hnone
      rw [hcode]
      exact fails_one
    · rw [handle, addSect, answerRr_eq, if_pos (not_le.mp hlen)]
      exact fails_one
  | output => exact absurd ⟨hdash, trivial⟩ (h.resolve_right nofun)
  | pcapng => exact absurd ⟨hdash, trivial⟩ (h.resolve_right nofun)

end Option

section List

variable {ps : Rounds} {gen : RespGen}

theorem runArgs_passes (hclass : gen.dnsClass = dnsClassIn) (httl : gen.ttl = 0)
    (hps : ∀ p ∈ ps, p.1.Passes) {m : DnsMsg}
    (hm : addAll gen.msg (answers gen.dnsName ps) = some m) :
    ∃ gen', runArgs ps gen = (optEof, gen') ∧ Left (ps.map Prod.fst) gen gen' ∧ gen'.msg = m := by
  induction ps generalizing gen with
  | nil =>
    cases hm
    exact ⟨gen, rfl, left_nil gen, rfl⟩
  | cons p ps ih =>
    obtain ⟨a, tmp⟩ := p
    obtain ⟨ha, hps⟩ := List.forall_mem_cons.mp hps
    rw [answers, addAll_append] at hm
    obtain ⟨t, ht, hm⟩ := Option.bind_eq_some_iff.mp hm
    obtain ⟨g, hrun, hleft, rfl⟩ := run_passes hclass httl ha ht
    have hname : g.dnsName = nameAfter gen.dnsName a := hleft.dnsName
    rw [← hname] at hm
    obtain ⟨gen', hrest, hleft', hmsg⟩ :=
      ih (hleft.dnsClass.trans hclass) (hleft.ttl.trans httl) hps hm
    refine ⟨gen', ?_, hleft.trans hleft', hmsg⟩
    rw [runArgs, hrun]
    exact hrest

theorem runArgs_fails (hclass : gen.dnsClass = dnsClassIn) (httl : gen.ttl = 0)
    (h : ¬(∀ p ∈ ps, p.1.Passes) ∨ addAll gen.msg (answers gen.dnsName ps) = none) :
    Fails (runArgs ps gen).1 := by
  induction ps generalizing gen with
  | nil => exact absurd (h.resolve_left (not_not.mpr (by simp))) nofun
  | cons p ps ih =>
    obtain ⟨a, tmp⟩ := p
    rw [runArgs]
    by_cases hfirst : ¬a.Passes ∨ addAll gen.msg (addition gen.dnsName (a, tmp)) = none
    · have hfails := run_fails hclass httl hfirst
      simp only [if_pos hfails.1]
      exact hfails
    · obtain ⟨ha, hsome⟩ := not_or.mp hfirst
      obtain ⟨t, ht⟩ := Option.ne_none_iff_exists'.mp hsome
      obtain ⟨g, hrun, hleft, rfl⟩ := run_passes hclass httl (not_not.mp ha) ht
      have hname : g.dnsName = nameAfter gen.dnsName a := hleft.dnsName
      rw [answers, addAll_append, ht, List.forall_mem_cons, ← hname] at h
      simp only [hrun]
      exact ih (hleft.dnsClass.trans hclass) (hleft.ttl.trans httl)
        (h.imp_left fun hno hps => hno ⟨not_not.mp ha, hps⟩)

end List

/-- The words in front are an option, or none is found and the loop stops with an error. -/
theorem words_cases (argv : List CStr) : argv = [] ∨
    (∃ rc, cmdArgvNext argv = .stop rc ∧ Fails rc) ∨
      ∃ a : Arg, ∃ rest, argv = a.words ++ rest := by
  cases argv with
  | nil => exact .inl rfl
  | cons name rest =>
    refine .inr ?_
    rw [cmdArgvNext]
    cases hfind : findOpt name.bytes with
    | none => exact .inl ⟨_, rfl, by decide, by decide⟩
    | some opt =>
      have htext : name.bytes = opt.text := of_decide_eq_true
        (List.find?_some (p := fun opt : RespOpt => name.bytes = opt.text) hfind)
      obtain rfl : name = optStr opt := by
        cases name
        cases htext
        rfl
      cases harg : opt.hasArg with
      | false => exact .inr ⟨⟨opt, none, harg.symm⟩, rest, rfl⟩
      | true =>
        cases rest with
        | nil => exact .inl ⟨optMissval, by simp [harg], by decide, by decide⟩
        | cons value rest => exact .inr ⟨⟨opt, some value, harg.symm⟩, rest, rfl⟩

/-- A command line that is read to its end is a list of options. -/
theorem parseOpts_words (stack : ℕ → AnswerBuf) {k : ℕ} {argv : List CStr} {gen : RespGen}
    (hclass : gen.dnsClass = dnsClassIn) (httl : gen.ttl = 0) (hk : argv.length < k)
    (h : ¬Fails (parseOpts stack k argv gen).1) : ∃ l : List Arg, argv = l.flatMap Arg.words := by
  induction k generalizing argv gen with
  | zero => omega
  | succ k ih =>
    rcases words_cases argv with rfl | ⟨rc, hstop, hrc⟩ | ⟨a, rest, rfl⟩
    · exact ⟨[], rfl⟩
    · rw [parseOpts, hstop] at h
      exact absurd hrc h
    · have hlen : rest.length < k := by
        rw [List.length_append, Arg.words, List.length_cons] at hk
        omega
      have hstep : parseOpts stack (k+1) (a.words ++ rest) gen =
          let r := a.run (stack k) gen
          if r.1 < 0 then r else parseOpts stack k rest r.2 := by
        rw [parseOpts, cmdArgvNext_words, Arg.run]
        by_cases hdash : a.Dashed
        · rw [if_pos hdash, if_pos hdash]
          rfl
        · rw [if_neg hdash, if_neg hdash]
      rw [hstep] at h
      by_cases hfirst : ¬a.Passes ∨ addAll gen.msg (addition gen.dnsName (a, stack k)) = none
      · have hfails := run_fails hclass httl hfirst
        simp only [if_pos hfails.1] at h
        exact absurd hfails h
      · obtain ⟨ha, hsome⟩ := not_or.mp hfirst
        obtain ⟨t, ht⟩ := Option.ne_none_iff_exists'.mp hsome
        obtain ⟨g, hrun, hleft, -⟩ := run_passes hclass httl (not_not.mp ha) ht
        simp only [hrun] at h
        obtain ⟨l, hl⟩ := ih (hleft.dnsClass.trans hclass) (hleft.ttl.trans httl) hlen h
        exact ⟨a :: l, by rw [hl, List.flatMap_cons]⟩

def emptyBuf : Bytes := List.replicate dnsMaxPdusize 0

/-- The rounds of the loop over a list of options. -/
def roundsOf (stack : ℕ → AnswerBuf) (l : List Arg) : Rounds :=
  rounds stack ((l.flatMap Arg.words).length+1) l

theorem map_roundsOf (stack : ℕ → AnswerBuf) (l : List Arg) :
    (roundsOf stack l).map Prod.fst = l := by
  have hlen := length_words l
  exact map_rounds stack (by omega)

def sentMessage (m : DnsMsg) (id : UInt16) : Option Bytes :=
  packed emptyBuf (dnsMsgEncode (dnsMsgInit m id dnsFlagsQr) (emptyBuf.drop ethipudpLen))

structure Accepts (l : List Arg) (m : DnsMsg) : Prop where
  passes : ∀ a ∈ l, a.Passes
  named : l.foldl nameAfter [] ≠ []
  counted : dnsCntRr m ≠ 0
  output : (l.any fun a => a.opt = .output) = true

section Whole

variable {base : ℕ} {stack : ℕ → AnswerBuf} {l : List Arg} {m : DnsMsg}

def presetGen (base : ℕ) : RespGen := { genCreate base with dnsClass := dnsClassIn }

theorem genParseArgv_rounds (base : ℕ) (stack : ℕ → AnswerBuf) (l : List Arg) :
    genParseArgv stack (l.flatMap Arg.words) (genCreate base) =
      let r := runArgs (roundsOf stack l) (presetGen base)
      if r.1 ≠ optEof then r
      else if r.2.dnsName = [] ∨ dnsCntRr r.2.msg = 0 ∨ r.2.output = none then (-1, r.2)
      else (0, r.2) := by
  have hlen := length_words l
  rw [genParseArgv, roundsOf, ← parseOpts_rounds stack (by omega)]
  rfl

theorem respMessage_fails (h : ¬(∀ a ∈ l, a.Passes) ∨
    addAll (zeroMsg base) (answers [] (roundsOf stack l)) = none) :
    respMessage base stack (l.flatMap Arg.words) = none := by
  have hfails : Fails (runArgs (roundsOf stack l) (presetGen base)).1 := by
    refine runArgs_fails rfl rfl (h.imp_left fun hno hps => hno fun a ha => ?_)
    rw [← map_roundsOf stack l] at ha
    obtain ⟨p, hp, rfl⟩ := List.mem_map.mp ha
    exact hps p hp
  have hne : (runArgs (roundsOf stack l) (presetGen base)).1 ≠ 0 := hfails.1.ne
  rw [respMessage, genParseArgv_rounds]
  simp only [if_pos hfails.2, if_pos hne]

theorem respMessage_passes (hl : ∀ a ∈ l, a.Passes)
    (hm : addAll (zeroMsg base) (answers [] (roundsOf stack l)) = some m) (d : Bytes) :
    respMessage base stack (l.flatMap Arg.words) = some d ↔
      Accepts l m ∧ sentMessage m (l.foldl idAfter 0) = some d := by
  have hps : ∀ p ∈ roundsOf stack l, p.1.Passes := fun p hp =>
    hl _ (map_roundsOf stack l ▸ List.mem_map_of_mem hp)
  have hclass : (presetGen base).dnsClass = dnsClassIn := rfl
  obtain ⟨gen, hrun, hleft, hmsg⟩ := runArgs_passes hclass rfl hps hm
  rw [map_roundsOf] at hleft
  have hname : gen.dnsName = l.foldl nameAfter [] := hleft.dnsName
  have hid : gen.id = l.foldl idAfter 0 := hleft.id
  have htcp : gen.useTcp = false := hleft.useTcp
  have hbuf : gen.pktBuf = emptyBuf := hleft.pktBuf
  have houtput : gen.output.isSome = l.any fun a => a.opt = .output := by
    rw [hleft.output]
    exact Bool.false_or _
  rw [respMessage, genParseArgv_rounds, hrun]
  simp only [ne_eq, not_true_eq_false, if_false]
  have hnone : gen.output = none ↔ ¬(l.any fun a => a.opt = .output) = true := by
    rw [← houtput, Option.not_isSome_iff_eq_none]
  by_cases hcheck : gen.dnsName = [] ∨ dnsCntRr gen.msg = 0 ∨ gen.output = none
  · rw [if_pos hcheck]
    have hno : ¬Accepts l m := by
      rintro ⟨-, hnamed, hcounted, hout⟩
      rw [hname, hmsg, hnone] at hcheck
      rcases hcheck with h | h | h
      · exact hnamed h
      · exact hcounted h
      · exact h hout
    simp [hno]
  · rw [if_neg hcheck]
    have hyes : Accepts l m := by
      rw [hname, hmsg, hnone] at hcheck
      obtain ⟨h, h', h''⟩ := not_or.mp hcheck |>.imp_right not_or.mp
      exact ⟨hl, h, h', not_not.mp h''⟩
    have hsent : sent (runResp gen.id gen.toQuery) = _ := runResp_packed htcp gen.id
    rw [hbuf, hmsg, hid] at hsent
    rw [and_iff_right hyes, sentMessage, ← hsent]
    simp only [not_true_eq_false, if_false, hid]
    cases runResp (l.foldl idAfter 0) gen.toQuery with
    | ok u t => rfl
    | exit rc t => rfl
    | fault c => rfl

/-- Every command line that makes a message is a list of options. -/
theorem accepted_words {argv : List CStr} {d : Bytes} (h : respMessage base stack argv = some d) :
    ∃ l : List Arg, argv = l.flatMap Arg.words := by
  have hclass : (presetGen base).dnsClass = dnsClassIn := rfl
  have httl : (presetGen base).ttl = 0 := rfl
  refine parseOpts_words stack hclass httl (Nat.lt_succ_self _) fun hfails => ?_
  have hparse : genParseArgv stack argv (genCreate base) =
      parseOpts stack (argv.length+1) argv (presetGen base) := by
    rw [genParseArgv]
    exact if_pos hfails.2
  rw [respMessage, hparse] at h
  simp only [if_pos hfails.1.ne] at h
  cases h

/-- When a list of options is accepted, and the message it makes. -/
theorem respMessage_iff (base : ℕ) (stack : ℕ → AnswerBuf) (l : List Arg) (d : Bytes) :
    respMessage base stack (l.flatMap Arg.words) = some d ↔
      ∃ m, addAll (zeroMsg base) (answers [] (roundsOf stack l)) = some m ∧ Accepts l m ∧
        sentMessage m (l.foldl idAfter 0) = some d := by
  constructor
  · intro h
    by_cases hfails : ¬(∀ a ∈ l, a.Passes) ∨
        addAll (zeroMsg base) (answers [] (roundsOf stack l)) = none
    · rw [respMessage_fails hfails] at h
      cases h
    · obtain ⟨hl, hsome⟩ := not_or.mp hfails
      obtain ⟨m, hm⟩ := Option.ne_none_iff_exists'.mp hsome
      exact ⟨m, hm, (respMessage_passes (not_not.mp hl) hm d).mp h⟩
  · rintro ⟨m, hm, hacc, hsent⟩
    exact (respMessage_passes hacc.passes hm d).mpr ⟨hacc, hsent⟩

end Whole

end DnsPkt.ParsedOptions
