import DnsPkt.SentRecords

/-!
# The order of the options

`add_sect` takes the owner of a record from the generator while the options are
still being read. So a list of options may be reordered as long as each record
option stays on its side of `--name`, and no other change of the order goes
unnoticed in the message.
-/

set_option autoImplicit false

namespace DnsPkt.OptionOrder
open DnsPkt.Octets DnsPkt.Protocol DnsPkt.MessageStore DnsPkt.AnswerRecords DnsPkt.ApartRecords
open DnsPkt.AnswerArguments DnsPkt.AnswerBytes DnsPkt.ResponseOptions DnsPkt.OptionRecords
open DnsPkt.ParsedOptions DnsPkt.SentRecords DnsPkt.ReportText DnsPkt.AddressGrammar
open DnsPkt.QuadText DnsPkt.AddressMeaning

def Once (opt : RespOpt) (l : List Arg) : Prop := (l.countP fun a => a.opt = opt) = 1

instance (opt : RespOpt) (l : List Arg) : Decidable (Once opt l) :=
  inferInstanceAs (Decidable (_ = 1))

def sectArgs (sc : Sect) (l : List Arg) : List Arg := l.filter fun a => a.opt = .sect sc

/-- A reordering that keeps the order of the records of each section. -/
structure Reordered (l l' : List Arg) : Prop where
  perm : l.Perm l'
  sects : ∀ sc, sectArgs sc l = sectArgs sc l'

/-- The record options of a section that stand in front of the name. -/
def early (sc : Sect) (l : List Arg) : ℕ :=
  (sectArgs sc (l.takeWhile fun a => a.opt ≠ .name)).length

section Lists

variable {l l' : List Arg}

theorem Reordered.once (h : Reordered l l') {opt : RespOpt} (hone : Once opt l) : Once opt l' := by
  rw [Once, ← h.perm.countP_eq]
  exact hone

/-- An option that is given once splits the list. -/
theorem once_split {opt : RespOpt} (hone : Once opt l) : ∃ front a back,
    l = front ++ a :: back ∧ a.opt = opt ∧ (∀ b ∈ front, b.opt ≠ opt) ∧
      ∀ b ∈ back, b.opt ≠ opt := by
  have hpos : 0 < l.countP fun a => a.opt = opt := by
    rw [Once] at hone
    omega
  obtain ⟨a, ha, hopt⟩ := List.countP_pos_iff.mp hpos
  obtain ⟨front, back, rfl⟩ := List.append_of_mem ha
  have hcons : (List.countP (fun a => decide (a.opt = opt)) (a :: back)) =
      back.countP (fun a => a.opt = opt)+1 := List.countP_cons_of_pos hopt
  rw [Once, List.countP_append, hcons] at hone
  have hfront : (front.countP fun a => a.opt = opt) = 0 := by omega
  have hback : (back.countP fun a => a.opt = opt) = 0 := by omega
  refine ⟨front, a, back, rfl, of_decide_eq_true hopt, fun b hb h => ?_, fun b hb h => ?_⟩
  · exact List.countP_eq_zero.mp hfront b hb (decide_eq_true h)
  · exact List.countP_eq_zero.mp hback b hb (decide_eq_true h)

/-- An option that is given once decides its setting, wherever it stands. -/
theorem once_foldl {β : Type} {opt : RespOpt} {f : β → Arg → β} {v : Arg → β}
    (hf : ∀ b a, f b a = if a.opt = opt then v a else b) (hone : Once opt l) (hperm : l.Perm l')
    (b : β) : l.foldl f b = l'.foldl f b := by
  have hfilter (l : List Arg) (b : β) :
      l.foldl f b = (l.filter fun a => a.opt = opt).foldl (fun _ a => v a) b := by
    have hstep : f = fun b a => if decide (a.opt = opt) then v a else b :=
      funext fun b => funext fun a => by simp only [hf, decide_eq_true_eq]
    rw [List.foldl_filter, hstep]
  have hlen : (l.filter fun a => a.opt = opt).length = 1 := by
    rw [← List.countP_eq_length_filter]
    exact hone
  obtain ⟨a, ha⟩ := List.length_eq_one_iff.mp hlen
  have hperm' := hperm.filter fun a => a.opt = opt
  rw [ha] at hperm'
  rw [hfilter, hfilter l', ha, List.singleton_perm.mp hperm']

theorem Reordered.name (h : Reordered l l') (hone : Once .name l) (owner : Bytes) :
    l.foldl nameAfter owner = l'.foldl nameAfter owner :=
  once_foldl (v := fun a => a.value.bytes) (fun _ _ => rfl) hone h.perm owner

theorem Reordered.id (h : Reordered l l') (hone : Once .id l) (id : UInt16) :
    l.foldl idAfter id = l'.foldl idAfter id :=
  once_foldl (v := fun a => idOf a.value) (fun _ _ => rfl) hone h.perm id

end Lists

def sectRounds (sc : Sect) (ps : Rounds) : Rounds := ps.filter fun p => p.1.opt = .sect sc

def recordOf (owner : Bytes) (p : Arg × AnswerBuf) : DnsRr Str :=
  complete owner (argRr p.1.value p.2)

def placed (owner : Bytes) (e : ℕ) (qs : Rounds) : List (DnsRr Str) :=
  (qs.take e).map (recordOf []) ++ (qs.drop e).map (recordOf owner)

section Owners

variable {ps : Rounds} {sc : Sect} {owner : Bytes}

theorem answers_append (ps qs : Rounds) (owner : Bytes) : answers owner (ps ++ qs) =
    answers owner ps ++ answers ((ps.map Prod.fst).foldl nameAfter owner) qs := by
  induction ps generalizing owner with
  | nil => rfl
  | cons p ps ih =>
    rw [List.cons_append, answers, answers, ih, List.append_assoc]
    rfl

theorem foldl_unnamed {l : List Arg} (h : ∀ a ∈ l, a.opt ≠ .name) (owner : Bytes) :
    l.foldl nameAfter owner = owner := by
  induction l with
  | nil => rfl
  | cons a l ih =>
    obtain ⟨ha, hl⟩ := List.forall_mem_cons.mp h
    rw [List.foldl_cons, nameAfter, if_neg ha, ih hl]

theorem ofSect_append (sc : Sect) (rs rs' : Additions) :
    ofSect sc (rs ++ rs') = ofSect sc rs ++ ofSect sc rs' := by
  rw [ofSect, List.filter_append, List.map_append]
  rfl

theorem ofSect_addition (sc : Sect) (owner : Bytes) (p : Arg × AnswerBuf) :
    ofSect sc (addition owner p) = if p.1.opt = .sect sc then [recordOf owner p] else [] := by
  rw [addition]
  cases hopt : p.1.opt with
  | sect sc' =>
    rw [ofSect_cons]
    by_cases hsc : sc = sc'
    · rw [if_pos hsc, if_pos (by rw [hsc])]
      rfl
    · rw [if_neg hsc, if_neg fun h => hsc (RespOpt.sect.inj h).symm]
      rfl
  | _ => rfl

/-- Without a name in the list all records have one owner. -/
theorem ofSect_unnamed (h : ∀ p ∈ ps, p.1.opt ≠ .name) (owner : Bytes) :
    ofSect sc (answers owner ps) = (sectRounds sc ps).map (recordOf owner) := by
  induction ps with
  | nil => rfl
  | cons p ps ih =>
    obtain ⟨hp, hps⟩ := List.forall_mem_cons.mp h
    rw [answers, ofSect_append, ofSect_addition, nameAfter, if_neg hp, ih hps, sectRounds,
      sectRounds]
    by_cases hsc : p.1.opt = .sect sc
    · rw [if_pos hsc, List.filter_cons_of_pos (by simpa using hsc)]
      rfl
    · rw [if_neg hsc, List.filter_cons_of_neg (by simpa using hsc)]
      rfl

theorem map_sectRounds (sc : Sect) (ps : Rounds) :
    (sectRounds sc ps).map Prod.fst = sectArgs sc (ps.map Prod.fst) := by
  rw [sectRounds, sectArgs, List.filter_map]
  rfl

/-- With one name in the list the records behind it have that owner. -/
theorem ofSect_answers (hone : Once .name (ps.map Prod.fst)) (sc : Sect) :
    ofSect sc (answers [] ps) = placed ((ps.map Prod.fst).foldl nameAfter [])
      (early sc (ps.map Prod.fst)) (sectRounds sc ps) := by
  obtain ⟨front, a, back, hl, hopt, hfront, hback⟩ := once_split hone
  obtain ⟨fs, rest, rfl, hfs, hrest⟩ := List.map_eq_append_iff.mp hl
  obtain ⟨p, bs, rfl, rfl, hbs⟩ := List.map_eq_cons_iff.mp hrest
  have hfs' : ∀ q ∈ fs, q.1.opt ≠ .name := fun q hq =>
    hfront _ (hfs ▸ List.mem_map_of_mem hq)
  have hbs' : ∀ q ∈ bs, q.1.opt ≠ .name := fun q hq =>
    hback _ (hbs ▸ List.mem_map_of_mem hq)
  have hnone : sectRounds sc (p :: bs) = sectRounds sc bs :=
    List.filter_cons_of_neg (by simp [hopt])
  have hname : ((fs ++ p :: bs).map Prod.fst).foldl nameAfter [] = p.1.value.bytes := by
    rw [hl, List.foldl_append, foldl_unnamed hfront, List.foldl_cons, nameAfter, if_pos hopt,
      foldl_unnamed hback]
  have hearly : early sc ((fs ++ p :: bs).map Prod.fst) = (sectRounds sc fs).length := by
    rw [early, hl, List.takeWhile_append_of_pos (by simpa using hfront),
      List.takeWhile_cons_of_neg (by simpa using hopt), List.append_nil, ← hfs, ← map_sectRounds,
      List.length_map]
  have hsplit : sectRounds sc (fs ++ p :: bs) = sectRounds sc fs ++ sectRounds sc bs := by
    rw [← hnone]
    exact List.filter_append ..
  have howner : nameAfter ((fs.map Prod.fst).foldl nameAfter []) p.1 = p.1.value.bytes := by
    rw [nameAfter, if_pos hopt]
  rw [hname, hearly, hsplit, placed, List.take_left, List.drop_left, answers_append, ofSect_append,
    ofSect_unnamed hfs', answers, ofSect_append, ofSect_addition,
    if_neg (by simp [hopt]), List.nil_append, howner, ofSect_unnamed hbs']

end Owners

section Placed

variable {owner : Bytes} {e e' : ℕ} {qs qs' : Rounds}

def Short (qs : Rounds) : Prop := ∀ p ∈ qs, (argName p.1.value).length ≤ dnsNameMaxstr

theorem placed_zero (owner : Bytes) (p : Arg × AnswerBuf) (qs : Rounds) :
    placed owner 0 (p :: qs) = recordOf owner p :: placed owner 0 qs := rfl

theorem placed_succ (owner : Bytes) (e : ℕ) (p : Arg × AnswerBuf) (qs : Rounds) :
    placed owner (e+1) (p :: qs) = recordOf [] p :: placed owner e qs := rfl

theorem placed_filled (hqs : qs.map Prod.fst = qs'.map Prod.fst) (hshort : Short qs)
    (hfilled : ∀ p ∈ qs, Filled (argName p.1.value)) (owner : Bytes) (e : ℕ) :
    placed owner e qs = placed owner e qs' := by
  induction qs generalizing e qs' with
  | nil =>
    obtain rfl := List.map_eq_nil_iff.mp hqs.symm
    rfl
  | cons p qs ih =>
    obtain ⟨p', qs', rfl, hp, hrest⟩ := List.map_eq_cons_iff.mp hqs.symm
    obtain ⟨hps, hshort⟩ := List.forall_mem_cons.mp hshort
    obtain ⟨hpf, hfilled⟩ := List.forall_mem_cons.mp hfilled
    have hhead (owner : Bytes) : recordOf owner p = recordOf owner p' := by
      rw [recordOf, recordOf, hp, argRr_filled hpf hps p.2 p'.2]
    have htail (e : ℕ) := ih hrest.symm hshort hfilled e
    cases e with
    | zero => exact congrArg₂ List.cons (hhead owner) (htail 0)
    | succ e => exact congrArg₂ List.cons (hhead []) (htail e)

theorem placed_comparable (hqs : qs.map Prod.fst = qs'.map Prod.fst) (hshort : Short qs)
    (owner : Bytes) (e e' : ℕ) :
    List.Forall₂ Comparable (placed owner e qs) (placed owner e' qs') := by
  induction qs generalizing e e' qs' with
  | nil =>
    obtain rfl := List.map_eq_nil_iff.mp hqs.symm
    simp [placed]
  | cons p qs ih =>
    obtain ⟨p', qs', rfl, hp, hrest⟩ := List.map_eq_cons_iff.mp hqs.symm
    obtain ⟨hps, hshort⟩ := List.forall_mem_cons.mp hshort
    have hhead {o o' : Bytes} (ho : o = o' ∨ cstr o = [] ∨ cstr o' = []) :
        Comparable (recordOf o p) (recordOf o' p') := by
      rw [recordOf, recordOf, hp]
      exact complete_comparable hps ho
    have htail (e e' : ℕ) := ih hrest.symm hshort e e'
    cases e with
    | zero =>
      cases e' with
      | zero => exact .cons (hhead (.inl rfl)) (htail 0 0)
      | succ e' => exact .cons (hhead (.inr (.inr rfl))) (htail 0 e')
    | succ e =>
      cases e' with
      | zero => exact .cons (hhead (.inr (.inl rfl))) (htail e 0)
      | succ e' => exact .cons (hhead (.inl rfl)) (htail e e')

def ownerSeen (x : AlikeMessages.RrSeen) : Bytes :=
  match x.name with
  | .text b => b
  | _ => []

theorem placed_count (howner : cstr owner ≠ []) (he : e ≤ qs.length) :
    (((placed owner e qs).map seeAnswer).map ownerSeen).count [] = e := by
  have hnames (o : Bytes) (qs : Rounds) :
      ((qs.map (recordOf o)).map seeAnswer).map ownerSeen = List.replicate qs.length (cstr o) := by
    rw [List.map_map, List.map_map, List.eq_replicate_iff]
    refine ⟨List.length_map _, fun b hb => ?_⟩
    obtain ⟨p, -, rfl⟩ := List.mem_map.mp hb
    rfl
  have hnil : cstr [] = [] := rfl
  rw [placed, List.map_append, List.map_append, hnames, hnames, List.count_append, hnil,
    List.count_replicate_self, List.count_replicate, if_neg (by simpa using howner),
    List.length_take]
  omega

/-- Records that are placed otherwise do not look alike. -/
theorem placed_ne (howner : cstr owner ≠ []) (he : e ≤ qs.length) (he' : e' ≤ qs'.length)
    (hne : e ≠ e') : (placed owner e qs).map seeAnswer ≠ (placed owner e' qs').map seeAnswer := by
  intro heq
  have hcount := placed_count howner he
  rw [heq, placed_count howner he'] at hcount
  exact hne hcount.symm

/-- Records that look alike over any bytes are filled. -/
theorem filled_of_placed {l : List Arg} (hshort : ∀ a ∈ l, (argName a.value).length ≤ dnsNameMaxstr)
    (h : (placed owner e (l.map fun a => (a, flatBuf 0))).map seeAnswer =
      (placed owner e (l.map fun a => (a, flatBuf 1))).map seeAnswer) :
    ∀ a ∈ l, Filled (argName a.value) := by
  induction l generalizing e with
  | nil => exact nofun
  | cons a l ih =>
    obtain ⟨ha, hshort⟩ := List.forall_mem_cons.mp hshort
    have hhead {o : Bytes} (heq : seeAnswer (recordOf o (a, flatBuf 0)) =
        seeAnswer (recordOf o (a, flatBuf 1))) : Filled (argName a.value) := by
      by_contra hno
      exact seeAnswer_unfilled hno ha heq
    rw [List.forall_mem_cons]
    cases e with
    | zero =>
      rw [List.map_cons, List.map_cons, placed_zero, placed_zero, List.map_cons, List.map_cons,
        List.cons.injEq] at h
      exact ⟨hhead h.1, ih (e := 0) hshort h.2⟩
    | succ e =>
      rw [List.map_cons, List.map_cons, placed_succ, placed_succ, List.map_cons, List.map_cons,
        List.cons.injEq] at h
      exact ⟨hhead h.1, ih hshort h.2⟩

end Placed

section Messages

variable {base : ℕ} {stack : ℕ → AnswerBuf} {l : List Arg} {d : Bytes}

theorem passes_short {a : Arg} {sc : Sect} (h : a.Passes) (hopt : a.opt = .sect sc) :
    (argName a.value).length ≤ dnsNameMaxstr := by
  have hcheck := h.2
  rw [hopt] at hcheck
  exact hcheck

theorem answers_answer {ps : Rounds} (hps : ∀ p ∈ ps, p.1.Passes) (owner : Bytes) :
    ∀ q ∈ answers owner ps, IsAnswer q.2 := by
  induction ps generalizing owner with
  | nil => exact fun q hq => absurd hq List.not_mem_nil
  | cons p ps ih =>
    obtain ⟨hp, hps⟩ := List.forall_mem_cons.mp hps
    intro q hq
    rcases List.mem_append.mp hq with hq | hq
    · rw [addition] at hq
      cases hopt : p.1.opt with
      | sect sc =>
        rw [hopt] at hq
        rw [List.mem_singleton.mp hq]
        exact (complete_kind (passes_short hp hopt) owner p.2).1
      | _ =>
        rw [hopt] at hq
        exact absurd hq List.not_mem_nil
    · exact ih hps _ q hq

theorem mem_roundsOf {p : Arg × AnswerBuf} (hp : p ∈ roundsOf stack l) : p.1 ∈ l := by
  rw [← map_roundsOf stack l]
  exact List.mem_map_of_mem hp

/-- The rounds of one section of an accepted list. -/
theorem short_rounds (hl : ∀ a ∈ l, a.Passes) (stack : ℕ → AnswerBuf) (sc : Sect) :
    Short (sectRounds sc (roundsOf stack l)) := by
  intro p hp
  obtain ⟨hp, hopt⟩ := List.mem_filter.mp hp
  exact passes_short (hl _ (mem_roundsOf hp)) (of_decide_eq_true hopt)

theorem map_sects (stack : ℕ → AnswerBuf) (l : List Arg) (sc : Sect) :
    (sectRounds sc (roundsOf stack l)).map Prod.fst = sectArgs sc l := by
  rw [map_sectRounds, map_roundsOf]

theorem rounds_flat (tmp : AnswerBuf) {k : ℕ} {l : List Arg} (hk : l.length ≤ k) :
    rounds (fun _ => tmp) k l = l.map fun a => (a, tmp) := by
  induction l generalizing k with
  | nil => cases k <;> rfl
  | cons a l ih =>
    rw [List.length_cons] at hk
    obtain ⟨k, rfl⟩ : ∃ j, k = j+1 := ⟨k-1, by omega⟩
    rw [rounds, List.map_cons, ih (by omega)]

theorem sects_flat (tmp : AnswerBuf) (l : List Arg) (sc : Sect) :
    sectRounds sc (roundsOf (fun _ => tmp) l) = (sectArgs sc l).map fun a => (a, tmp) := by
  have hlen := length_words l
  rw [roundsOf, rounds_flat tmp (by omega), sectRounds, sectArgs, List.filter_map]
  rfl

theorem early_le (sc : Sect) (l : List Arg) : early sc l ≤ (sectArgs sc l).length :=
  ((List.takeWhile_sublist _).filter _).length_le

/-- The message of an accepted list. -/
theorem accepted_made (h : respMessage base stack (l.flatMap Arg.words) = some d) :
    ∃ m, addAll (zeroMsg base) (answers [] (roundsOf stack l)) = some m ∧
      Made m (answers [] (roundsOf stack l)) ∧ Accepts l m ∧
      sentMessage m (l.foldl idAfter 0) = some d := by
  obtain ⟨m, hm, hacc, hsent⟩ := (respMessage_iff base stack l d).mp h
  have hps : ∀ p ∈ roundsOf stack l, p.1.Passes := fun p hp => hacc.passes _ (mem_roundsOf hp)
  have hanswer := answers_answer hps []
  exact ⟨m, hm, (made_of_addAll hanswer hm).2, hacc, hsent⟩

theorem ofSect_rounds (hone : Once .name l) (stack : ℕ → AnswerBuf) (sc : Sect) :
    ofSect sc (answers [] (roundsOf stack l)) =
      placed (l.foldl nameAfter []) (early sc l) (sectRounds sc (roundsOf stack l)) := by
  rw [← map_roundsOf stack l] at hone
  have hans := ofSect_answers hone sc
  rwa [map_roundsOf] at hans

theorem name_plain (l : List Arg) {owner : Bytes} (h : (0 : UInt8) ∉ owner) :
    (0 : UInt8) ∉ l.foldl nameAfter owner := by
  induction l generalizing owner with
  | nil => exact h
  | cons a l ih =>
    apply ih
    rw [nameAfter]
    split_ifs
    · exact MessageBuild.zero_notMem_bytes _
    · exact h

end Messages

/-- Whatever is on the stack and wherever the store stands, the second list is accepted with the
message of the first one. -/
def SameMessage (l l' : List Arg) : Prop :=
  ∀ base base' stack stack' d, respMessage base stack (l.flatMap Arg.words) = some d →
    respMessage base' stack' (l'.flatMap Arg.words) = some d

def FilledArgs (l : List Arg) : Prop := ∀ a ∈ l, ∀ sc, a.opt = .sect sc → Filled (argName a.value)

section Order

variable {l l' : List Arg} {base : ℕ} {stack stack' : ℕ → AnswerBuf} {d : Bytes}

theorem mem_sectArgs {a : Arg} {sc : Sect} : a ∈ sectArgs sc l ↔ a ∈ l ∧ a.opt = .sect sc := by
  simp [sectArgs]

theorem Reordered.rounds (h : Reordered l l') (stack stack' : ℕ → AnswerBuf) (sc : Sect) :
    (sectRounds sc (roundsOf stack l)).map Prod.fst =
      (sectRounds sc (roundsOf stack' l')).map Prod.fst := by
  rw [map_sects, map_sects, h.sects]

/-- Accepted reorderings have comparable records. -/
theorem Reordered.comparable (hre : Reordered l l') (hname : Once .name l)
    (hl : ∀ a ∈ l, a.Passes) (stack stack' : ℕ → AnswerBuf) (sc : Sect) :
    List.Forall₂ Comparable (ofSect sc (answers [] (roundsOf stack l)))
      (ofSect sc (answers [] (roundsOf stack' l'))) := by
  rw [ofSect_rounds hname, ofSect_rounds (hre.once hname), ← hre.name hname]
  exact placed_comparable (hre.rounds stack stack' sc) (short_rounds hl stack sc) _ _ _

/-- Accepted reorderings with one message look alike. -/
theorem Reordered.alike (hre : Reordered l l') (hname : Once .name l) (hid : Once .id l)
    (h : respMessage base stack (l.flatMap Arg.words) = some d)
    (h' : respMessage base stack' (l'.flatMap Arg.words) = some d) (sc : Sect) :
    (ofSect sc (answers [] (roundsOf stack l))).map seeAnswer =
      (ofSect sc (answers [] (roundsOf stack' l'))).map seeAnswer := by
  obtain ⟨m, -, hmade, hacc, hsent⟩ := accepted_made h
  obtain ⟨m', -, hmade', -, hsent'⟩ := accepted_made h'
  rw [← hre.id hid] at hsent'
  by_contra hne
  exact sentMessage_apart hmade hmade' (hre.comparable hname hacc.passes stack stack') hne
    hsent hsent' rfl

/-- Where the records look alike, they stand on the same side of the name. -/
theorem Reordered.early (hre : Reordered l l') (hname : Once .name l) (hid : Once .id l)
    (h : respMessage base stack (l.flatMap Arg.words) = some d)
    (h' : respMessage base stack' (l'.flatMap Arg.words) = some d) (sc : Sect) :
    early sc l = early sc l' := by
  obtain ⟨m, -, -, hacc, -⟩ := accepted_made h
  have halike := hre.alike hname hid h h' sc
  rw [ofSect_rounds hname, ofSect_rounds (hre.once hname), ← hre.name hname] at halike
  have hplain : (0 : UInt8) ∉ l.foldl nameAfter [] := name_plain l List.not_mem_nil
  have howner : cstr (l.foldl nameAfter []) ≠ [] := by
    rw [cstr_of_no_zero _ hplain]
    exact hacc.named
  have hlen (stack : ℕ → AnswerBuf) (l : List Arg) :
      OptionOrder.early sc l ≤ (sectRounds sc (roundsOf stack l)).length := by
    rw [← List.length_map Prod.fst, map_sects]
    exact early_le sc l
  by_contra hne
  exact placed_ne howner (hlen stack l) (hlen stack' l') hne halike

theorem filledArgs_of_same (hname : Once .name l) (hid : Once .id l)
    (h : ∀ stack, respMessage base stack (l.flatMap Arg.words) = some d) : FilledArgs l := by
  intro a ha sc hopt
  obtain ⟨m, -, -, hacc, -⟩ := accepted_made (h fun _ => flatBuf 0)
  have hself : Reordered l l := ⟨.refl l, fun _ => rfl⟩
  have halike := hself.alike hname hid (h fun _ => flatBuf 0) (h fun _ => flatBuf 1) sc
  rw [ofSect_rounds hname, ofSect_rounds hname, sects_flat, sects_flat] at halike
  have hshort : ∀ b ∈ sectArgs sc l, (argName b.value).length ≤ dnsNameMaxstr := fun b hb =>
    passes_short (hacc.passes b (mem_sectArgs.mp hb).1) (mem_sectArgs.mp hb).2
  exact filled_of_placed hshort halike a (mem_sectArgs.mpr ⟨ha, hopt⟩)

/-- The records are the same, whatever is on the stack. -/
theorem Reordered.records (hre : Reordered l l') (hname : Once .name l) (hl : ∀ a ∈ l, a.Passes)
    (hearly : ∀ sc, OptionOrder.early sc l = OptionOrder.early sc l') (hfilled : FilledArgs l)
    (stack stack' : ℕ → AnswerBuf) (sc : Sect) : ofSect sc (answers [] (roundsOf stack l)) =
      ofSect sc (answers [] (roundsOf stack' l')) := by
  rw [ofSect_rounds hname, ofSect_rounds (hre.once hname), ← hre.name hname, ← hearly sc]
  refine placed_filled (hre.rounds stack stack' sc) (short_rounds hl stack sc) (fun p hp => ?_) _ _
  obtain ⟨hp, hopt⟩ := List.mem_filter.mp hp
  exact hfilled _ (mem_roundsOf hp) sc (of_decide_eq_true hopt)

theorem Reordered.accepts (hre : Reordered l l') (hname : Once .name l) {m m' : DnsMsg}
    (hacc : Accepts l m) (hcount : ∀ sc, (m.sect sc).count = (m'.sect sc).count) :
    Accepts l' m' where
  passes a ha := hacc.passes a (hre.perm.mem_iff.mpr ha)
  named := hre.name hname [] ▸ hacc.named
  counted := by
    have han : m.an.count = m'.an.count := hcount .an
    have hns : m.ns.count = m'.ns.count := hcount .ns
    have har : m.ar.count = m'.ar.count := hcount .ar
    have hcounted := hacc.counted
    rwa [dnsCntRr, han, hns, har] at hcounted
  output := by
    rw [← hacc.output]
    exact (hre.perm.any_eq).symm

theorem Reordered.same (hre : Reordered l l') (hname : Once .name l) (hid : Once .id l)
    (hearly : ∀ sc, OptionOrder.early sc l = OptionOrder.early sc l') (hfilled : FilledArgs l) :
    SameMessage l l' := by
  intro base base' stack stack' d h
  obtain ⟨m, hm, hmade, hacc, hsent⟩ := accepted_made h
  have hrecords := hre.records hname hacc.passes hearly hfilled stack stack'
  obtain ⟨m', hm', hmade'⟩ := made_sects hrecords hmade.answer hm base'
  have hcount (sc : Sect) : (m.sect sc).count = (m'.sect sc).count := by
    rw [hmade.count, hmade'.count, hrecords]
  refine (respMessage_iff base' stack' l' d).mpr ⟨m', hm', hre.accepts hname hacc hcount, ?_⟩
  rw [← hre.id hid, ← hsent]
  exact sentMessage_same hmade' hmade (fun sc => by rw [hrecords]) _

end Order

/-- A reordering of accepted options makes the same message exactly when in each section as many
records stand in front of the name as before, and no address leaves bytes of the stack. -/
theorem option_order {l l' : List Arg} (hname : Once .name l) (hid : Once .id l)
    (hre : Reordered l l')
    (hacc : ∃ base stack d, respMessage base stack (l.flatMap Arg.words) = some d) :
    SameMessage l l' ↔ (∀ sc, early sc l = early sc l') ∧ FilledArgs l := by
  constructor
  · intro hsame
    obtain ⟨base, stack, d, h⟩ := hacc
    have h' (stack' : ℕ → AnswerBuf) := hsame base base stack stack' d h
    refine ⟨hre.early hname hid h (h' stack), fun a ha => ?_⟩
    have hfilled := filledArgs_of_same (hre.once hname) (hre.once hid) h'
    exact hfilled a (hre.perm.mem_iff.mp ha)
  · rintro ⟨hearly, hfilled⟩
    exact hre.same hname hid hearly hfilled

def withValue (opt : RespOpt) (h : opt.hasArg = true) (value : CStr) : Arg :=
  ⟨opt, some value, h.symm⟩

def nameArg : Arg := withValue .name rfl ⟨ascii "a.b", by decide⟩

def idArg : Arg := withValue .id rfl ⟨ascii "18", by decide⟩

def answerArg : Arg := withValue (.sect .an) rfl ⟨ascii "192.0.2.1", by decide⟩

def otherAnswerArg : Arg := withValue (.sect .an) rfl ⟨ascii "192.0.2.2", by decide⟩

def outputArg : Arg := withValue .output rfl ⟨ascii "f", by decide⟩

def nameFirst : List Arg := [nameArg, answerArg, idArg, outputArg]

def idMoved : List Arg := [nameArg, idArg, answerArg, outputArg]

def answerFirst : List Arg := [answerArg, nameArg, idArg, outputArg]

theorem nameFirst_accepted : respMessage 0 (fun _ => flatBuf 0) (nameFirst.flatMap Arg.words) =
    some [0, 18, 128, 0, 0, 0, 0, 1, 0, 0, 0, 0, 1, 97, 1, 98, 0, 0, 1, 0, 1, 0, 0, 0, 0, 0, 4,
      192, 0, 2, 1] := by
  decide +kernel

theorem filled_answerArg : Filled (argName answerArg.value) := by
  have hquad : IsQuad [ascii "192", ascii "0", ascii "2", ascii "1"] := by
    refine ⟨rfl, ?_⟩
    simp only [IsOctet]
    decide +kernel
  exact filled_quad (quadFront_quadText hquad)

/-- The identifier may be moved. -/
theorem idMoved_same : SameMessage nameFirst idMoved := by
  have hre : Reordered nameFirst idMoved :=
    ⟨.cons _ (.swap ..), fun sc => by cases sc <;> rfl⟩
  refine (option_order (by decide) (by decide) hre ⟨_, _, _, nameFirst_accepted⟩).mpr
    ⟨fun sc => by cases sc <;> rfl, fun a ha sc hopt => ?_⟩
  simp only [nameFirst, List.mem_cons, List.not_mem_nil, or_false] at ha
  rcases ha with rfl | rfl | rfl | rfl
  · cases hopt
  · exact filled_answerArg
  · cases hopt
  · cases hopt

/-- In front of the name an answer has no owner. -/
theorem answerFirst_differs : Once .name nameFirst ∧ Once .id nameFirst ∧
    Reordered nameFirst answerFirst ∧
    (∃ base stack d, respMessage base stack (nameFirst.flatMap Arg.words) = some d) ∧
    ¬SameMessage nameFirst answerFirst := by
  refine ⟨by decide, by decide, ⟨.swap .., fun sc => by cases sc <;> rfl⟩,
    ⟨_, _, _, nameFirst_accepted⟩, fun hsame => ?_⟩
  have hsame := hsame 0 0 (fun _ => flatBuf 0) (fun _ => flatBuf 0) _ nameFirst_accepted
  revert hsame
  decide +kernel

end DnsPkt.OptionOrder
