import DnsPkt.NameEncoder
import Mathlib.Data.List.Forall2

/-!
# Names of one packet, encoded and decoded

The names that `encode_name` writes into one packet read back from it by
pointer following. `decode_name` reads them back too, as long as it meets no
more pointers than it allows and no pointer to a position of 2^14 or more
was written.
-/

set_option autoImplicit false

namespace DnsPkt.CompressedNames
open DnsPkt.CheckedRun DnsPkt.Octets DnsPkt.Protocol DnsPkt.WireName
open DnsPkt.NameCompression DnsPkt.NameDecoder DnsPkt.NameEncoder

theorem tracks_start {enc : DnsEnc} (h : enc.suffix = []) {w : ℕ} (hw : w ≤ enc.pktBuf.length) :
    Tracks ⟨enc.pktBuf.take w, []⟩ enc where
  pkt := by
    rw [List.length_take, Nat.min_eq_left hw]
  suffix := h
  tab := ⟨Nat.zero_le _, by simp⟩

theorem sound_start {T : ℕ} {pkt : Bytes} (h : T ≤ pkt.length) :
    (Writer.mk pkt []).Sound T := ⟨h, by simp⟩

theorem placed_items (N : ℕ) (w : Writer) (items : List (Bytes × List Bytes)) :
    List.Forall₂ (fun p item => p.labels = item.2) (w.placed N items) items := by
  induction items generalizing w with
  | nil => exact .nil
  | cons item rest ih => exact .cons rfl (ih _)

theorem placed_mem {N : ℕ} {w : Writer} {items : List (Bytes × List Bytes)} {p : Placed}
    (h : p ∈ w.placed N items) : ∃ item ∈ items, p.labels = item.2 := by
  induction items generalizing w with
  | nil => simp [Writer.placed] at h
  | cons item rest ih =>
    rcases List.mem_cons.mp h with rfl | h
    · exact ⟨item, by simp, rfl⟩
    · obtain ⟨item', hmem, heq⟩ := ih h
      exact ⟨item', by simp [hmem], heq⟩

/-- Every name of a packet expands to its labels, up to case, and its pointer
goes to a position before it. -/
theorem encoded_names_expand (items : List (Bytes × List Bytes)) (enc : DnsEnc)
    (hempty : enc.suffix = []) (hgood : ∀ p ∈ items, GoodName p.2)
    (hroom : (items.map fun p => p.1.length+dnsNameMaxlen).sum ≤ enc.pktBuf.length) :
    ∃ starts fin t, encodeNames 0 (items.map fun p => (p.1, dotted p.2)) enc =
        .ok (starts, fin) t ∧
      ((∀ o ∈ starts, o < 2^14) → List.Forall₂ (fun o item =>
        (∃ ls, (∀ ls', Expands (t.pktBuf.take fin) o ls' ↔ ls' = ls) ∧ SameName ls item.2) ∧
        ∀ q hi lo, Along (t.pktBuf.take fin) o q → (t.pktBuf.take fin)[q]? = some hi →
          192 ≤ hi.toNat → (t.pktBuf.take fin)[q+1]? = some lo → target hi lo < o) starts
            items) := by
  obtain ⟨t, ht, htrack⟩ := encodeNames_run (tracks_start hempty (Nat.zero_le _)) items hgood
    (by simpa using hroom)
  refine ⟨_, _, t, by simpa using ht, fun hlow => ?_⟩
  have hsound : (Writer.mk (enc.pktBuf.take 0) []).Sound 0 := sound_start (Nat.zero_le _)
  have hlabels : ∀ p ∈ items, ∀ l ∈ p.2, GoodLabel l := fun p hp => (hgood p hp).labels
  have hnear := placed_near hsound hlabels fun p hp => hlow _ (List.mem_map_of_mem hp)
  rw [List.take_zero] at *
  rw [htrack.pkt, List.forall₂_map_left_iff]
  have hread := placed_reads hsound hlabels hnear
  have hback := placed_pointer hsound hlabels hnear
  have hall := (List.forall₂_and_left _ _).mpr ⟨fun p hp => And.intro (hread p hp) (hback p hp),
    placed_items dnsMaxSuffix ⟨[], []⟩ items⟩
  refine hall.imp ?_
  rintro p item ⟨⟨⟨ls, hs, hr⟩, hp⟩, hitem⟩
  have hexp := hr.expands le_rfl
  refine ⟨⟨ls, fun ls' => ⟨fun h => h.unique hexp, fun h => h ▸ hexp⟩, hitem ▸ hs⟩, hp⟩

def newEnc (max : ℕ) : DnsEnc := ⟨List.replicate max 0, 0, [], Nat.zero_le _⟩

def twoItems : List (Bytes × List Bytes) := [([7, 7], [[97], [98]]), ([], [[99], [65], [66]])]

theorem two_names_expand : ∃ starts fin t,
    encodeNames 0 (twoItems.map fun p => (p.1, dotted p.2)) (newEnc 600) = .ok (starts, fin) t ∧
    List.Forall₂ (fun o item =>
      (∃ ls, (∀ ls', Expands (t.pktBuf.take fin) o ls' ↔ ls' = ls) ∧ SameName ls item.2) ∧
      ∀ q hi lo, Along (t.pktBuf.take fin) o q → (t.pktBuf.take fin)[q]? = some hi →
        192 ≤ hi.toNat → (t.pktBuf.take fin)[q+1]? = some lo → target hi lo < o)
      starts twoItems := by
  obtain ⟨starts, fin, t, hrun, h⟩ := encoded_names_expand twoItems (newEnc 600) rfl
    (by decide +kernel) (by decide +kernel)
  have hstarts : (encodeNames 0 (twoItems.map fun p => (p.1, dotted p.2))
      (newEnc 600)).result.map (fun p => p.1.1) = some [2, 7] := by decide +kernel
  obtain ⟨p, u, hp, hpair⟩ := Outcome.eq_ok hstarts
  obtain rfl : (starts, fin) = p := by
    have := hrun.symm.trans hp
    cases this
    rfl
  obtain rfl : starts = [2, 7] := hpair
  exact ⟨[2, 7], fin, t, hrun, h (by decide)⟩

def placedNames (enc : DnsEnc) (names : List (List Bytes)) : List Placed :=
  (Writer.mk (enc.pktBuf.take dnsHdrLen) []).placed dnsMaxSuffix (names.map fun ls => ([], ls))

/-- A name that reads back with `j` pointers is decoded exactly when these
are at most one more than `DNS_MAX_JMP`. -/
theorem decodeName_of_reads {pkt : Bytes} {off j : ℕ} {ls : List Bytes}
    (h : Reads 63 12 pkt off j ls (dotted ls)) {nlen : ℕ} (hroom : (dotted ls).length < nlen) :
    (∃ n e out, decodeName pkt off nlen = .ok ⟨.ok n, e, out⟩) ↔ j ≤ dnsMaxJmp+1 := by
  have h' := h.mono (show 63 ≤ 191 by decide) le_rfl
  constructor
  · rintro ⟨n, e, out, hd⟩
    obtain ⟨j', ls', text', hr, hj, -⟩ := (decodeName_ok_iff _ _ _ _ _ _).mp hd
    rw [(h'.unique hr).1]
    exact hj
  · intro hj
    obtain ⟨e, he⟩ := h.ends
    exact ⟨_, e, _, (decodeName_ok_iff _ _ _ _ _ _).mpr ⟨j, ls, _, h', hj, hroom, rfl, rfl, he⟩⟩

/-- As long as no name is compressed against a suffix at 2^14 or later, all
names of a packet can be decoded exactly when none is compressed against a
suffix that ends behind more than `DNS_MAX_JMP` pointers. -/
theorem encoded_names_decode_iff (names : List (List Bytes)) (enc : DnsEnc)
    (hempty : enc.suffix = []) (hgood : ∀ ls ∈ names, GoodName ls)
    (hroom : dnsHdrLen+names.length*dnsNameMaxlen ≤ enc.pktBuf.length)
    (hnear : ∀ p ∈ placedNames enc names, ∀ e, p.mark = some e → e.offset < 2^14) :
    ∃ starts fin t, encodeNames dnsHdrLen (names.map fun ls => ([], dotted ls)) enc =
        .ok (starts, fin) t ∧
      ((∀ o ∈ starts, ∀ nlen, dnsNameMaxstr < nlen →
        ∃ n e out, decodeName (t.pktBuf.take fin) o nlen = .ok ⟨.ok n, e, out⟩) ↔
      ∀ p ∈ placedNames enc names, ∀ e, p.mark = some e → e.depth ≤ dnsMaxJmp) := by
  have hhdr : dnsHdrLen ≤ enc.pktBuf.length := by omega
  have hlen : (enc.pktBuf.take dnsHdrLen).length = dnsHdrLen := by
    rw [List.length_take, Nat.min_eq_left hhdr]
  have hitems : ∀ p ∈ names.map (fun ls => (([], ls) : Bytes × List Bytes)), GoodName p.2 := by
    intro p hp
    obtain ⟨ls, hls, rfl⟩ := List.mem_map.mp hp
    exact hgood ls hls
  have hsum : ((names.map fun ls => (([], ls) : Bytes × List Bytes)).map
      fun p => p.1.length+dnsNameMaxlen).sum = names.length*dnsNameMaxlen := by
    simp [Function.comp_def]
  obtain ⟨t, ht, htrack⟩ := encodeNames_run (tracks_start hempty hhdr)
    (names.map fun ls => ([], ls)) hitems (by rw [hsum, hlen]; exact hroom)
  refine ⟨_, _, t, by simpa [hlen, Function.comp_def] using ht, ?_⟩
  have hsound : (Writer.mk (enc.pktBuf.take dnsHdrLen) []).Sound 12 := sound_start hlen.ge
  have hreads := placed_reads hsound (fun p hp => (hitems p hp).labels) hnear
  have hdec (p : Placed) (hp : p ∈ placedNames enc names) (nlen : ℕ) (hn : dnsNameMaxstr < nlen) :
      (∃ n e out, decodeName (Writer.names dnsMaxSuffix ⟨enc.pktBuf.take dnsHdrLen, []⟩
        (names.map fun ls => ([], ls))).pkt p.offset nlen = .ok ⟨.ok n, e, out⟩) ↔
        ∀ e, p.mark = some e → e.depth ≤ dnsMaxJmp := by
    obtain ⟨ls, hs, hr⟩ := hreads p hp
    obtain ⟨item, hitem, hp'⟩ := placed_mem hp
    have hle := (hitems item hitem).le
    rw [← hp', ← length_dotted_same hs] at hle
    rw [decodeName_of_reads hr (by omega)]
    cases p.mark with
    | none => simp [depthOf]
    | some e => simp [depthOf]
  rw [htrack.pkt]
  constructor
  · intro h p hp
    exact (hdec p hp (dnsNameMaxstr+1) (by omega)).mp
      (h p.offset (List.mem_map_of_mem hp) _ (by omega))
  · intro h o ho nlen hn
    obtain ⟨p, hp, rfl⟩ := List.mem_map.mp ho
    exact (hdec p hp nlen hn).mpr (h p hp)

def nestedNames : List (List Bytes) :=
  (List.range 19).map fun i => (List.range (i+1)).reverse.map fun k => [UInt8.ofNat (97+k)]

theorem nested_names_exceed_jumps : (∀ ls ∈ nestedNames, GoodName ls) ∧
    ∃ starts fin t, encodeNames dnsHdrLen (nestedNames.map fun ls => ([], dotted ls))
        (newEnc 5000) = .ok (starts, fin) t ∧
      ∃ o ∈ starts, ∃ e out, decodeName (t.pktBuf.take fin) o dnsMsgSize =
        .ok ⟨.error .emaxjmp, e, out⟩ := by
  refine ⟨by decide +kernel, ?_⟩
  have hlast : (encodeNames dnsHdrLen (nestedNames.map fun ls => ([], dotted ls))
      (newEnc 5000)).result.map (fun p => (decide (83 ∈ p.1.1),
        (decodeName (p.2.pktBuf.take p.1.2) 83 dnsMsgSize).toOption.bind fun r =>
          Except.casesOn (motive := fun _ => Option DnsEc) r.result some fun _ => none)) =
        some (true, some .emaxjmp) := by decide +kernel
  obtain ⟨p, t, hrun, hp⟩ := Outcome.eq_ok hlast
  simp only [Prod.mk.injEq, decide_eq_true_eq] at hp
  obtain ⟨hmem, herr⟩ := hp
  refine ⟨p.1, p.2, t, hrun, 83, hmem, ?_⟩
  obtain ⟨⟨result, e, out⟩, hr, herr⟩ := Option.bind_eq_some_iff.mp herr
  cases result with
  | ok n => cases herr
  | error ec =>
    cases herr
    cases hd : decodeName (t.pktBuf.take p.2) 83 dnsMsgSize with
    | error c =>
      rw [hd] at hr
      cases hr
    | ok r =>
      rw [hd] at hr
      exact ⟨e, out, by rw [Option.some.inj hr]⟩

theorem compressed_pair_decodes : ∃ starts fin t,
    encodeNames dnsHdrLen [([], dotted [[97], [98]]), ([], dotted [[99], [65], [66]])]
      (newEnc 600) = .ok (starts, fin) t ∧
    ∀ o ∈ starts, ∀ nlen, dnsNameMaxstr < nlen →
      ∃ n e out, decodeName (t.pktBuf.take fin) o nlen = .ok ⟨.ok n, e, out⟩ := by
  have hmarks : (placedNames (newEnc 600) [[[97], [98]], [[99], [65], [66]]]).all
      (fun p => p.mark.all fun e => e.offset < 2^14 ∧ e.depth ≤ dnsMaxJmp) = true := by
    decide +kernel
  have hall : ∀ p ∈ placedNames (newEnc 600) [[[97], [98]], [[99], [65], [66]]], ∀ e,
      p.mark = some e → e.offset < 2^14 ∧ e.depth ≤ dnsMaxJmp := by
    intro p hp e he
    have := List.all_eq_true.mp hmarks p hp
    simpa [he] using this
  obtain ⟨starts, fin, t, hrun, h⟩ := encoded_names_decode_iff [[[97], [98]], [[99], [65], [66]]]
    (newEnc 600) rfl (by decide +kernel) (by decide +kernel) fun p hp e he => (hall p hp e he).1
  exact ⟨starts, fin, t, hrun, h.mpr fun p hp e he => (hall p hp e he).2⟩

end DnsPkt.CompressedNames
