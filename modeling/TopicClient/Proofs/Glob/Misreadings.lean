import Mathlib.Tactic.ByContra
import TopicClient.Proofs.Glob.Groups

/-!
# Lists that are read differently

A topic with one character for each piece that takes one leaves no choice of what takes what: the
lengths decide it, for the characters of the server and the bytes of the client. So a character
that only one of them reads in a list tells them apart: `exists_differ_of_misread`.
-/

namespace TopicClient.Glob

open Regex

def sampleText (ps : List Piece) : List Char :=
  (ps.filter fun p => !p.repeats).map Piece.sample

theorem sampleText_cons_of_single {p : Piece} (hp : p.repeats = false) (ps : List Piece) :
    sampleText (p :: ps) = p.sample :: sampleText ps := by
  simp [sampleText, hp]

theorem sampleText_cons_of_repeats {p : Piece} (hp : p.repeats = true) (ps : List Piece) :
    sampleText (p :: ps) = sampleText ps := by
  simp [sampleText, hp]

theorem length_sampleText (ps : List Piece) : (sampleText ps).length = singlePieces ps := by
  rw [sampleText, List.length_map, singlePieces, Spans.singles, List.countP_eq_length_filter]

theorem eq_run_of_repeats {p : Piece} (h : p.repeats = true) : p = .loose .run := by
  cases p with
  | loose l =>
    cases l with
    | run => rfl
    | one | except => cases h
  | anchor | misread | opening | closing => cases h

section Client

theorem words_sampleText {ps : List Piece} (hbrace : ∀ p ∈ ps, p.isBrace = false) :
    Words (ps.map Piece.token) (encode (sampleText ps)) := by
  induction ps with
  | nil => exact words_nil_iff.2 rfl
  | cons p ps ih =>
    obtain ⟨hp, hps⟩ := List.forall_mem_cons.1 hbrace
    cases hrepeats : p.repeats with
    | true =>
      rw [sampleText_cons_of_repeats hrepeats, eq_run_of_repeats hrepeats]
      exact words_cons_iff.2 ⟨[], _, rfl, matches_run_nil, ih hps⟩
    | false =>
      rw [sampleText_cons_of_single hrepeats]
      have hsample := Piece.matches_sample hrepeats hp
      exact words_cons_iff.2 ⟨encode [p.sample], _, encode_append [p.sample] _, hsample, ih hps⟩

theorem length_bytes_of_ascii {c : Char} (h : c.toNat < 128) : (bytes c).length = 1 := by
  rw [bytes_of_ascii h]
  rfl

/-- No token matches fewer bytes than the sample has. -/
theorem Piece.length_sample_le {p : Piece} (hrepeats : p.repeats = false)
    (hbrace : p.isBrace = false) {w : List UInt8} (hw : Matches (concat p.token.parts) w) :
    (bytes p.sample).length ≤ w.length := by
  have hlist : ∀ l : Listing, Matches (concat l.token.parts) w →
      (bytes l.sample).length ≤ w.length := by
    intro l hl
    obtain ⟨b, _, rfl⟩ := (matches_listing_iff l w).1 hl
    rw [length_bytes_of_ascii l.sample_ascii]
    exact Nat.le_refl 1
  cases p with
  | loose l =>
    cases l with
    | one =>
      obtain ⟨b, v, rfl, _⟩ := (Spans.cons_iff_of_single rfl).1 ((matches_loose_iff .one w).1 hw)
      have hone : (bytes 'a').length = 1 := length_bytes_of_ascii (by decide)
      change (bytes 'a').length ≤ _
      rw [hone, List.length_cons]
      omega
    | run => cases hrepeats
    | except l => exact hlist l hw
  | anchor a =>
    obtain ⟨c, hc, rfl⟩ := (matches_anchor_iff a w).1 hw
    cases a with
    | char d | escaped d =>
      obtain rfl : c = d := hc
      exact Nat.le_refl _
    | among l hpos =>
      have hsample : (bytes l.sample).length = 1 := length_bytes_of_ascii l.sample_ascii
      have hlength : (bytes c).length = 1 := length_bytes_of_ascii (l.lt_of_takes hpos hc)
      change (bytes l.sample).length ≤ _
      omega
  | misread l => exact hlist l hw
  | opening | closing => cases hbrace

theorem length_encode_sampleText_le {ps : List Piece} (hbrace : ∀ p ∈ ps, p.isBrace = false)
    {w : List UInt8} (hw : Words (ps.map Piece.token) w) :
    (encode (sampleText ps)).length ≤ w.length := by
  induction ps generalizing w with
  | nil => exact Nat.zero_le _
  | cons p ps ih =>
    obtain ⟨hp, hps⟩ := List.forall_mem_cons.1 hbrace
    obtain ⟨u, v, rfl, hu, hv⟩ := words_cons_iff.1 hw
    have hle := ih hps hv
    cases hrepeats : p.repeats with
    | true =>
      rw [sampleText_cons_of_repeats hrepeats, List.length_append]
      omega
    | false =>
      have hsample := Piece.length_sample_le hrepeats hp hu
      rw [sampleText_cons_of_single hrepeats, encode_cons, List.length_append,
        List.length_append]
      omega

variable {ps qs : List Piece} {p : Piece} {c : Char}

theorem words_sampled (hbrace : ∀ q ∈ ps ++ p :: qs, q.isBrace = false)
    (hc : Matches (concat p.token.parts) (bytes c)) :
    Words ((ps ++ p :: qs).map Piece.token) (encode (sampleText ps ++ c :: sampleText qs)) := by
  obtain ⟨hps, hqs⟩ := List.forall_mem_append.1 hbrace
  rw [List.map_append, encode_append]
  refine words_append_iff.2 ⟨_, _, rfl, words_sampleText hps, ?_⟩
  exact words_cons_iff.2 ⟨bytes c, _, rfl, hc, words_sampleText (List.forall_mem_cons.1 hqs).2⟩

/-- In a topic of samples with another character of the same length for one piece, the token of
the piece takes this character. -/
theorem matches_of_words_sampled (hbrace : ∀ q ∈ ps ++ p :: qs, q.isBrace = false)
    (hrepeats : p.repeats = false) (hc : (bytes c).length = (bytes p.sample).length)
    (h : Words ((ps ++ p :: qs).map Piece.token) (encode (sampleText ps ++ c :: sampleText qs))) :
    Matches (concat p.token.parts) (bytes c) := by
  obtain ⟨hps, hpqs⟩ := List.forall_mem_append.1 hbrace
  obtain ⟨hp, hqs⟩ := List.forall_mem_cons.1 hpqs
  rw [List.map_append, encode_append] at h
  obtain ⟨u, v, huv, hu, hv⟩ := words_append_iff.1 h
  obtain ⟨x, y, rfl, hx, hy⟩ := words_cons_iff.1 hv
  have hule := length_encode_sampleText_le hps hu
  have hxle := Piece.length_sample_le hrepeats hp hx
  have hyle := length_encode_sampleText_le hqs hy
  have hlength := congrArg List.length huv
  simp only [encode_cons, List.length_append] at hlength
  obtain ⟨rfl, hxy⟩ := List.append_inj huv (by omega)
  obtain ⟨rfl, _⟩ := List.append_inj hxy (by omega)
  exact hx

end Client

section Server

variable {ps qs : List Piece} {p : Piece} {c : Char}

theorem matches_sampleText (hread : ∀ p ∈ ps, p.IsRead)
    (hsample : ∀ p ∈ ps, p.repeats = false → p.term.Takes p.sample) :
    ServerRule.Matches (ps.map Piece.term) (sampleText ps) := by
  induction ps with
  | nil => exact .done
  | cons p ps ih =>
    obtain ⟨hp, hps⟩ := List.forall_mem_cons.1 hread
    obtain ⟨hp', hps'⟩ := List.forall_mem_cons.1 hsample
    have hterm := Piece.repeats_term hp
    cases hrepeats : p.repeats with
    | true =>
      rw [sampleText_cons_of_repeats hrepeats]
      exact .skip (hterm.trans hrepeats) (ih hps hps')
    | false =>
      rw [sampleText_cons_of_single hrepeats]
      exact .take (hterm.trans hrepeats) (hp' hrepeats) (ih hps hps')

theorem matches_sampled (hread : ∀ q ∈ ps ++ p :: qs, q.IsRead)
    (hsample : ∀ q ∈ ps ++ p :: qs, q.repeats = false → q.term.Takes q.sample)
    (hrepeats : p.repeats = false) (hc : p.term.Takes c) :
    ServerRule.Matches ((ps ++ p :: qs).map Piece.term) (sampleText ps ++ c :: sampleText qs) := by
  obtain ⟨hps, hpqs⟩ := List.forall_mem_append.1 hread
  obtain ⟨hp, hqs⟩ := List.forall_mem_cons.1 hpqs
  obtain ⟨hps', hpqs'⟩ := List.forall_mem_append.1 hsample
  have hqs' := (List.forall_mem_cons.1 hpqs').2
  rw [List.map_append]
  refine Spans.append_iff.2 ⟨_, _, rfl, matches_sampleText hps hps', ?_⟩
  exact .take ((Piece.repeats_term hp).trans hrepeats) hc (matches_sampleText hqs hqs')

theorem takes_of_matches_sampled (hread : ∀ q ∈ ps ++ p :: qs, q.IsRead)
    (hrepeats : p.repeats = false)
    (h : ServerRule.Matches ((ps ++ p :: qs).map Piece.term)
      (sampleText ps ++ c :: sampleText qs)) : p.term.Takes c := by
  obtain ⟨hps, hpqs⟩ := List.forall_mem_append.1 hread
  obtain ⟨hp, hqs⟩ := List.forall_mem_cons.1 hpqs
  rw [List.map_append, List.map_cons] at h
  refine Spans.takes_of_tight ((Piece.repeats_term hp).trans hrepeats) h ?_ ?_
  · rw [length_sampleText, singles_map_term hps]
  · rw [length_sampleText, singles_map_term hqs]

end Server

theorem matches_listing_bytes_iff (l : Listing) {c : Char} (hc : c.toNat < 128) :
    Matches (concat l.token.parts) (bytes c) ↔ l.Takes c.toNat := by
  rw [matches_listing_iff, bytes_of_ascii hc]
  constructor
  · rintro ⟨b, hb, heq⟩
    obtain rfl := (List.cons_eq_cons.1 heq).1
    rw [toNat_byte hc] at hb
    exact hb
  · intro h
    refine ⟨_, ?_, rfl⟩
    rw [toNat_byte hc]
    exact h

theorem ne_spell_of_sampled {ps qs : List Piece} {l : Listing} {hl : l.Misread} {c : Char} :
    sampleText ps ++ c :: sampleText qs ≠ spell (ps ++ .misread l hl :: qs) := by
  intro h
  have hmem : .misread l hl ∈ ps ++ .misread l hl :: qs :=
    List.mem_append_right ps List.mem_cons_self
  have hlt := singlePieces_lt_length hmem
  have hlength := congrArg List.length h
  rw [singlePieces_append_cons rfl] at hlt
  rw [List.length_append, List.length_cons, length_sampleText, length_sampleText] at hlength
  omega

/-- A list that the server reads, but not as the client does, tells them apart. -/
theorem exists_differ_of_misread {ps : List Piece} (hbrace : ∀ p ∈ ps, p.isBrace = false)
    (hread : ∀ p ∈ ps, p.IsRead) {l : Listing} {hl : l.Misread} (hmem : .misread l hl ∈ ps) :
    ∃ cs, cs ≠ spell ps ∧ ¬ (Words (ps.map Piece.token) (encode cs) ↔
      ServerRule.Matches (ps.map Piece.term) cs) := by
  by_cases hmore : ∃ k hk, .misread k hk ∈ ps ∧
      ∃ c : Char, c.toNat < 128 ∧ k.Takes c.toNat ∧ ¬ k.term.Takes c
  · -- The client takes a character that the server does not.
    obtain ⟨k, hk, hkmem, c, hascii, hclient, hserver⟩ := hmore
    obtain ⟨qs, rs, rfl⟩ := List.append_of_mem hkmem
    refine ⟨sampleText qs ++ c :: sampleText rs, ne_spell_of_sampled, fun h => hserver ?_⟩
    have hwords := words_sampled hbrace ((matches_listing_bytes_iff k hascii).2 hclient)
    exact takes_of_matches_sampled hread rfl (h.1 hwords)
  · -- All that the client takes is taken by the server as well, the samples among it.
    obtain ⟨c, hascii, hdiffer⟩ : ∃ c : Char, c.toNat < 128 ∧
        ¬ (l.term.Takes c ↔ l.Takes c.toNat) := by
      rcases hl with hrefuses | ⟨_, h⟩
      · have hlist : ServerRule.ReadsList l.text l.term := hread _ hmem
        exact absurd (hlist.reads .done) (hrefuses [] _)
      · exact h
    have hsample : ∀ p ∈ ps, p.repeats = false → p.term.Takes p.sample := by
      intro p hp hrepeats
      cases p with
      | loose k =>
        cases k with
        | one => exact (by decide : 'a' ≠ '/')
        | run => cases hrepeats
        | except k _ hk => exact (hk.takes_iff _).2 k.has_sample
      | anchor a => exact (a.term_takes_iff _).2 a.takes_sample
      | misread k hk =>
        by_contra hnot
        exact hmore ⟨k, hk, hp, k.sample, k.sample_ascii, k.has_sample, hnot⟩
      | opening | closing => rfl
    have hclient : ¬ l.Takes c.toNat := by
      intro hclient
      refine hdiffer ⟨fun _ => hclient, fun _ => ?_⟩
      by_contra hserver
      exact hmore ⟨l, hl, hmem, c, hascii, hclient, hserver⟩
    have hserver : l.term.Takes c := by
      by_contra hserver
      exact hdiffer ⟨fun h => absurd h hserver, fun h => absurd h hclient⟩
    obtain ⟨qs, rs, rfl⟩ := List.append_of_mem hmem
    refine ⟨sampleText qs ++ c :: sampleText rs, ne_spell_of_sampled, fun h => hclient ?_⟩
    have hmatches := matches_sampled hread hsample rfl hserver
    have hlength : (bytes c).length = (bytes l.sample).length := by
      rw [length_bytes_of_ascii hascii, length_bytes_of_ascii l.sample_ascii]
    have hwords := matches_of_words_sampled (p := .misread l hl) hbrace rfl hlength (h.2 hmatches)
    exact (matches_listing_bytes_iff l hascii).1 hwords

end TopicClient.Glob
