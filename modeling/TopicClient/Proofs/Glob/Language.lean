import TopicClient.Proofs.Glob.Encoding
import TopicClient.Proofs.Glob.Piece
import TopicClient.Proofs.Glob.Residuals

/-!
# The words of tokens

The expression of a sequence of tokens matches a word when the tokens match parts of it, one after
the other. The token of a wildcard matches what the wildcard spans, and the token of an anchor the
bytes of the characters the anchor takes.
-/

namespace TopicClient.Regex

theorem matches_concat_cons_iff {r : Regex} {rs : List Regex} {w : List UInt8} :
    Matches (concat (r :: rs)) w ↔ ∃ u v, w = u ++ v ∧ Matches r u ∧ Matches (concat rs) v := by
  cases rs with
  | nil =>
    constructor
    · intro h
      exact ⟨w, [], (List.append_nil w).symm, h, .empty⟩
    · rintro ⟨u, v, rfl, hu, hv⟩
      rw [matches_empty_iff.1 hv, List.append_nil]
      exact hu
  | cons s rs => exact matches_seq_iff

theorem matches_concat_append_iff {rs ss : List Regex} {w : List UInt8} :
    Matches (concat (rs ++ ss)) w ↔
      ∃ u v, w = u ++ v ∧ Matches (concat rs) u ∧ Matches (concat ss) v := by
  induction rs generalizing w with
  | nil =>
    constructor
    · intro h
      exact ⟨[], w, rfl, .empty, h⟩
    · rintro ⟨u, v, rfl, hu, hv⟩
      rw [matches_empty_iff.1 hu]
      exact hv
  | cons r rs ih =>
    rw [List.cons_append]
    simp only [matches_concat_cons_iff, ih]
    constructor
    · rintro ⟨t, _, rfl, ht, u, v, rfl, hu, hv⟩
      exact ⟨t ++ u, v, (List.append_assoc _ _ _).symm, ⟨t, u, rfl, ht, hu⟩, hv⟩
    · rintro ⟨_, v, rfl, ⟨t, u, rfl, ht, hu⟩, hv⟩
      exact ⟨t, u ++ v, List.append_assoc _ _ _, ht, u, v, rfl, hu, hv⟩

theorem matches_concat_singles_iff {text w : List UInt8} :
    Matches (concat (text.map fun b => .byte (.single b))) w ↔ w = text := by
  induction text generalizing w with
  | nil => exact matches_empty_iff
  | cons b text ih =>
    rw [List.map_cons]
    simp only [matches_concat_cons_iff, matches_byte_iff, ih, ByteSet.contains_single,
      decide_eq_true_eq]
    constructor
    · rintro ⟨_, v, rfl, ⟨_, rfl, rfl⟩, rfl⟩
      rfl
    · rintro rfl
      exact ⟨[b], text, rfl, ⟨b, rfl, rfl⟩, rfl⟩

theorem matches_star_byte_iff {set : ByteSet} {w : List UInt8} :
    Matches (.star (.byte set)) w ↔ ∀ b ∈ w, set.contains b = true := by
  induction w with
  | nil => exact ⟨fun _ => nofun, fun _ => .done⟩
  | cons b w ih =>
    simp only [matches_star_cons_iff, matches_byte_iff, List.forall_mem_cons, ← ih]
    constructor
    · rintro ⟨u, v, rfl, ⟨a, ha, hu⟩, hv⟩
      obtain ⟨rfl, rfl⟩ := List.cons_eq_cons.1 hu
      exact ⟨ha, hv⟩
    · rintro ⟨hb, hw⟩
      exact ⟨[], w, rfl, ⟨b, hb, rfl⟩, hw⟩

end TopicClient.Regex

namespace TopicClient.Glob

open Regex

def Words (ts : List Token) (w : List UInt8) : Prop := Matches (concat (sequenceParts ts)) w

theorem words_nil_iff {w : List UInt8} : Words [] w ↔ w = [] := matches_empty_iff

theorem words_cons_iff {t : Token} {ts : List Token} {w : List UInt8} :
    Words (t :: ts) w ↔ ∃ u v, w = u ++ v ∧ Matches (concat t.parts) u ∧ Words ts v := by
  rw [Words, sequenceParts]
  exact matches_concat_append_iff

theorem words_append_iff {ts us : List Token} {w : List UInt8} :
    Words (ts ++ us) w ↔ ∃ u v, w = u ++ v ∧ Words ts u ∧ Words us v := by
  have hparts : sequenceParts (ts ++ us) = sequenceParts ts ++ sequenceParts us := by
    induction ts with
    | nil => rfl
    | cons t ts ih => rw [List.cons_append, sequenceParts, sequenceParts, ih, List.append_assoc]
  rw [Words, hparts]
  exact matches_concat_append_iff

def SpansBytes (b : List Loose) (w : List UInt8) : Prop :=
  Spans Loose.repeats (fun l x => l.Takes x.toNat) b w

def SpansText (b : List Loose) (cs : List Char) : Prop :=
  Spans Loose.repeats (fun l c => l.Takes c.toNat) b cs

theorem spansBytes_append_iff {b b' : List Loose} {w : List UInt8} :
    SpansBytes (b ++ b') w ↔ ∃ u v, w = u ++ v ∧ SpansBytes b u ∧ SpansBytes b' v :=
  Spans.append_iff

theorem any_byteRanges_iff {r : Char × Char} (h : r.1.toNat < 128 ∧ r.2.toNat < 128) (b : UInt8) :
    (byteRanges r).any (fun r => r.1 ≤ b && b ≤ r.2) = true ↔
      r.1.toNat ≤ b.toNat ∧ b.toNat ≤ r.2.toNat := by
  obtain ⟨lo, hi⟩ := r
  rw [byteRanges, bytes_of_ascii h.1, bytes_of_ascii h.2]
  split_ifs with heq
  · subst heq
    simp [UInt8.le_iff_toNat_le, toNat_byte h.1]
  · simp [UInt8.le_iff_toNat_le, toNat_byte h.1, toNat_byte h.2]

theorem contains_memberSet (l : Listing) (b : UInt8) :
    (memberSet l.negated l.ranges).contains b = true ↔ l.Takes b.toNat := by
  have hany : (l.ranges.flatMap byteRanges).any (fun r => r.1 ≤ b && b ≤ r.2) = true ↔
      Has l.ranges b.toNat := by
    rw [List.any_flatMap, List.any_eq_true]
    refine exists_congr fun r => and_congr_right fun hr => ?_
    exact any_byteRanges_iff (l.ascii r hr) b
  rw [ByteSet.contains, memberSet, Listing.Takes, ← hany]
  cases l.negated <;> simp

theorem matches_listing_iff (l : Listing) (w : List UInt8) :
    Matches (concat l.token.parts) w ↔ ∃ b, l.Takes b.toNat ∧ w = [b] := by
  change Matches (.byte (memberSet l.negated l.ranges)) w ↔ _
  rw [matches_byte_iff]
  simp only [contains_memberSet]

theorem contains_except_slash_iff (b : UInt8) :
    (ByteSet.except slash).contains b = true ↔ b.toNat ≠ 47 := by
  rw [ByteSet.contains_except, decide_eq_true_eq, ne_eq, ← UInt8.toNat_inj]
  rfl

theorem matches_one_iff {w : List UInt8} :
    Matches (concat Token.one.parts) w ↔ ∃ b : UInt8, b.toNat ≠ 47 ∧ w = [b] := by
  change Matches (.byte (.except slash)) w ↔ _
  simp only [matches_byte_iff, contains_except_slash_iff]

theorem matches_run_iff {w : List UInt8} :
    Matches (concat Token.run.parts) w ↔ ∀ b ∈ w, b.toNat ≠ 47 := by
  change Matches (.star (.byte (.except slash))) w ↔ _
  simp only [matches_star_byte_iff, contains_except_slash_iff]

theorem matches_literal_iff {c : Char} {w : List UInt8} :
    Matches (concat (Token.literal c).parts) w ↔ w = bytes c := matches_concat_singles_iff

theorem matches_loose_iff (l : Loose) (w : List UInt8) :
    Matches (concat l.token.parts) w ↔ SpansBytes [l] w := by
  have hsingle : l.repeats = false →
      ((∃ b : UInt8, l.Takes b.toNat ∧ w = [b]) ↔ SpansBytes [l] w) := by
    intro hl
    rw [SpansBytes, Spans.cons_iff_of_single hl]
    simp only [Spans.nil_iff]
    constructor
    · rintro ⟨b, hb, rfl⟩
      exact ⟨b, [], rfl, hb, rfl⟩
    · rintro ⟨b, v, rfl, hb, rfl⟩
      exact ⟨b, hb, rfl⟩
  cases l with
  | one =>
    rw [← hsingle rfl]
    exact matches_one_iff
  | run =>
    have hrun : SpansBytes [.run] w ↔ (∀ b ∈ w, b.toNat ≠ 47) ∧ ([Loose.run] = [] → w = []) :=
      Spans.iff_of_repeats (by decide) (List.forall_mem_singleton.2 fun _ => Iff.rfl)
    rw [hrun, and_iff_left nofun]
    exact matches_run_iff
  | except l =>
    rw [← hsingle rfl]
    exact matches_listing_iff l w

theorem toNat_ofNat {n : ℕ} (h : n < 128) : (Char.ofNat n).toNat = n := by
  have hvalid : n.isValidChar := .inl (by omega)
  rw [Char.ofNat, dif_pos hvalid]
  rfl

theorem matches_anchor_iff (a : Anchor) (w : List UInt8) :
    Matches (concat a.token.parts) w ↔ ∃ c, a.Takes c ∧ w = bytes c := by
  have hchar : ∀ d : Char, Matches (concat (Token.literal d).parts) w ↔
      ∃ c, c = d ∧ w = bytes c := by
    intro d
    rw [matches_literal_iff]
    constructor
    · rintro rfl
      exact ⟨d, rfl, rfl⟩
    · rintro ⟨c, rfl, rfl⟩
      rfl
  cases a with
  | char d hd => exact hchar d
  | escaped d => exact hchar d
  | among l hpos =>
    refine (matches_listing_iff l w).trans ?_
    constructor
    · rintro ⟨b, hb, rfl⟩
      have hlt := l.lt_of_takes hpos hb
      refine ⟨Char.ofNat b.toNat, ?_, ?_⟩
      · rw [Anchor.Takes, toNat_ofNat hlt]
        exact hb
      · rw [bytes_of_ascii (by rw [toNat_ofNat hlt]; exact hlt), toNat_ofNat hlt,
          UInt8.ofNat_toNat]
    · rintro ⟨c, hc, rfl⟩
      have hlt := l.lt_of_takes hpos hc
      refine ⟨UInt8.ofNat c.toNat, ?_, bytes_of_ascii hlt⟩
      rw [toNat_byte hlt]
      exact hc

/-- The tokens of wildcards match what the wildcards span. -/
theorem words_loose_iff {b : List Loose} {w : List UInt8} :
    Words (b.map Loose.token) w ↔ SpansBytes b w := by
  induction b generalizing w with
  | nil => rw [List.map_nil, words_nil_iff, SpansBytes, Spans.nil_iff]
  | cons l b ih =>
    rw [List.map_cons, words_cons_iff, ← List.singleton_append, spansBytes_append_iff]
    simp only [matches_loose_iff, ih]

end TopicClient.Glob
