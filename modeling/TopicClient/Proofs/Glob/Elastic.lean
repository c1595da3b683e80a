import TopicClient.Proofs.Glob.Blocks

/-!
# Blocks that take characters and bytes alike

A wildcard that takes one character for the server takes one byte for the client. The rest of the
bytes must go to a run beside it, so a block takes the same texts for both when it has no such
wildcard, or only one and a run: `Elastic.spansBytes_iff`.
-/

namespace TopicClient.Glob

abbrev singles (b : List Loose) : ℕ := Spans.singles Loose.repeats b

/-- The block has no wildcard that takes one letter, or one only and a run to take what is left of
its character. -/
def Elastic (b : List Loose) : Prop := singles b = 0 ∨ singles b = 1 ∧ Loose.run ∈ b

instance (b : List Loose) : Decidable (Elastic b) :=
  inferInstanceAs (Decidable (singles b = 0 ∨ singles b = 1 ∧ Loose.run ∈ b))

theorem forall_mem_bytes_ne_slash (c : Char) : (∀ x ∈ bytes c, x.toNat ≠ 47) ↔ c.toNat ≠ 47 := by
  rcases Nat.lt_or_ge c.toNat 128 with h | h
  · rw [bytes_of_ascii h, List.forall_mem_singleton, toNat_byte h]
  · constructor
    · intro _
      omega
    · intro _ x hx
      have := le_of_mem_bytes h hx
      omega

theorem forall_mem_encode_ne_slash (cs : List Char) :
    (∀ x ∈ encode cs, x.toNat ≠ 47) ↔ ∀ c ∈ cs, c.toNat ≠ 47 := by
  simp only [encode, List.forall_mem_flatMap, forall_mem_bytes_ne_slash]

theorem encode_eq_nil_iff {cs : List Char} : encode cs = [] ↔ cs = [] := by
  constructor
  · intro h
    exact encode_injective h
  · rintro rfl
    rfl

theorem repeats_iff {l : Loose} : l.repeats = true ↔ l = .run := by
  cases l <;> simp [Loose.repeats]

theorem eq_run_of_singles_eq_zero {b : List Loose} (h : singles b = 0) : ∀ l ∈ b, l = .run := by
  intro l hl
  have := List.countP_eq_zero.1 h l hl
  rw [Bool.not_eq_true, Bool.not_eq_false'] at this
  exact repeats_iff.1 this

theorem exists_single_of_singles_eq_one {b : List Loose} (h : singles b = 1) :
    ∃ b₁ l b₂, b = b₁ ++ l :: b₂ ∧ l.repeats = false ∧ (∀ l ∈ b₁, l = .run) ∧
      ∀ l ∈ b₂, l = .run := by
  obtain ⟨l, hl, hsingle⟩ := List.countP_pos_iff.1 (show 0 < singles b by omega)
  obtain ⟨b₁, b₂, rfl⟩ := List.append_of_mem hl
  have hrepeats : l.repeats = false := by simpa using hsingle
  rw [singles, Spans.singles_append, Spans.singles_cons_of_single hrepeats] at h
  change singles b₁ + (singles b₂ + 1) = 1 at h
  exact ⟨b₁, l, b₂, rfl, hrepeats, eq_run_of_singles_eq_zero (by omega),
    eq_run_of_singles_eq_zero (by omega)⟩

section

variable {α : Type} (code : α → ℕ) {w : List α} {b b₁ b₂ : List Loose} {l : Loose}

theorem spans_runs_iff (hb : ∀ l ∈ b, l = .run) :
    Spans Loose.repeats (fun l a => l.Takes (code a)) b w ↔
      (∀ a ∈ w, code a ≠ 47) ∧ (b = [] → w = []) := by
  refine Spans.iff_of_repeats (fun l hl => repeats_iff.2 (hb l hl)) fun l hl a => ?_
  rw [hb l hl, Loose.Takes]

theorem spans_one_iff (hl : l.repeats = false) (hb₁ : ∀ l ∈ b₁, l = .run)
    (hb₂ : ∀ l ∈ b₂, l = .run) :
    Spans Loose.repeats (fun l a => l.Takes (code a)) (b₁ ++ l :: b₂) w ↔
      ∃ u a v, w = u ++ a :: v ∧ l.Takes (code a) ∧
        ((∀ a ∈ u, code a ≠ 47) ∧ (b₁ = [] → u = [])) ∧
        (∀ a ∈ v, code a ≠ 47) ∧ (b₂ = [] → v = []) := by
  simp only [Spans.append_iff, Spans.cons_iff_of_single hl, spans_runs_iff code hb₁,
    spans_runs_iff code hb₂]
  constructor
  · rintro ⟨u, _, rfl, hu, a, v, rfl, ha, hv⟩
    exact ⟨u, a, v, rfl, ha, hu, hv⟩
  · rintro ⟨u, a, v, rfl, ha, hu, hv⟩
    exact ⟨u, a :: v, rfl, hu, a, v, rfl, ha, hv⟩

end

/-- A wildcard between runs takes a byte of the character that it takes. -/
theorem spansText_of_spansBytes {b₁ b₂ : List Loose} {l : Loose} (hl : l.repeats = false)
    (hb₁ : ∀ l ∈ b₁, l = .run) (hb₂ : ∀ l ∈ b₂, l = .run) {cs : List Char}
    (h : SpansBytes (b₁ ++ l :: b₂) (encode cs)) : SpansText (b₁ ++ l :: b₂) cs := by
  obtain ⟨u, x, v, hcs, hx, ⟨hu, hu'⟩, hv, hv'⟩ := (spans_one_iff _ hl hb₁ hb₂).1 h
  obtain ⟨s, c, t, p, q, rfl, hc, rfl, rfl⟩ := exists_char_of_encode_eq hcs
  refine (spans_one_iff _ hl hb₁ hb₂).2 ⟨s, c, t, rfl, ?_, ⟨?_, ?_⟩, ?_, ?_⟩
  · rcases Nat.lt_or_ge c.toNat 128 with hascii | hlarge
    · have hmem : x ∈ bytes c := by
        rw [hc]
        exact List.mem_append_right p List.mem_cons_self
      rw [bytes_of_ascii hascii, List.mem_singleton] at hmem
      rw [hmem, toNat_byte hascii] at hx
      exact hx
    · exact Loose.takes_of_le hlarge
  · exact (forall_mem_encode_ne_slash s).1 fun x hx => hu x (List.mem_append_left p hx)
  · intro hnil
    exact encode_eq_nil_iff.1 (List.append_eq_nil_iff.1 (hu' hnil)).1
  · exact (forall_mem_encode_ne_slash t).1 fun x hx => hv x (List.mem_append_right q hx)
  · intro hnil
    exact encode_eq_nil_iff.1 (List.append_eq_nil_iff.1 (hv' hnil)).2

/-- A wildcard between runs takes a character, and a run takes what is left of its bytes. -/
theorem spansBytes_of_spansText {b₁ b₂ : List Loose} {l : Loose} (hl : l.repeats = false)
    (hb₁ : ∀ l ∈ b₁, l = .run) (hb₂ : ∀ l ∈ b₂, l = .run) (hrun : b₁ ≠ [] ∨ b₂ ≠ [])
    {cs : List Char} (h : SpansText (b₁ ++ l :: b₂) cs) :
    SpansBytes (b₁ ++ l :: b₂) (encode cs) := by
  obtain ⟨s, c, t, rfl, hc, ⟨hs, hs'⟩, ht, ht'⟩ := (spans_one_iff _ hl hb₁ hb₂).1 h
  -- The bytes before the one that `l` takes go to the run before it, and those after to the other.
  have hsplit : ∀ p x q, bytes c = p ++ x :: q → (p = [] ∨ b₁ ≠ []) → (q = [] ∨ b₂ ≠ []) →
      l.Takes x.toNat → (∀ x ∈ p, x.toNat ≠ 47) → (∀ x ∈ q, x.toNat ≠ 47) →
      SpansBytes (b₁ ++ l :: b₂) (encode (s ++ c :: t)) := by
    intro p x q hbytes hp hq hx hp' hq'
    refine (spans_one_iff _ hl hb₁ hb₂).2 ⟨encode s ++ p, x, q ++ encode t, ?_, hx,
      ⟨List.forall_mem_append.2 ⟨(forall_mem_encode_ne_slash s).2 hs, hp'⟩, ?_⟩,
      List.forall_mem_append.2 ⟨hq', (forall_mem_encode_ne_slash t).2 ht⟩, ?_⟩
    · rw [encode_append, encode_cons, hbytes, List.append_assoc, List.append_assoc,
        List.cons_append]
    · intro hnil
      rw [hs' hnil, hp.resolve_right (not_not_intro hnil)]
      rfl
    · intro hnil
      rw [ht' hnil, hq.resolve_right (not_not_intro hnil)]
      rfl
  rcases Nat.lt_or_ge c.toNat 128 with hascii | hlarge
  · refine hsplit [] (UInt8.ofNat c.toNat) [] (bytes_of_ascii hascii) (.inl rfl) (.inl rfl) ?_
      nofun nofun
    rw [toNat_byte hascii]
    exact hc
  · have hbytes : ∀ x ∈ bytes c, x.toNat ≠ 47 ∧ l.Takes x.toNat := by
      intro x hx
      have hle := le_of_mem_bytes hlarge hx
      exact ⟨by omega, Loose.takes_of_le hle⟩
    rcases hrun with hrun | hrun
    · have hlast := List.dropLast_concat_getLast (bytes_ne_nil c)
      exact hsplit _ _ [] hlast.symm (.inr hrun) (.inl rfl)
        (hbytes _ (List.getLast_mem _)).2 (fun x hx => (hbytes x (List.dropLast_subset _ hx)).1)
        nofun
    · obtain ⟨x, q, hq, _⟩ := exists_bytes_eq_cons c
      rw [hq] at hbytes
      exact hsplit [] x q hq (.inl rfl) (.inr hrun) (hbytes x List.mem_cons_self).2 nofun
        fun y hy => (hbytes y (List.mem_cons_of_mem x hy)).1

theorem Elastic.spansBytes_iff {b : List Loose} (h : Elastic b) (cs : List Char) :
    SpansBytes b (encode cs) ↔ SpansText b cs := by
  rcases h with h | ⟨h, hrun⟩
  · have hb := eq_run_of_singles_eq_zero h
    rw [SpansBytes, SpansText, spans_runs_iff _ hb, spans_runs_iff _ hb,
      forall_mem_encode_ne_slash, encode_eq_nil_iff]
  · obtain ⟨b₁, l, b₂, rfl, hl, hb₁, hb₂⟩ := exists_single_of_singles_eq_one h
    refine ⟨spansText_of_spansBytes hl hb₁ hb₂, spansBytes_of_spansText hl hb₁ hb₂ ?_⟩
    rcases List.mem_append.1 hrun with hrun | hrun
    · exact .inl (List.ne_nil_of_mem hrun)
    · rcases List.mem_cons.1 hrun with rfl | hrun
      · cases hl
      · exact .inr (List.ne_nil_of_mem hrun)

example : Elastic [.one, .run] := by decide

example : ¬ Elastic [.one] := by decide

end TopicClient.Glob
