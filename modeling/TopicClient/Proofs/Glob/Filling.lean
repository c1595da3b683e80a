import TopicClient.Proofs.Glob.Elastic

/-!
# Topics made for a key

A topic is made for a key by a character for each anchor and some filling for each block of
wildcards. When all filling lies outside ASCII, counting the ASCII characters of topics tells
blocks apart that take a byte from those that take a character: `not_divides_topicOf`.
-/

namespace TopicClient.Glob

def topicOf (f : List Loose → List Char) (b : List Loose) (r : List (Anchor × List Loose)) :
    List Char :=
  f b ++ r.flatMap fun e => e.1.sample :: f e.2

theorem topicOf_cons (f : List Loose → List Char) (b b' : List Loose) (a : Anchor)
    (r : List (Anchor × List Loose)) :
    topicOf f b ((a, b') :: r) = f b ++ a.sample :: topicOf f b' r := rfl

theorem divides_topicOf {takes : List Loose → List Char → Prop} {f : List Loose → List Char}
    {b : List Loose} {r : List (Anchor × List Loose)}
    (h : ∀ b' ∈ b :: r.map Prod.snd, takes b' (f b')) : Divides takes b r (topicOf f b r) := by
  induction r generalizing b with
  | nil =>
    rw [topicOf, List.flatMap_nil, List.append_nil]
    exact h b List.mem_cons_self
  | cons e r ih =>
    obtain ⟨a, b'⟩ := e
    rw [topicOf_cons]
    obtain ⟨hb, hr⟩ := List.forall_mem_cons.1 h
    exact ⟨f b, a.sample, _, rfl, hb, a.takes_sample, ih hr⟩

/-- A topic cannot divide when its blocks would need more characters of some kind than it has. -/
theorem not_divides_topicOf {takes : List Loose → List Char → Prop} {f : List Loose → List Char}
    (kind : Char → Bool) {b : List Loose} {r : List (Anchor × List Loose)}
    (hanchor : ∀ (a : Anchor) c, a.Takes c → kind c = kind a.sample)
    (hle : ∀ b' ∈ b :: r.map Prod.snd, ∀ x, takes b' x → (f b').countP kind ≤ x.countP kind)
    {bad : List Loose} (hbad : bad ∈ b :: r.map Prod.snd)
    (hlt : ∀ x, takes bad x → (f bad).countP kind < x.countP kind) :
    ¬ Divides takes b r (topicOf f b r) := by
  -- Every text that divides has at least as many characters of the kind as the topic made.
  have hmore : ∀ r b cs, (∀ b' ∈ b :: r.map Prod.snd, ∀ x, takes b' x →
      (f b').countP kind ≤ x.countP kind) → Divides takes b r cs →
      (topicOf f b r).countP kind ≤ cs.countP kind ∧
        (bad ∈ b :: r.map Prod.snd → (topicOf f b r).countP kind < cs.countP kind) := by
    intro r
    induction r with
    | nil =>
      intro b cs hle hcs
      rw [topicOf, List.flatMap_nil, List.append_nil]
      refine ⟨hle b List.mem_cons_self cs hcs, fun hmem => ?_⟩
      obtain rfl := List.mem_singleton.1 hmem
      exact hlt cs hcs
    | cons e r ih =>
      intro b cs hle hcs
      obtain ⟨a, b'⟩ := e
      obtain ⟨x, c, y, rfl, hx, hc, hy⟩ := hcs
      obtain ⟨hb, hr⟩ := List.forall_mem_cons.1 hle
      obtain ⟨ih, ih'⟩ := ih b' y hr hy
      have hx' := hb x hx
      simp only [topicOf_cons, List.countP_append, List.countP_cons, hanchor a c hc]
      refine ⟨by omega, fun hmem => ?_⟩
      rcases List.mem_cons.1 hmem with rfl | hmem
      · have := hlt x hx
        omega
      · have := ih' hmem
        omega
  intro h
  exact Nat.lt_irrefl _ ((hmore r b _ hle h).2 hbad)

def isAscii (c : Char) : Bool := c.toNat < 128

theorem Anchor.isAscii_of_takes {a : Anchor} {c : Char} (h : a.Takes c) :
    isAscii c = isAscii a.sample := by
  cases a with
  | char | escaped => exact congrArg isAscii h
  | among l hpos =>
    have hc : isAscii c = true := decide_eq_true (l.lt_of_takes hpos h)
    have hsample : isAscii l.sample = true := decide_eq_true l.sample_ascii
    exact hc.trans hsample.symm

def oneEach (b : List Loose) : List Char := List.replicate (singles b) '\u00e9'

/-- Characters with so many bytes together, or two bytes for one. -/
def fewest : ℕ → List Char
  | 0 => []
  | 1 => ['\u00e9']
  | 3 => ['\u20ac']
  | n + 2 => '\u00e9' :: fewest n

theorem isAscii_of_mem_fewest (n : ℕ) : ∀ c ∈ fewest n, isAscii c = false := by
  fun_induction fewest n with
  | case1 => exact nofun
  | case2 | case3 => exact List.forall_mem_singleton.2 rfl
  | case4 n h ih => exact List.forall_mem_cons.2 ⟨rfl, ih⟩

theorem length_encode_fewest {n : ℕ} (h : n ≠ 1) : (encode (fewest n)).length = n := by
  fun_induction fewest n with
  | case1 => rfl
  | case2 => exact absurd rfl h
  | case3 => rfl
  | case4 n hn ih =>
    have hn' : n ≠ 1 := by
      rintro rfl
      exact hn rfl
    rw [encode_cons, List.length_append, ih hn']
    exact Nat.add_comm 2 n

theorem length_fewest_le (n : ℕ) : (fewest n).length ≤ n ∧ (2 ≤ n → (fewest n).length < n) := by
  fun_induction fewest n with
  | case1 | case2 | case3 => decide
  | case4 n hn ih =>
    rw [List.length_cons]
    omega

theorem isAscii_of_mem_oneEach (b : List Loose) : ∀ c ∈ oneEach b, isAscii c = false := by
  intro c hc
  rw [List.eq_of_mem_replicate hc]
  decide

theorem le_of_isAscii_eq_false {c : Char} (h : isAscii c = false) : 128 ≤ c.toNat :=
  Nat.le_of_not_lt (of_decide_eq_false h)

theorem spansText_oneEach (b : List Loose) : SpansText b (oneEach b) := by
  refine Spans.of_length ?_ (.inl List.length_replicate.symm)
  intro l _ c hc
  exact Loose.takes_of_le (le_of_isAscii_eq_false (isAscii_of_mem_oneEach b c hc))

theorem spansBytes_fewest {b : List Loose} (h : singles b = 1 → Loose.run ∈ b) :
    SpansBytes b (encode (fewest (singles b))) := by
  refine Spans.of_length ?_ ?_
  · intro l _ x hx
    obtain ⟨c, hc, hx⟩ := List.mem_flatMap.1 hx
    have hlarge := le_of_isAscii_eq_false (isAscii_of_mem_fewest (singles b) c hc)
    exact Loose.takes_of_le (le_of_mem_bytes hlarge hx)
  · by_cases hone : singles b = 1
    · have htwo : (encode (fewest (singles b))).length = 2 := by
        rw [hone]
        rfl
      refine .inr ⟨⟨.run, h hone, rfl⟩, ?_⟩
      change singles b ≤ _
      omega
    · exact .inl (length_encode_fewest hone).symm

/-- One wildcard alone takes a byte that is a character. -/
theorem countP_pos_of_spansBytes {b : List Loose} (hone : singles b = 1) (hrun : Loose.run ∉ b)
    {cs : List Char} (h : SpansBytes b (encode cs)) : 0 < cs.countP isAscii := by
  obtain ⟨b₁, l, b₂, rfl, hl, hb₁, hb₂⟩ := exists_single_of_singles_eq_one hone
  obtain rfl : b₁ = [] := List.eq_nil_iff_forall_not_mem.2 fun l hl =>
    hrun (hb₁ l hl ▸ List.mem_append_left _ hl)
  obtain rfl : b₂ = [] := List.eq_nil_iff_forall_not_mem.2 fun l hl =>
    hrun (hb₂ l hl ▸ List.mem_append_right _ (List.mem_cons_of_mem _ hl))
  obtain ⟨u, x, v, hcs, _, ⟨_, hu⟩, _, hv⟩ := (spans_one_iff _ hl hb₁ hb₂).1 h
  rw [hu rfl, hv rfl] at hcs
  obtain ⟨s, c, t, p, q, rfl, hc, hp, hq⟩ := exists_char_of_encode_eq hcs
  rw [(List.append_eq_nil_iff.1 hp.symm).2, (List.append_eq_nil_iff.1 hq.symm).1] at hc
  refine List.countP_pos_iff.2 ⟨c, List.mem_append_right s List.mem_cons_self, ?_⟩
  refine decide_eq_true (Nat.lt_of_not_le fun hlarge => ?_)
  obtain ⟨y, ys, hy, _, _, hne⟩ := exists_bytes_eq_cons c
  rw [hc] at hy
  exact (hne hlarge).2 (List.cons_eq_cons.1 hy).2.symm

theorem countP_isAscii_eq_zero {cs : List Char} (h : ∀ c ∈ cs, isAscii c = false) :
    cs.countP isAscii = 0 :=
  List.countP_eq_zero.2 fun c hc => by rw [h c hc]; exact Bool.false_ne_true

/-- Where a block takes characters and bytes differently, the server and the client differ. -/
theorem exists_topicOf_of_not_elastic {ps : List Piece} (hps : ∀ p ∈ ps, p.isShared = true)
    {bad : List Loose} (hbad : bad ∈ blocks ps) (helastic : ¬ Elastic bad) :
    ∃ f : List Loose → List Char, (∀ b, ∀ c ∈ f b, isAscii c = false) ∧
      (Words (ps.map Piece.token) (encode (topicOf f (shape ps).1 (shape ps).2)) ↔
        ¬ ServerRule.Matches (ps.map Piece.term) (topicOf f (shape ps).1 (shape ps).2)) := by
  simp only [words_iff_divides hps, matches_iff_divides hps]
  by_cases hone : ∃ b ∈ blocks ps, singles b = 1 ∧ Loose.run ∉ b
  · -- The server takes a character for the wildcard of the block, the client cannot.
    obtain ⟨b, hb, hsingle, hrun⟩ := hone
    refine ⟨oneEach, isAscii_of_mem_oneEach, ?_⟩
    have hserver : Divides SpansText (shape ps).1 (shape ps).2
        (topicOf oneEach (shape ps).1 (shape ps).2) :=
      divides_topicOf fun b _ => spansText_oneEach b
    have hclient : ¬ Divides (fun b cs => SpansBytes b (encode cs)) (shape ps).1 (shape ps).2
        (topicOf oneEach (shape ps).1 (shape ps).2) := by
      refine not_divides_topicOf isAscii (fun _ _ => Anchor.isAscii_of_takes) ?_ hb ?_
      · intro b' _ x _
        rw [countP_isAscii_eq_zero (isAscii_of_mem_oneEach b')]
        exact Nat.zero_le _
      · intro x hx
        rw [countP_isAscii_eq_zero (isAscii_of_mem_oneEach b)]
        exact countP_pos_of_spansBytes hsingle hrun hx
    exact ⟨fun h => absurd h hclient, fun h => absurd hserver h⟩
  · -- The client takes fewer characters than the server would need.
    refine ⟨fun b => fewest (singles b), fun b => isAscii_of_mem_fewest (singles b), ?_⟩
    have hclient : Divides (fun b cs => SpansBytes b (encode cs)) (shape ps).1 (shape ps).2
        (topicOf (fun b => fewest (singles b)) (shape ps).1 (shape ps).2) := by
      refine divides_topicOf fun b hb => spansBytes_fewest fun hsingle => ?_
      exact Decidable.not_not.1 fun hrun => hone ⟨b, hb, hsingle, hrun⟩
    have htwo : 2 ≤ singles bad := by
      have hzero : singles bad ≠ 0 := fun h => helastic (.inl h)
      have hnotone : singles bad ≠ 1 := fun h => hone ⟨bad, hbad, h, fun hrun =>
        helastic (.inr ⟨h, hrun⟩)⟩
      omega
    have hserver : ¬ Divides SpansText (shape ps).1 (shape ps).2
        (topicOf (fun b => fewest (singles b)) (shape ps).1 (shape ps).2) := by
      refine not_divides_topicOf (fun _ => true) (fun _ _ _ => rfl) ?_ hbad ?_
      · intro b' _ x hx
        have hx := Spans.singles_le_length hx
        have := (length_fewest_le (singles b')).1
        simp only [List.countP_true]
        exact Nat.le_trans this hx
      · intro x hx
        have hx := Spans.singles_le_length hx
        have := (length_fewest_le (singles bad)).2 htwo
        simp only [List.countP_true]
        exact Nat.lt_of_lt_of_le this hx
    exact ⟨fun _ => hserver, fun _ => hclient⟩

theorem countP_topicOf {f : List Loose → List Char} (hf : ∀ b, ∀ c ∈ f b, isAscii c = false)
    (b : List Loose) (r : List (Anchor × List Loose)) :
    (topicOf f b r).countP isAscii = r.countP fun e => isAscii e.1.sample := by
  induction r generalizing b with
  | nil =>
    rw [topicOf, List.flatMap_nil, List.append_nil, countP_isAscii_eq_zero (hf b)]
    rfl
  | cons e r ih =>
    obtain ⟨a, b'⟩ := e
    rw [topicOf_cons, List.countP_append, List.countP_cons, List.countP_cons, ih,
      countP_isAscii_eq_zero (hf b), Nat.zero_add]

theorem Loose.countP_text_pos (l : Loose) : 0 < l.text.countP isAscii := by
  cases l with
  | one | run => decide
  | except l => exact List.countP_pos_iff.2 ⟨'[', List.mem_cons_self, rfl⟩

theorem Anchor.le_countP_text (a : Anchor) :
    (if isAscii a.sample = true then 1 else 0) ≤ a.text.countP isAscii := by
  have hmem : ∀ c ∈ a.text, isAscii c = true →
      (if isAscii a.sample = true then 1 else 0) ≤ a.text.countP isAscii := by
    intro c hc hascii
    have : 0 < a.text.countP isAscii := List.countP_pos_iff.2 ⟨c, hc, hascii⟩
    split_ifs <;> omega
  cases a with
  | char c h => exact Nat.le_of_eq List.countP_singleton.symm
  | escaped c => exact hmem '\\' List.mem_cons_self rfl
  | among l => exact hmem '[' List.mem_cons_self rfl

/-- The key has as many ASCII characters as the topics made for it, and more if it has a
wildcard. -/
theorem countP_shape_le (ps : List Piece) :
    ((shape ps).2.countP fun e => isAscii e.1.sample) ≤ (spell ps).countP isAscii ∧
      ((∃ l, .loose l ∈ ps) →
        ((shape ps).2.countP fun e => isAscii e.1.sample) < (spell ps).countP isAscii) := by
  induction ps with
  | nil => exact ⟨Nat.le_refl 0, nofun⟩
  | cons p ps ih =>
    obtain ⟨ih, ih'⟩ := ih
    rw [spell_cons, List.countP_append]
    cases p with
    | loose l =>
      have := l.countP_text_pos
      simp only [shape, Piece.text]
      omega
    | anchor a =>
      have := a.le_countP_text
      simp only [shape, Piece.text, List.countP_cons]
      refine ⟨by omega, ?_⟩
      rintro ⟨l, hl⟩
      rcases List.mem_cons.1 hl with hl | hl
      · cases hl
      · have := ih' ⟨l, hl⟩
        omega
    | misread | opening | closing =>
      simp only [shape]
      refine ⟨by omega, ?_⟩
      rintro ⟨l, hl⟩
      rcases List.mem_cons.1 hl with hl | hl
      · cases hl
      · have := ih' ⟨l, hl⟩
        omega

/-- A topic with its filling outside ASCII is not the key itself. -/
theorem topicOf_ne_spell {f : List Loose → List Char} (hf : ∀ b, ∀ c ∈ f b, isAscii c = false)
    {ps : List Piece} {l : Loose} (hl : .loose l ∈ ps) :
    topicOf f (shape ps).1 (shape ps).2 ≠ spell ps := by
  intro h
  have hcount := congrArg (List.countP isAscii) h
  rw [countP_topicOf hf] at hcount
  exact Nat.ne_of_lt ((countP_shape_le ps).2 ⟨l, hl⟩) hcount

end TopicClient.Glob
