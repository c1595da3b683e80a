import TopicClient.Proofs.Glob.Language

/-!
# Blocks of wildcards

The anchors of a key divide its wildcards into blocks. A topic matches when it divides in the same
way: the anchors take one character each, and each block what stands between them. This holds for
the server, whose blocks take characters, and for the client, whose blocks take bytes: the bytes
of an anchor stand in a topic only as a character.
-/

namespace TopicClient.Glob

/-- The wildcards before the first anchor, and the anchors with the wildcards after each. Other
pieces are passed over. -/
def shape : List Piece → List Loose × List (Anchor × List Loose)
  | [] => ([], [])
  | .loose l :: ps => (l :: (shape ps).1, (shape ps).2)
  | .anchor a :: ps => ([], (a, (shape ps).1) :: (shape ps).2)
  | _ :: ps => shape ps

def blocks (ps : List Piece) : List (List Loose) := (shape ps).1 :: (shape ps).2.map Prod.snd

/-- The text divides into what blocks take and what the anchors between them take. -/
def Divides (takes : List Loose → List Char → Prop) :
    List Loose → List (Anchor × List Loose) → List Char → Prop
  | b, [], cs => takes b cs
  | b, (a, b') :: r, cs =>
    ∃ x c y, cs = x ++ c :: y ∧ takes b x ∧ a.Takes c ∧ Divides takes b' r y

theorem divides_shape_iff (lang : List Piece → List Char → Prop)
    (takes : List Loose → List Char → Prop)
    (hloose : ∀ b cs, lang (b.map .loose) cs ↔ takes b cs)
    (hanchor : ∀ b a ps cs, lang (b.map .loose ++ .anchor a :: ps) cs ↔
      ∃ x c y, cs = x ++ c :: y ∧ takes b x ∧ a.Takes c ∧ lang ps y)
    {ps : List Piece} (hps : ∀ p ∈ ps, p.isShared = true) (cs : List Char) :
    lang ps cs ↔ Divides takes (shape ps).1 (shape ps).2 cs := by
  -- The wildcards already passed belong to the first block.
  suffices h : ∀ b, lang (b.map .loose ++ ps) cs ↔
      Divides takes (b ++ (shape ps).1) (shape ps).2 cs from h []
  induction ps generalizing cs with
  | nil =>
    intro b
    rw [shape, List.append_nil, List.append_nil]
    exact hloose b cs
  | cons p ps ih =>
    intro b
    obtain ⟨hp, htail⟩ := List.forall_mem_cons.1 hps
    cases p with
    | loose l =>
      have h := ih htail cs (b ++ [l])
      rw [List.map_append, List.append_assoc, List.append_assoc] at h
      exact h
    | anchor a =>
      have h : ∀ y, lang ps y ↔ Divides takes (shape ps).1 (shape ps).2 y := fun y => ih htail y []
      rw [hanchor, shape, List.append_nil, Divides]
      simp only [h]
    | misread | opening | closing => cases hp

/-- The server divides a topic into characters. -/
theorem matches_iff_divides {ps : List Piece} (hps : ∀ p ∈ ps, p.isShared = true)
    (cs : List Char) :
    ServerRule.Matches (ps.map Piece.term) cs ↔
      Divides SpansText (shape ps).1 (shape ps).2 cs := by
  have hloose : ∀ (b : List Loose) cs,
      ServerRule.Matches ((b.map Piece.loose).map Piece.term) cs ↔ SpansText b cs := by
    intro b cs
    rw [List.map_map]
    refine Spans.map_iff (fun l => ?_) fun l c => l.term_takes_iff c
    exact Piece.repeats_term (p := .loose l) trivial
  refine divides_shape_iff (fun ps cs => ServerRule.Matches (ps.map Piece.term) cs) SpansText
    hloose (fun b a ps cs => ?_) hps cs
  have hsingle : a.term.repeats = false := Piece.repeats_term (p := .anchor a) trivial
  rw [List.map_append, ServerRule.Matches, Spans.append_iff]
  constructor
  · rintro ⟨x, v, rfl, hx, hv⟩
    obtain ⟨c, y, rfl, hc, hy⟩ := (Spans.cons_iff_of_single hsingle).1 hv
    exact ⟨x, c, y, rfl, (hloose b x).1 hx, (a.term_takes_iff c).1 hc, hy⟩
  · rintro ⟨x, c, y, rfl, hx, hc, hy⟩
    exact ⟨x, c :: y, rfl, (hloose b x).2 hx, (Spans.cons_iff_of_single hsingle).2
      ⟨c, y, rfl, (a.term_takes_iff c).2 hc, hy⟩⟩

/-- The client divides a topic into characters too, but its blocks take bytes. -/
theorem words_iff_divides {ps : List Piece} (hps : ∀ p ∈ ps, p.isShared = true)
    (cs : List Char) :
    Words (ps.map Piece.token) (encode cs) ↔
      Divides (fun b cs => SpansBytes b (encode cs)) (shape ps).1 (shape ps).2 cs := by
  have hloose : ∀ (b : List Loose) w,
      Words ((b.map Piece.loose).map Piece.token) w ↔ SpansBytes b w := by
    intro b w
    rw [List.map_map]
    exact words_loose_iff
  refine divides_shape_iff (fun ps cs => Words (ps.map Piece.token) (encode cs))
    (fun b cs => SpansBytes b (encode cs)) (fun b cs => hloose b (encode cs))
    (fun b a ps cs => ?_) hps cs
  rw [List.map_append, words_append_iff]
  constructor
  · rintro ⟨u, v, hcs, hu, hv⟩
    obtain ⟨u', v', rfl, hu', hv'⟩ := words_cons_iff.1 hv
    obtain ⟨c, hc, rfl⟩ := (matches_anchor_iff a u').1 hu'
    obtain ⟨x, y, rfl, rfl, rfl⟩ := exists_split_of_bytes hcs
    exact ⟨x, c, y, rfl, (hloose b _).1 hu, hc, hv'⟩
  · rintro ⟨x, c, y, rfl, hx, hc, hy⟩
    refine ⟨encode x, encode (c :: y), encode_append x (c :: y), (hloose b _).2 hx, ?_⟩
    exact words_cons_iff.2 ⟨bytes c, encode y, rfl, (matches_anchor_iff a _).2 ⟨c, hc, rfl⟩, hy⟩

end TopicClient.Glob
