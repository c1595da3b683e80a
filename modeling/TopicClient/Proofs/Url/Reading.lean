import Mathlib.Data.List.TakeDrop
import Mathlib.Data.List.TakeWhile
import TopicClient.Proofs.Text.Splitting
import TopicClient.Url.Parser

/-!
# Texts with more behind them

What counts of a text stays, and so does its scheme, when more is put behind the text. Blanks at its
end do not count while nothing follows them, and then do (`lateBlanks`).
-/

namespace TopicClient.Url

/-! ## What counts of a text -/

/-- A blank or a control character. Around a text it does not count. -/
def isEdge (c : Char) : Bool := c ≤ ' '

theorem toNat_of_isEdge {c : Char} (h : isEdge c = true) : c.toNat ≤ 32 := of_decide_eq_true h

theorem toLower_eq {c : Char} (h : c.isUpper = false) : c.toLower = c :=
  dif_neg (of_decide_eq_false h)

theorem isUpper_eq_false {c : Char} (h : c.toNat < 65 ∨ 90 < c.toNat) : c.isUpper = false := by
  refine decide_eq_false fun hupper => ?_
  have hlow : 65 ≤ c.toNat := hupper.1
  have hhigh : c.toNat ≤ 90 := hupper.2
  omega

/-- A tab or a line break does not count within a text either. -/
def counts (c : Char) : Bool := c ≠ '\t' && c ≠ '\n' && c ≠ '\r'

/-- The blanks and control characters at the end of a text that count if something follows. -/
def lateBlanks (text : String) : List Char :=
  (text.toList.reverse.takeWhile isEdge).reverse.filter counts

theorem counts_of_not_isEdge {c : Char} (h : isEdge c = false) : counts c = true := by
  simp only [counts, Bool.and_eq_true, decide_eq_true_eq]
  refine ⟨⟨?_, ?_⟩, ?_⟩
  all_goals
    rintro rfl
    cases h

theorem isEdge_of_mem_lateBlanks {text : String} {c : Char} (h : c ∈ lateBlanks text) :
    isEdge c = true := by
  have hmem := List.mem_reverse.1 (List.mem_filter.1 h).1
  exact List.mem_takeWhile_imp hmem

theorem significant_of_split {text : String} {x tail : List Char} {c : Char}
    (h : text.toList = x ++ c :: tail) (hc : isEdge c = false)
    (htail : ∀ d ∈ tail, isEdge d = true) :
    significant text = (x.dropWhile isEdge).filter counts ++ [c] ∧
      lateBlanks text = tail.filter counts := by
  have hreverse : text.toList.reverse = tail.reverse ++ c :: x.reverse := by
    rw [h, List.reverse_append, List.reverse_cons, List.append_assoc]
    rfl
  have hreversed : ∀ d ∈ tail.reverse, isEdge d = true := fun d hd => htail d (List.mem_reverse.1 hd)
  constructor
  · have hinner : ((text.toList.dropWhile isEdge).reverse.dropWhile isEdge).reverse =
        x.dropWhile isEdge ++ [c] := by
      rw [h, Text.dropWhile_append_cons hc, List.reverse_append, List.reverse_cons,
        List.append_assoc, List.dropWhile_append_of_pos hreversed, List.singleton_append,
        List.dropWhile_cons_of_neg (by simp [hc]), List.reverse_cons, List.reverse_reverse]
    have hfilter : significant text =
        (((text.toList.dropWhile isEdge).reverse.dropWhile isEdge).reverse).filter counts := rfl
    rw [hfilter, hinner, List.filter_append, List.filter_cons_of_pos (counts_of_not_isEdge hc),
      List.filter_nil]
  · rw [lateBlanks, hreverse, List.takeWhile_append_of_pos hreversed,
      List.takeWhile_cons_of_neg (by simp [hc]), List.append_nil, List.reverse_reverse]

theorem exists_split {text : String} {c : Char} (hc : c ∈ text.toList) (h : isEdge c = false) :
    ∃ x d tail, text.toList = x ++ d :: tail ∧ isEdge d = false ∧ ∀ e ∈ tail, isEdge e = true := by
  have hne : text.toList.reverse.dropWhile isEdge ≠ [] := by
    intro hnil
    have hedge := List.dropWhile_eq_nil_iff.1 hnil c (List.mem_reverse.2 hc)
    rw [h] at hedge
    cases hedge
  obtain ⟨d, r, hr⟩ := List.exists_cons_of_ne_nil hne
  have hsplit := List.takeWhile_append_dropWhile (p := isEdge) (l := text.toList.reverse)
  refine ⟨r.reverse, d, (text.toList.reverse.takeWhile isEdge).reverse, ?_, ?_, ?_⟩
  · rw [hr] at hsplit
    have heq := congrArg List.reverse hsplit
    rw [List.reverse_append, List.reverse_cons, List.append_assoc, List.reverse_reverse] at heq
    exact heq.symm
  · have hhead := List.head?_dropWhile_not isEdge text.toList.reverse
    rwa [hr] at hhead
  · intro e he
    exact List.mem_takeWhile_imp (List.mem_reverse.1 he)

theorem mem_of_mem_significant {text : String} {c : Char} (h : c ∈ significant text) :
    c ∈ text.toList := by
  have hinner := List.mem_reverse.1 (List.mem_filter.1 h).1
  exact (List.dropWhile_subset _) (List.mem_reverse.1 ((List.dropWhile_subset _) hinner))

/-- Behind a text its blanks count, and then what follows them. -/
theorem significant_append {text : String} {c : Char} (hmem : c ∈ text.toList)
    (h : isEdge c = false) {y : List Char} (hy : ∀ c ∈ y, isEdge c = false) (hne : y ≠ []) :
    significant (text ++ String.ofList y) = significant text ++ (lateBlanks text ++ y) ∧
      lateBlanks (text ++ String.ofList y) = [] := by
  obtain ⟨x, c, tail, heq, hc, htail⟩ := exists_split hmem h
  obtain ⟨hsignificant, hblanks⟩ := significant_of_split heq hc htail
  obtain ⟨y', d, rfl⟩ := List.eq_nil_or_concat y |>.resolve_left hne
  rw [List.concat_eq_append] at hy ⊢
  have hd : isEdge d = false := hy d (by simp)
  have hlonger : (text ++ String.ofList (y' ++ [d])).toList = (x ++ c :: (tail ++ y')) ++ d :: [] := by
    rw [String.toList_append, String.toList_ofList, heq]
    simp
  obtain ⟨hsignificant', hblanks'⟩ := significant_of_split hlonger hd nofun
  refine ⟨?_, hblanks'⟩
  have hcounts : (y' ++ [d]).filter counts = y' ++ [d] :=
    List.filter_eq_self.2 fun e he => counts_of_not_isEdge (hy e he)
  have hcounts' : y'.filter counts = y' :=
    List.filter_eq_self.2 fun e he => counts_of_not_isEdge (hy e (List.mem_append_left _ he))
  rw [hsignificant', hsignificant, hblanks, Text.dropWhile_append_cons hc, List.filter_append,
    List.filter_cons_of_pos (counts_of_not_isEdge hc), List.filter_append, hcounts']
  simp

/-! ## Splitting -/

structure Splits (p : Char → Bool) (x r : List Char) : Prop where
  all : ∀ c ∈ x, p c = true
  stops : ∀ c ∈ r.head?, p c = false

theorem Splits.span_eq {p : Char → Bool} {x r : List Char} (h : Splits p x r) :
    (x ++ r).span p = (x, r) := by
  rw [List.span_eq_takeWhile_dropWhile, List.takeWhile_append_of_pos h.all,
    List.dropWhile_append_of_pos h.all]
  cases r with
  | nil => rw [List.takeWhile_nil, List.dropWhile_nil, List.append_nil]
  | cons c r =>
    have hc : ¬ p c = true := by simp [h.stops c rfl]
    rw [List.takeWhile_cons_of_neg hc, List.dropWhile_cons_of_neg hc, List.append_nil]

theorem splits_of_span {p : Char → Bool} {l x r : List Char} (h : l.span p = (x, r)) :
    l = x ++ r ∧ Splits p x r := by
  rw [List.span_eq_takeWhile_dropWhile] at h
  cases h
  refine ⟨List.takeWhile_append_dropWhile.symm, fun c hc => List.mem_takeWhile_imp hc, ?_⟩
  intro c hc
  have hhead := List.head?_dropWhile_not p l
  rwa [hc] at hhead

theorem exists_splits (p : Char → Bool) (l : List Char) : ∃ x r, l = x ++ r ∧ Splits p x r :=
  ⟨_, _, splits_of_span rfl⟩

theorem Splits.append {p : Char → Bool} {x r : List Char} (h : Splits p x r) (hr : r ≠ [])
    (z : List Char) : Splits p x (r ++ z) := by
  obtain ⟨d, r, rfl⟩ := List.exists_cons_of_ne_nil hr
  exact ⟨h.all, h.stops⟩

/-! ## Schemes -/

theorem toNat_of_isAlphanum {c : Char} (h : c.isAlphanum = true) :
    48 ≤ c.toNat ∧ c.toNat ≤ 122 := by
  rcases Bool.or_eq_true_iff.1 h with halpha | hdigit
  · rcases Bool.or_eq_true_iff.1 halpha with hupper | hlower
    · obtain ⟨hlow, hhigh⟩ : 65 ≤ c.toNat ∧ c.toNat ≤ 90 := of_decide_eq_true hupper
      omega
    · obtain ⟨hlow, hhigh⟩ := Bool.and_eq_true_iff.1 hlower
      have hlow : 97 ≤ c.toNat := of_decide_eq_true hlow
      have hhigh : c.toNat ≤ 122 := of_decide_eq_true hhigh
      omega
  · obtain ⟨hlow, hhigh⟩ := Bool.and_eq_true_iff.1 hdigit
    have hlow : 48 ≤ c.toNat := of_decide_eq_true hlow
    have hhigh : c.toNat ≤ 57 := of_decide_eq_true hhigh
    omega

theorem isEdge_eq_false_of_isAlphanum {c : Char} (h : c.isAlphanum = true) : isEdge c = false := by
  rw [← Bool.not_eq_true]
  intro hedge
  have hhigh := toNat_of_isEdge hedge
  have hlow := (toNat_of_isAlphanum h).1
  omega

theorem isSchemeChar_eq_false_of_isEdge {c : Char} (h : isEdge c = true) :
    isSchemeChar c = false := by
  rw [← Bool.not_eq_true]
  intro hscheme
  simp only [isSchemeChar, Bool.or_eq_true, decide_eq_true_eq] at hscheme
  rcases hscheme with ((halpha | rfl) | rfl) | rfl
  · rw [isEdge_eq_false_of_isAlphanum halpha] at h
    cases h
  all_goals cases h

section Scheme

variable {cs r z : List Char} {s : Scheme}

theorem readScheme?_eq_some_iff :
    readScheme? cs = some (s, r) ↔
      ∃ c name, cs = c :: name ++ ':' :: r ∧ (∀ d ∈ c :: name, isSchemeChar d = true) ∧
        c.isAlpha = true ∧ s = .ofName (String.ofList ((c :: name).map Char.toLower)) := by
  constructor
  · intro h
    unfold readScheme? at h
    split at h
    · rename_i c cs name rest hspan
      obtain ⟨heq, hsplits⟩ := splits_of_span hspan
      split_ifs at h with hc
      cases h
      cases name with
      | nil =>
        obtain ⟨rfl, _⟩ := List.cons_eq_cons.1 heq
        cases hc
      | cons d name =>
        obtain ⟨rfl, _⟩ := List.cons_eq_cons.1 heq
        exact ⟨c, name, heq, hsplits.all, hc, rfl⟩
    · cases h
  · rintro ⟨c, name, rfl, hall, hc, rfl⟩
    have hsplits : Splits isSchemeChar (c :: name) (':' :: r) :=
      ⟨hall, fun d hd => by obtain rfl := Option.some.inj hd; decide⟩
    have hspan := hsplits.span_eq
    rw [List.cons_append] at hspan ⊢
    simp only [readScheme?, hspan, hc, if_true]

theorem readScheme?_append (h : readScheme? cs = some (s, r)) (z : List Char) :
    readScheme? (cs ++ z) = some (s, r ++ z) := by
  obtain ⟨c, name, rfl, hname⟩ := readScheme?_eq_some_iff.1 h
  refine readScheme?_eq_some_iff.2 ⟨c, name, ?_, hname⟩
  rw [List.append_assoc, List.cons_append, List.cons_append, List.cons_append]

/-- A scheme is not finished by what has no part in one. -/
theorem exists_readScheme?_of_append (h : readScheme? (cs ++ z) = some (s, r))
    (hz : ∀ c ∈ z.head?, isSchemeChar c = false ∧ c ≠ ':') :
    ∃ r', readScheme? cs = some (s, r') := by
  obtain ⟨c, name, heq, hall, hname⟩ := readScheme?_eq_some_iff.1 h
  rcases List.append_eq_append_iff.1 heq with ⟨w, hw, rfl⟩ | ⟨w, hw, hr⟩
  · exfalso
    cases w with
    | nil => exact (hz ':' rfl).2 rfl
    | cons d w =>
      have hd : isSchemeChar d = true := hall d (by rw [hw]; simp)
      rw [(hz d rfl).1] at hd
      cases hd
  · cases w with
    | nil =>
      subst hr
      exact absurd rfl (hz ':' rfl).2
    | cons d w =>
      obtain ⟨rfl, _⟩ := List.cons_eq_cons.1 hr
      exact ⟨w, readScheme?_eq_some_iff.2 ⟨c, name, hw, hall, hname⟩⟩

theorem scheme_of_readAfterSlashes {u : Url} (h : readAfterSlashes s cs = .ok u) :
    u.scheme = s := by
  unfold readAfterSlashes at h
  cases ha : readAuthority s cs with
  | error e =>
    rw [ha] at h
    cases h
  | ok x =>
    rw [ha] at h
    cases h
    rfl

theorem scheme_of_readFile {u : Url} (h : readFile cs = .ok u) : u.scheme = .file := by
  unfold readFile at h
  simp only at h
  split at h
  · split_ifs at h
    · cases h
      rfl
    · cases h
      rfl
    · rename_i r _ _ _
      cases hhost : readSpecialHost (r.span fun c => !endsAuthority .file c).1 with
      | error e =>
        rw [hhost] at h
        cases h
      | ok host =>
        rw [hhost] at h
        cases h
        rfl
    · cases h
      rfl
  · cases h
    rfl

theorem scheme_of_readPlain {u : Url} (h : readPlain s cs = .ok u) : u.scheme = s := by
  unfold readPlain at h
  split at h
  · exact scheme_of_readAfterSlashes h
  · cases h
    rfl
  · cases h
    rfl

theorem exists_readScheme?_of_parse {text : String} {u : Url} (h : parse text = .ok u) :
    ∃ r, readScheme? (significant text) = some (u.scheme, r) := by
  unfold parse read at h
  cases hscheme : readScheme? (significant text) with
  | none =>
    simp only [hscheme] at h
    cases h
  | some found =>
    obtain ⟨s, r⟩ := found
    refine ⟨r, ?_⟩
    simp only [hscheme] at h
    have hs : u.scheme = s := by
      cases s with
      | file => exact scheme_of_readFile h
      | other name => exact scheme_of_readPlain h
      | _ => exact scheme_of_readAfterSlashes h
    rw [hs]

/-- The slashes before an authority do not count. -/
theorem parse_of_readScheme? {text : String} (hs : s.isSpecial = true) (hf : s ≠ .file)
    (h : readScheme? (significant text) = some (s, r)) :
    parse text = readAfterSlashes s (r.dropWhile (isSlash s)) := by
  unfold parse read
  simp only [h]
  cases s with
  | file => exact absurd rfl hf
  | other name => cases hs
  | _ => rfl

end Scheme

end TopicClient.Url
