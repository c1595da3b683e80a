import TopicClient.Proofs.Url.Joining

/-!
# Where a URL leads

Whatever is put behind the text of a URL and a slash, the authority stays (`authority_of_joined`), so
the requests of a client go to one server; a reference that leads away from a server leads to the
same URL from all URLs of it (`origin_eq_or_of_resolve`). The path of a URL of the web begins with a
slash (`isRooted_of_parse`, `isRooted_of_resolve`).
-/

namespace TopicClient.Url

/-- The server of a URL: its scheme, with the host and the port. -/
def origin (u : Url) : Scheme × Option (Host × Option ℕ) :=
  (u.scheme, u.authority.map fun a => (a.host, a.port))

theorem origin_withoutAccount (u : Url) : u.withoutAccount.origin = u.origin := by
  cases h : u.authority <;> simp [origin, withoutAccount, h]

/-! ## Paths -/

def IsRooted (u : Url) : Prop := ∃ segments, u.path = .rooted segments ∧ segments ≠ []

theorem IsRooted.exists_render {u : Url} (h : u.IsRooted) :
    ∃ cs, u.path.render.toList = '/' :: cs := by
  obtain ⟨segments, hpath, hne⟩ := h
  obtain ⟨t, ts, rfl⟩ := List.exists_cons_of_ne_nil hne
  rw [hpath, toList_render_rooted, List.flatMap_cons]
  exact ⟨_, rfl⟩

section Paths

variable {s : Scheme} {u base : Url}

theorem appendSegments_ne_nil (done : List String) {xs : List (List Char)} (hne : xs ≠ []) :
    appendSegments s done xs ≠ [] := by
  obtain ⟨xs, x, rfl⟩ := List.eq_nil_or_concat xs |>.resolve_left hne
  rw [List.concat_eq_append, appendSegments_append done xs (List.cons_ne_nil x []), appendSegments]
  simp only [List.isEmpty_nil, if_true, appendSegments]
  split_ifs
  all_goals exact List.append_ne_nil_of_right_ne_nil _ (List.cons_ne_nil _ _)

theorem isRooted_of_readSegments (hf : s ≠ .file) (before : List String) (cs : List Char)
    (hu : u.path = (readSegments s before cs).1) : u.IsRooted := by
  simp only [readSegments, hf, if_false] at hu
  exact ⟨_, hu, appendSegments_ne_nil before (Text.splitOn_ne_nil _ _)⟩

theorem isRooted_of_readAfterSlashes (hs : s.isSpecial = true) (hf : s ≠ .file) {cs : List Char}
    (h : readAfterSlashes s cs = .ok u) : u.IsRooted := by
  obtain ⟨auth, p, q, rfl, hpieces⟩ := exists_pieces s cs
  rw [hpieces.readAfterSlashes_eq hs hf] at h
  cases ha : readAuthority s auth with
  | error e =>
    rw [ha] at h
    cases h
  | ok x =>
    rw [ha] at h
    cases h
    exact ⟨_, rfl, appendSegments_ne_nil [] (Text.splitOn_ne_nil _ _)⟩

theorem isRooted_of_parse (hs : u.scheme.isSpecial = true) (hf : u.scheme ≠ .file) {text : String}
    (h : parse text = .ok u) : u.IsRooted := by
  obtain ⟨r, hr⟩ := exists_readScheme?_of_parse h
  rw [parse_of_readScheme? hs hf hr] at h
  exact isRooted_of_readAfterSlashes hs hf h

theorem isRooted_of_readRelative (hs : base.scheme.isSpecial = true) (hf : base.scheme ≠ .file)
    (hbase : base.IsRooted) {cs : List Char} (h : readRelative base cs = .ok u) :
    u.IsRooted := by
  unfold readRelative at h
  simp only at h
  split at h
  · cases h
    exact hbase
  · cases h
    exact hbase
  · cases h
    exact hbase
  · exact isRooted_of_readAfterSlashes hs hf h
  · split_ifs at h
    · exact isRooted_of_readAfterSlashes hs hf h
    · cases h
      exact isRooted_of_readSegments hf [] _ rfl
    · cases h
      exact isRooted_of_readSegments hf base.path.segments.dropLast (_ :: _) rfl

theorem isRooted_of_resolve (hs : u.scheme.isSpecial = true) (hf : u.scheme ≠ .file)
    (hbase : base.scheme.isSpecial = true ∧ base.scheme ≠ .file) (hrooted : base.IsRooted)
    {reference : String} (h : resolve base reference = .ok u) : u.IsRooted := by
  obtain ⟨hbs, hbf⟩ := hbase
  unfold resolve read at h
  simp only at h
  split at h
  · cases h
  · rename_i hsome
    cases hsome
    exact isRooted_of_readRelative hbs hbf hrooted h
  · exact absurd (scheme_of_readFile h) hf
  · rw [scheme_of_readPlain h] at hs
    cases hs
  · rename_i scheme r hfile hother hr
    have hscheme : scheme.isSpecial = true ∧ scheme ≠ .file := by
      cases scheme with
      | file => exact (hfile rfl).elim
      | other name => exact (hother name rfl).elim
      | _ => exact ⟨rfl, nofun⟩
    simp only at h
    split_ifs at h
    · exact isRooted_of_readRelative hbs hbf hrooted h
    · exact isRooted_of_readAfterSlashes hscheme.1 hscheme.2 h

end Paths

/-! ## References -/

section Resolving

variable {base base' u : Url}

/-- A reference leads to the server of the URL that it is relative to, or to the same URL from all
URLs of a server. -/
theorem origin_eq_or_of_readRelative (h : base.origin = base'.origin) {cs : List Char}
    (hu : readRelative base cs = .ok u) :
    u.origin = base.origin ∨ readRelative base' cs = .ok u := by
  have hscheme : base.scheme = base'.scheme := congrArg Prod.fst h
  unfold readRelative at hu ⊢
  simp only [← hscheme] at hu ⊢
  split at hu
  · cases hu
    exact .inl rfl
  · cases hu
    exact .inl rfl
  · cases hu
    exact .inl rfl
  · exact .inr hu
  · split_ifs at hu ⊢
    · exact .inr hu
    · cases hu
      exact .inl rfl
    · cases hu
      exact .inl rfl

theorem origin_eq_or_of_resolve (h : base.origin = base'.origin) {reference : String}
    (hu : resolve base reference = .ok u) :
    u.origin = base.origin ∨ resolve base' reference = .ok u := by
  have hscheme : base.scheme = base'.scheme := congrArg Prod.fst h
  unfold resolve read at hu ⊢
  simp only at hu ⊢
  generalize readScheme? (significant reference) = named at hu ⊢
  rcases named with _ | ⟨scheme, r⟩
  · exact origin_eq_or_of_readRelative h hu
  · cases scheme with
    | file => exact .inr hu
    | other name => exact .inr hu
    | _ =>
      simp only [← hscheme] at hu ⊢
      split_ifs at hu ⊢
      · exact origin_eq_or_of_readRelative h hu
      · exact .inr hu

end Resolving

/-! ## Authorities -/

section Authorities

variable {s : Scheme} {text : String} {given u : Url}

def authorityText (s : Scheme) (cs : List Char) : List Char :=
  cs.takeWhile fun c => !endsAuthority s c

theorem within_authorityText (s : Scheme) (cs : List Char) : Within s (authorityText s cs) := by
  intro c hc
  simpa using List.mem_takeWhile_imp hc

theorem authorityText_append_slash (x z : List Char) :
    authorityText s (x ++ '/' :: z) = authorityText s x := by
  have hslash : authorityText s ('/' :: z) = [] :=
    List.takeWhile_cons_of_neg (by simp [endsAuthority, isSlash])
  have happend : authorityText s (x ++ '/' :: z) =
      if (authorityText s x).length = x.length then x ++ authorityText s ('/' :: z)
      else authorityText s x := List.takeWhile_append
  rw [happend, hslash, List.append_nil]
  split_ifs with hlength
  · exact ((List.takeWhile_prefix _).eq_of_length hlength).symm
  · rfl

/-- The authority of a URL is read from its text alone. -/
theorem authority_of_readAfterSlashes (hs : s.isSpecial = true) (hf : s ≠ .file) {cs : List Char}
    (h : readAfterSlashes s cs = .ok u) :
    ∃ a, (readAuthority s (authorityText s cs)).map Prod.fst = .ok a ∧ u.authority = some a := by
  obtain ⟨auth, p, q, rfl, hpieces⟩ := exists_pieces s cs
  have hauth : authorityText s (auth ++ (p ++ q)) = auth := by
    have hsplits : Splits (fun c => !endsAuthority s c) auth (p ++ q) :=
      ⟨fun c hc => by simp [hpieces.within c hc], fun c hc => by simp [hpieces.outside c hc]⟩
    have hspan := hsplits.span_eq
    rw [List.span_eq_takeWhile_dropWhile] at hspan
    exact congrArg Prod.fst hspan
  rw [hauth]
  rw [hpieces.readAfterSlashes_eq hs hf] at h
  cases ha : readAuthority s auth with
  | error e =>
    rw [ha] at h
    cases h
  | ok x =>
    rw [ha] at h
    cases h
    exact ⟨x.1, rfl, rfl⟩

theorem isSome_authority_of_parse (hs : u.scheme.isSpecial = true) (hf : u.scheme ≠ .file)
    (h : parse text = .ok u) : u.authority.isSome = true := by
  obtain ⟨r, hr⟩ := exists_readScheme?_of_parse h
  rw [parse_of_readScheme? hs hf hr] at h
  obtain ⟨a, _, ha⟩ := authority_of_readAfterSlashes hs hf h
  rw [ha]
  rfl

/-- Blanks behind a text are no part of its authority, or else there is none. -/
theorem authorityText_append_of_isEdge (hs : s.isSpecial = true) {late : List Char}
    (hlate : ∀ c ∈ late, isEdge c = true) (cs : List Char) {a : Authority}
    (h : (readAuthority s (authorityText s (cs ++ late))).map Prod.fst = .ok a) :
    authorityText s (cs ++ late) = authorityText s cs := by
  have happend : authorityText s (cs ++ late) =
      if (authorityText s cs).length = cs.length then cs ++ authorityText s late
      else authorityText s cs := List.takeWhile_append
  have hblanks : authorityText s late = late :=
    List.takeWhile_eq_self_iff.2 fun c hc => by
      simp [endsAuthority_eq_false_of_isEdge (hlate c hc)]
  rw [hblanks] at happend
  split_ifs at happend with hlength
  · rcases List.eq_nil_or_concat late with rfl | ⟨late, d, rfl⟩
    · rw [List.append_nil]
    · exfalso
      have hwithin := within_authorityText s (cs ++ late.concat d)
      have hd : isEdge d = true := hlate d (by simp)
      rw [happend, List.concat_eq_append, ← List.append_assoc] at hwithin h
      cases hx : readAuthority s (cs ++ late ++ [d]) with
      | error e =>
        rw [hx] at h
        cases h
      | ok x => exact readAuthority_of_isEdge hs hwithin hd x hx
  · exact happend

/-- What counts of a text stays when a slash and more are put behind it. -/
theorem exists_significant_append {c : Char} (hmem : c ∈ text.toList) (hc : isEdge c = false)
    (w : List Char) : ∃ z, significant (text ++ String.ofList ('/' :: w)) =
      significant text ++ (lateBlanks text ++ '/' :: z) := by
  obtain ⟨x, c, tail, heq, hc, htail⟩ := exists_split hmem hc
  have hslash : '/' ∈ (String.ofList ('/' :: w)).toList := by simp
  obtain ⟨y, d, rest, hy, hd, hrest⟩ := exists_split hslash rfl
  obtain ⟨hsignificant, hblanks⟩ := significant_of_split heq hc htail
  have hlonger : (text ++ String.ofList ('/' :: w)).toList =
      (x ++ c :: (tail ++ y)) ++ d :: rest := by
    rw [String.toList_append, hy, heq]
    simp
  rw [String.toList_ofList] at hy
  obtain ⟨z, hz⟩ : ∃ z, y.filter counts ++ [d] = '/' :: z := by
    cases y with
    | nil => exact ⟨[], by rw [(List.cons_eq_cons.1 hy).1]; rfl⟩
    | cons e y =>
      rw [← (List.cons_eq_cons.1 hy).1]
      exact ⟨y.filter counts ++ [d], rfl⟩
  refine ⟨z, ?_⟩
  rw [(significant_of_split hlonger hd hrest).1, hsignificant, hblanks,
    Text.dropWhile_append_cons hc, List.filter_append,
    List.filter_cons_of_pos (counts_of_not_isEdge hc), List.filter_append, ← hz]
  simp

section Joined

variable {r w : List Char} (hs : s.isSpecial = true) (hf : s ≠ .file)

include hs hf

/-- What is put behind a slash has no part in the authority. -/
theorem authority_of_parse_append (hcolon : ':' ∈ text.toList)
    (hr : readScheme? (significant text) = some (s, r))
    (hne : r.dropWhile (isSlash s) ≠ [] ∨ lateBlanks text ≠ [])
    (h : parse (text ++ String.ofList ('/' :: w)) = .ok u) :
    ∃ a, (readAuthority s (authorityText s (r.dropWhile (isSlash s) ++ lateBlanks text))).map
      Prod.fst = .ok a ∧ u.authority = some a := by
  obtain ⟨z, hz⟩ := exists_significant_append hcolon rfl w
  have hlate : ∀ c ∈ lateBlanks text, isEdge c = true := fun c hc => isEdge_of_mem_lateBlanks hc
  have hscheme : readScheme? (significant (text ++ String.ofList ('/' :: w))) =
      some (s, r ++ (lateBlanks text ++ '/' :: z)) := by
    rw [hz]
    exact readScheme?_append hr _
  rw [parse_of_readScheme? hs hf hscheme, dropWhile_isSlash_append _ hlate hne,
    ← List.append_assoc] at h
  obtain ⟨a, ha, hu⟩ := authority_of_readAfterSlashes hs hf h
  rw [authorityText_append_slash] at ha
  exact ⟨a, ha, hu⟩

end Joined

/-- A URL of the web whose text is that of another with a slash and more behind it has the authority
of the other. -/
theorem authority_of_joined {w : List Char} (hs : u.scheme.isSpecial = true)
    (hf : u.scheme ≠ .file) (hgiven : parse text = .ok given)
    (h : parse (Text.dropTrailingSlashes text ++ String.ofList ('/' :: w)) = .ok u) :
    u.scheme = given.scheme ∧ u.authority = given.authority := by
  obtain ⟨_, hscheme⟩ := exists_readScheme?_of_parse hgiven
  obtain ⟨hcolon, r, hr⟩ := exists_readScheme?_of_dropTrailingSlashes hscheme
  have hsame : u.scheme = given.scheme := by
    obtain ⟨_, hu⟩ := exists_readScheme?_of_parse h
    obtain ⟨z, hz⟩ := exists_significant_append hcolon rfl w
    rw [hz, readScheme?_append hr] at hu
    exact (congrArg Prod.fst (Option.some.inj hu)).symm
  refine ⟨hsame, ?_⟩
  rw [hsame] at hs hf
  have hne := ne_nil_of_readScheme? hs hf hcolon hr hgiven
  obtain ⟨a, ha, hu⟩ := authority_of_parse_append hs hf hcolon hr hne h
  obtain ⟨slashes, htext, hslashes⟩ := Text.exists_slashes text
  cases slashes with
  | nil =>
    rw [String.ofList_nil, String.append_empty] at htext
    rw [htext, parse_of_readScheme? hs hf hr] at hgiven
    obtain ⟨b, hb, hauthority⟩ := authority_of_readAfterSlashes hs hf hgiven
    have hlate : ∀ c ∈ lateBlanks (Text.dropTrailingSlashes text), isEdge c = true :=
      fun c hc => isEdge_of_mem_lateBlanks hc
    rw [authorityText_append_of_isEdge hs hlate _ ha, hb] at ha
    rw [hu, hauthority, Except.ok.inj ha]
  | cons c slashes =>
    obtain ⟨rfl, -⟩ := List.forall_mem_cons.1 hslashes
    rw [htext] at hgiven
    obtain ⟨b, hb, hauthority⟩ := authority_of_parse_append hs hf hcolon hr hne hgiven
    rw [ha] at hb
    rw [hu, hauthority, Except.ok.inj hb]

end Authorities

end TopicClient.Url
