import TopicClient.Proofs.Url.Segments

/-!
# Texts of paths put behind the text of a URL

A path that is put behind the text of a URL of the web is read where the text ends. If that is in the
query or the fragment, the path of the URL stays the same. Else it stands at the end of the path, and
the authority and the path before it depend on the text alone; they are those of its URL unless
blanks stand at the end of the text, or the path before it ends in a slash.
-/

namespace TopicClient.Url

section Pieces

variable {s : Scheme} {auth p q : List Char}

theorem eq_or_eq_of_endsPath {c : Char} (h : (c ≠ '?' && c ≠ '#') = false) : c = '?' ∨ c = '#' := by
  simpa only [Bool.and_eq_false_iff, decide_eq_false_iff_not, not_not] using h

/-- What follows the slashes of a URL of the web: its authority, its path and the rest from the
query or the fragment on. -/
structure Pieces (s : Scheme) (auth p q : List Char) : Prop where
  within : Within s auth
  slash : ∀ c ∈ p.head?, isSlash s c = true
  splits : Splits (fun c => c ≠ '?' && c ≠ '#') p q

theorem exists_pieces (s : Scheme) (cs : List Char) :
    ∃ auth p q, cs = auth ++ (p ++ q) ∧ Pieces s auth p q := by
  obtain ⟨auth, after, rfl, hauth⟩ := exists_splits (fun c => !endsAuthority s c) cs
  obtain ⟨p, q, rfl, hpath⟩ := exists_splits (fun c => c ≠ '?' && c ≠ '#') after
  refine ⟨auth, p, q, rfl, ?_, ?_, hpath⟩
  · intro c hc
    simpa using hauth.all c hc
  · intro c hc
    cases p with
    | nil => cases hc
    | cons d p =>
      obtain rfl := Option.some.inj hc
      have hends := hauth.stops d rfl
      have hplain := hpath.all d List.mem_cons_self
      simp only [Bool.not_eq_false'] at hends
      simp only [Bool.and_eq_true, decide_eq_true_eq] at hplain
      simpa [endsAuthority, hplain.1, hplain.2] using hends

theorem Pieces.outside (h : Pieces s auth p q) : Outside s (p ++ q) := by
  intro c hc
  cases p with
  | cons d p =>
    have hslash := h.slash c hc
    rw [endsAuthority, hslash, Bool.true_or, Bool.true_or]
  | nil =>
    rcases eq_or_eq_of_endsPath (h.splits.stops c hc) with rfl | rfl
    · simp [endsAuthority]
    · simp [endsAuthority]

theorem Pieces.readPath_eq (h : Pieces s auth p q) (hs : s.isSpecial = true) (hf : s ≠ .file) :
    readPath s (p ++ q) = (.rooted (pathSegments s p), q) := by
  have hspan := h.splits.span_eq
  cases p with
  | nil =>
    have hempty : pathSegments s [] = [""] :=
      appendSegments_of_isLower hf [] (List.forall_mem_singleton.2 nofun)
    cases q with
    | nil => simp only [List.append_nil, readPath, hs, if_true, hempty]
    | cons c q =>
      have hc : isSlash s c = false := by
        rcases eq_or_eq_of_endsPath (h.splits.stops c rfl) with rfl | rfl
        · simp [isSlash]
        · simp [isSlash]
      rw [List.nil_append] at hspan ⊢
      simp only [readPath, hc, hs, Bool.false_eq_true, if_true, if_false, readSegments, hspan, hf]
      rfl
  | cons c p =>
    have hsplits : Splits (fun c => c ≠ '?' && c ≠ '#') p q :=
      ⟨fun d hd => h.splits.all d (List.mem_cons_of_mem c hd), h.splits.stops⟩
    have hc : isSlash s c = true := h.slash c rfl
    simp only [List.cons_append, readPath, hc, if_true, readSegments, hsplits.span_eq, hf,
      if_false]
    rfl

theorem Pieces.readAfterSlashes_eq (h : Pieces s auth p q) (hs : s.isSpecial = true)
    (hf : s ≠ .file) :
    readAfterSlashes s (auth ++ (p ++ q)) = (readAuthority s auth).map fun x =>
      finish s (some x.1) (.rooted (pathSegments s p)) q := by
  unfold readAfterSlashes
  rw [readAuthority_append hs h.within h.outside]
  cases ha : readAuthority s auth with
  | error e => rfl
  | ok x =>
    obtain ⟨a, rest⟩ := x
    obtain rfl := rest_of_readAuthority hs h.within ha
    have hpath : readPath s ([] ++ (p ++ q)) = (.rooted (pathSegments s p), q) :=
      h.readPath_eq hs hf
    simp only [Except.map, bind, Except.bind, hpath]
    rfl

end Pieces

/-! ## Where a text ends -/

section Start

variable {s : Scheme} {text : String} {given : Url}

theorem not_isEdge_of_isPlain {w : List Char} (hw : IsPlain w) : ∀ c ∈ '/' :: w, isEdge c = false := by
  refine List.forall_mem_cons.2 ⟨rfl, fun c hc => ?_⟩
  rw [← Bool.not_eq_true]
  intro hedge
  have hhigh := toNat_of_isEdge hedge
  rcases hw c hc with rfl | hlower
  · cases hedge
  · have hlow := (toNat_of_isLower hlower).1
    omega

theorem readAfterSlashes_nil (hs : s.isSpecial = true) (u : Url) :
    readAfterSlashes s [] ≠ .ok u := by
  have hwithin : Within s [] := nofun
  have houtside : Outside s [] := nofun
  have hnone : readAuthority s [] = .error .emptyHost :=
    (readAuthority_eq_readHostPort hs hwithin).trans (readHostPort_of_outside hs _ houtside)
  unfold readAfterSlashes
  rw [hnone]
  exact nofun

/-- Behind a scheme, and slashes that do not count, stands what a text and its blanks come to. -/
theorem dropWhile_isSlash_append {r late : List Char} (y : List Char)
    (hlate : ∀ c ∈ late, isEdge c = true) (hne : r.dropWhile (isSlash s) ≠ [] ∨ late ≠ []) :
    (r ++ (late ++ y)).dropWhile (isSlash s) = r.dropWhile (isSlash s) ++ (late ++ y) := by
  rw [List.dropWhile_append]
  split_ifs with hempty
  · have hnil := List.isEmpty_iff.1 hempty
    obtain ⟨c, late, rfl⟩ := List.exists_cons_of_ne_nil (hne.resolve_left (absurd hnil))
    have hc : ¬ isSlash s c = true := by
      rw [isSlash_eq_false_of_isEdge (hlate c List.mem_cons_self)]
      exact Bool.false_ne_true
    rw [hnil, List.cons_append, List.dropWhile_cons_of_neg hc, List.nil_append]
  · rfl

theorem exists_readScheme?_of_dropTrailingSlashes {r : List Char}
    (h : readScheme? (significant text) = some (s, r)) :
    ':' ∈ (Text.dropTrailingSlashes text).toList ∧
      ∃ r', readScheme? (significant (Text.dropTrailingSlashes text)) = some (s, r') := by
  obtain ⟨w, htext, hw⟩ := Text.exists_slashes text
  have hcolon : ':' ∈ (Text.dropTrailingSlashes text).toList := by
    obtain ⟨c, name, heq, -⟩ := readScheme?_eq_some_iff.1 h
    have hmem : ':' ∈ text.toList := mem_of_mem_significant (by rw [heq]; simp)
    rw [htext, String.toList_append, String.toList_ofList] at hmem
    refine (List.mem_append.1 hmem).resolve_right fun hslash => ?_
    exact absurd (hw ':' hslash) (by decide)
  refine ⟨hcolon, ?_⟩
  cases w with
  | nil =>
    rw [String.ofList_nil, String.append_empty] at htext
    exact ⟨r, by rw [← htext]; exact h⟩
  | cons c w =>
    obtain ⟨rfl, hslashes⟩ := List.forall_mem_cons.1 hw
    have hplain := not_isEdge_of_isPlain fun c hc => .inl (hslashes c hc)
    rw [htext, (significant_append hcolon rfl hplain (List.cons_ne_nil _ _)).1] at h
    refine exists_readScheme?_of_append h fun d hd => ?_
    cases hlate : lateBlanks (Text.dropTrailingSlashes text) with
    | nil =>
      rw [hlate] at hd
      obtain rfl := Option.some.inj hd
      exact ⟨by decide, by decide⟩
    | cons e late =>
      rw [hlate] at hd
      obtain rfl := Option.some.inj hd
      have hedge : isEdge e = true := isEdge_of_mem_lateBlanks (hlate ▸ List.mem_cons_self)
      refine ⟨isSchemeChar_eq_false_of_isEdge hedge, ?_⟩
      rintro rfl
      cases hedge

section Scheme

variable {r : List Char} (hs : s.isSpecial = true) (hf : s ≠ .file)
  (hcolon : ':' ∈ (Text.dropTrailingSlashes text).toList)
  (hr : readScheme? (significant (Text.dropTrailingSlashes text)) = some (s, r))

include hs hf hcolon hr

theorem parse_append_of_readScheme? {w : List Char} (hw : IsPlain w) :
    parse (Text.dropTrailingSlashes text ++ String.ofList ('/' :: w)) =
      readAfterSlashes s
        ((r ++ (lateBlanks (Text.dropTrailingSlashes text) ++ '/' :: w)).dropWhile (isSlash s)) := by
  have hsignificant :=
    (significant_append hcolon rfl (not_isEdge_of_isPlain hw) (List.cons_ne_nil _ _)).1
  apply parse_of_readScheme? hs hf
  rw [hsignificant]
  exact readScheme?_append hr _

/-- A text with nothing behind the slashes of its scheme is no URL. -/
theorem ne_nil_of_readScheme? (h : parse text = .ok given) :
    r.dropWhile (isSlash s) ≠ [] ∨ lateBlanks (Text.dropTrailingSlashes text) ≠ [] := by
  obtain ⟨w, htext, hw⟩ := Text.exists_slashes text
  by_contra hnil
  rw [not_or, not_not, not_not] at hnil
  cases w with
  | nil =>
    rw [String.ofList_nil, String.append_empty] at htext
    rw [← htext] at hr
    rw [parse_of_readScheme? hs hf hr, hnil.1] at h
    exact readAfterSlashes_nil hs given h
  | cons c w =>
    obtain ⟨rfl, hslashes⟩ := List.forall_mem_cons.1 hw
    have hgiven := parse_append_of_readScheme? hs hf hcolon hr fun c hc => .inl (hslashes c hc)
    have hempty : (r ++ ([] ++ '/' :: w)).dropWhile (isSlash s) = [] := by
      rw [List.dropWhile_append, hnil.1]
      refine List.dropWhile_eq_nil_iff.2 fun c hc => ?_
      rw [hw c hc]
      rfl
    rw [← htext, h, hnil.2, hempty] at hgiven
    exact readAfterSlashes_nil hs given hgiven.symm

end Scheme

/-- Behind the scheme and the slashes of a text stands `cs`, whether a path is put behind the text
or not. The slashes at the end of the text are such a path. -/
structure StartsAt (text : String) (given : Url) (cs : List Char) : Prop where
  joined : ∀ w, IsPlain w →
    parse (Text.dropTrailingSlashes text ++ String.ofList ('/' :: w)) =
      readAfterSlashes given.scheme
        (cs ++ (lateBlanks (Text.dropTrailingSlashes text) ++ '/' :: w))
  given : text = Text.dropTrailingSlashes text ∧ readAfterSlashes given.scheme cs = .ok given ∨
    lateBlanks text = [] ∧ ∃ w, (∀ c ∈ w, c = '/') ∧
      text = Text.dropTrailingSlashes text ++ String.ofList ('/' :: w)

theorem exists_startsAt (hs : given.scheme.isSpecial = true) (hf : given.scheme ≠ .file)
    (h : parse text = .ok given) : ∃ cs, StartsAt text given cs := by
  obtain ⟨w, htext, hw⟩ := Text.exists_slashes text
  obtain ⟨_, hscheme⟩ := exists_readScheme?_of_parse h
  obtain ⟨hcolon, r, hr⟩ := exists_readScheme?_of_dropTrailingSlashes hscheme
  have hlate : ∀ c ∈ lateBlanks (Text.dropTrailingSlashes text), isEdge c = true :=
    fun c hc => isEdge_of_mem_lateBlanks hc
  have hne := ne_nil_of_readScheme? hs hf hcolon hr h
  refine ⟨r.dropWhile (isSlash given.scheme), ?_, ?_⟩
  · intro w hw
    rw [parse_append_of_readScheme? hs hf hcolon hr hw, dropWhile_isSlash_append _ hlate hne]
  · cases w with
    | nil =>
      rw [String.ofList_nil, String.append_empty] at htext
      rw [← htext] at hr
      exact .inl ⟨htext, by rw [← parse_of_readScheme? hs hf hr, h]⟩
    | cons c w =>
      obtain ⟨rfl, hslashes⟩ := List.forall_mem_cons.1 hw
      have hplain := not_isEdge_of_isPlain fun c hc => .inl (hslashes c hc)
      refine .inr ⟨?_, w, hslashes, htext⟩
      rw [htext]
      exact (significant_append hcolon rfl hplain (List.cons_ne_nil _ _)).2

end Start

/-! ## Joined texts -/

section Joined

variable {s : Scheme} {text : String} {given : Url}

/-- Plain paths behind a text come to URLs with one authority, and their own paths stand behind the
segments `start`. -/
def Joins (text : String) (s : Scheme) (authority : Result Authority) (start : List String) : Prop :=
  ∀ w, IsPlain w → ∃ segments,
    parse (text ++ String.ofList ('/' :: w)) =
        authority.map (fun a => { scheme := s, authority := some a, path := .rooted segments }) ∧
      (Path.rooted segments).render.toList = (Path.rooted start).render.toList ++ '/' :: w

theorem isInPath_of_isEdge {c : Char} (h : isEdge c = true) : (c ≠ '?' && c ≠ '#') = true := by
  simp only [Bool.and_eq_true, decide_eq_true_eq]
  constructor
  · rintro rfl
    cases h
  · rintro rfl
    cases h

theorem isInPath_of_isPlain {w : List Char} (h : IsPlain w) :
    ∀ c ∈ w, (c ≠ '?' && c ≠ '#') = true := by
  intro c hc
  simp only [Bool.and_eq_true, decide_eq_true_eq]
  constructor
  · rintro rfl
    exact absurd (h '?' hc) (by decide)
  · rintro rfl
    exact absurd (h '#' hc) (by decide)

section Pieces

variable {auth p q : List Char} {u : Url} (hs : s.isSpecial = true) (hf : s ≠ .file)

theorem Pieces.append {z : List Char} (h : Pieces s auth p [])
    (hz : ∀ c ∈ z, (c ≠ '?' && c ≠ '#') = true)
    (hslash : p = [] → ∀ c ∈ z.head?, isSlash s c = true) : Pieces s auth (p ++ z) [] := by
  refine ⟨h.within, ?_, ?_, nofun⟩
  · cases p with
    | nil => exact hslash rfl
    | cons c p => exact h.slash
  · intro c hc
    exact (List.mem_append.1 hc).elim (h.splits.all c) (hz c)

include hs hf

theorem Pieces.eq_of_readAfterSlashes (h : Pieces s auth p [])
    (hu : readAfterSlashes s (auth ++ p) = .ok u) :
    ∃ a, (readAuthority s auth).map Prod.fst = .ok a ∧
      u = { scheme := s, authority := some a, path := .rooted (pathSegments s p) } := by
  have hread := h.readAfterSlashes_eq hs hf
  rw [List.append_nil, hu] at hread
  cases ha : readAuthority s auth with
  | error e =>
    rw [ha] at hread
    cases hread
  | ok x =>
    rw [ha] at hread
    exact ⟨x.1, rfl, Except.ok.inj hread⟩

/-- What is put behind a query or a fragment is no part of the path. -/
theorem Pieces.path_eq {z : List Char} (h : Pieces s auth p q) (hq : q ≠ [])
    (hu : readAfterSlashes s (auth ++ (p ++ q) ++ z) = .ok u) :
    u.path = .rooted (pathSegments s p) ∧ (u.query.isSome ∨ u.fragment.isSome) := by
  obtain ⟨c, q, rfl⟩ := List.exists_cons_of_ne_nil hq
  have hlonger : Pieces s auth p (c :: q ++ z) := ⟨h.within, h.slash, h.splits.all, h.splits.stops⟩
  rw [List.append_assoc, List.append_assoc, hlonger.readAfterSlashes_eq hs hf] at hu
  cases ha : readAuthority s auth with
  | error e =>
    rw [ha] at hu
    cases hu
  | ok x =>
    rw [ha] at hu
    obtain rfl := Except.ok.inj hu
    refine ⟨rfl, ?_⟩
    rcases eq_or_eq_of_endsPath (h.splits.stops c rfl) with rfl | rfl
    · exact .inl rfl
    · exact .inr rfl

/-- Without a query and a fragment, what is put behind a text stands behind its path. -/
theorem Pieces.joins (h : Pieces s auth p []) (hparse : ∀ w, IsPlain w →
      parse (text ++ String.ofList ('/' :: w)) = readAfterSlashes s (auth ++ (p ++ '/' :: w))) :
    Joins text s ((readAuthority s auth).map Prod.fst) (above s p) := by
  intro w hw
  have hlonger : Pieces s auth (p ++ '/' :: w) [] := by
    refine h.append (fun c hc => ?_) fun _ c hc => by obtain rfl := Option.some.inj hc; rfl
    rcases List.mem_cons.1 hc with rfl | hc
    · rfl
    · exact isInPath_of_isPlain hw c hc
  refine ⟨pathSegments s (p ++ '/' :: w), ?_, render_pathSegments_append hf p hw⟩
  have hread := hlonger.readAfterSlashes_eq hs hf
  rw [List.append_nil] at hread
  rw [hparse w hw, hread]
  cases readAuthority s auth with
  | error e => rfl
  | ok x => rfl

/-- Blanks at the end of a text belong to the authority, which cannot have them, or to the path,
which is longer with them. -/
theorem Pieces.exists_append {late : List Char} (h : Pieces s auth p [])
    (hlate : ∀ c ∈ late, isEdge c = true) :
    ∃ auth' p', Pieces s auth' p' [] ∧ auth ++ (p ++ late) = auth' ++ p' ∧
      (late = [] → auth' = auth ∧ p' = p) ∧
      (late ≠ [] → (∀ a, (readAuthority s auth').map Prod.fst ≠ .ok a) ∨
        (Path.rooted (pathSegments s p)).render.toList.length <
          (Path.rooted (above s p')).render.toList.length) := by
  by_cases hp : p = []
  · subst hp
    have hwithin : Within s (auth ++ late) := fun c hc =>
      (List.mem_append.1 hc).elim (h.within c) fun hc =>
        endsAuthority_eq_false_of_isEdge (hlate c hc)
    refine ⟨auth ++ late, [], ⟨hwithin, nofun, nofun, nofun⟩, by simp, ?_, ?_⟩
    · rintro rfl
      exact ⟨List.append_nil auth, rfl⟩
    · intro hne
      obtain ⟨late, c, rfl⟩ := List.eq_nil_or_concat late |>.resolve_left hne
      rw [List.concat_eq_append, ← List.append_assoc] at hwithin ⊢
      refine .inl fun a ha => ?_
      cases hread : readAuthority s (auth ++ late ++ [c]) with
      | error e =>
        rw [hread] at ha
        cases ha
      | ok x => exact readAuthority_of_isEdge hs hwithin (hlate c (by simp)) x hread
  · refine ⟨auth, p ++ late, h.append ?_ (absurd · hp), rfl, ?_, ?_⟩
    · intro c hc
      exact isInPath_of_isEdge (hlate c hc)
    · rintro rfl
      exact ⟨rfl, List.append_nil p⟩
    · intro hne
      exact .inr (length_pathSegments_lt hf hp hne hlate)

end Pieces

section Joint

variable {authority : Result Authority} {start : List String} {w : List Char}

theorem Joins.of_parse {u : Url} (h : Joins text s authority start) (hw : IsPlain w)
    (hu : parse (text ++ String.ofList ('/' :: w)) = .ok u) :
    ∃ a, authority = .ok a ∧ u.authority = some a ∧ u.query = none ∧ u.fragment = none ∧
      u.path.render.toList = (Path.rooted start).render.toList ++ '/' :: w := by
  obtain ⟨segments, hread, hrender⟩ := h w hw
  rw [hread] at hu
  cases authority with
  | error e => cases hu
  | ok a =>
    obtain rfl := Except.ok.inj hu
    exact ⟨a, rfl, rfl, rfl, rfl, hrender⟩

/-- The authority and the segments before the paths that are put behind a text, compared with its
URL. Blanks at the end of the text belong to the authority, which cannot have them, or to the
segments, which are longer with them. -/
structure Joint (text : String) (given : Url) (authority : Result Authority)
    (start : List String) : Prop where
  joins : Joins (Text.dropTrailingSlashes text) given.scheme authority start
  authority_eq : lateBlanks text = [] → ∃ a, authority = .ok a ∧ given.authority = some a
  render_eq : lateBlanks text = [] → given.path.render.toList.rdropWhile (· = '/') =
    (Path.rooted start).render.toList.rdropWhile (· = '/')
  differs : lateBlanks text ≠ [] → (∀ a, authority ≠ .ok a) ∨
    given.path.render.toList.length < (Path.rooted start).render.toList.length

/-- Slashes at the end of a text make no difference. -/
theorem Joins.joint (h : Joins (Text.dropTrailingSlashes text) given.scheme authority start)
    (hlate : lateBlanks text = []) (hw : ∀ c ∈ w, c = '/')
    (hparse : parse (Text.dropTrailingSlashes text ++ String.ofList ('/' :: w)) = .ok given) :
    given.query = none ∧ given.fragment = none ∧ Joint text given authority start := by
  obtain ⟨a, ha, hauthority, hquery, hfragment, hrender⟩ := h.of_parse (fun c hc => .inl (hw c hc))
    hparse
  refine ⟨hquery, hfragment, h, fun _ => ⟨a, ha, hauthority⟩, fun _ => ?_, absurd hlate⟩
  rw [hrender]
  refine Text.rdropWhile_append_of_pos _ fun c hc => ?_
  rcases List.mem_cons.1 hc with rfl | hc
  · rfl
  · rw [hw c hc]
    rfl

end Joint

section Given

variable {auth p q : List Char} (hs : given.scheme.isSpecial = true) (hf : given.scheme ≠ .file)
  (h : parse text = .ok given) (hpieces : Pieces given.scheme auth p q)
  (hstart : StartsAt text given (auth ++ (p ++ q)))

include hs hf h hpieces hstart

theorem path_eq_of_ne_nil (hq : q ≠ []) :
    (given.query.isSome ∨ given.fragment.isSome) ∧ ∀ w, IsPlain w → ∀ u,
      parse (Text.dropTrailingSlashes text ++ String.ofList ('/' :: w)) = .ok u →
        u.path = given.path := by
  have hpath : ∀ w, IsPlain w → ∀ u,
      parse (Text.dropTrailingSlashes text ++ String.ofList ('/' :: w)) = .ok u →
        u.path = .rooted (pathSegments given.scheme p) ∧ (u.query.isSome ∨ u.fragment.isSome) := by
    intro w hw u hu
    rw [hstart.joined w hw] at hu
    exact hpieces.path_eq hs hf hq hu
  have hself : given.path = .rooted (pathSegments given.scheme p) ∧
      (given.query.isSome ∨ given.fragment.isSome) := by
    rcases hstart.given with ⟨-, hread⟩ | ⟨-, w, hw, htext⟩
    · rw [← List.append_nil (auth ++ (p ++ q))] at hread
      exact hpieces.path_eq hs hf hq hread
    · exact hpath w (fun c hc => .inl (hw c hc)) given (by rw [← htext, h])
  exact ⟨hself.2, fun w hw u hu => by rw [(hpath w hw u hu).1, hself.1]⟩

theorem exists_joint_of_eq_nil (hq : q = []) :
    given.query = none ∧ given.fragment = none ∧
      ∃ authority start, Joint text given authority start := by
  subst hq
  have hblanks : ∀ c ∈ lateBlanks (Text.dropTrailingSlashes text), isEdge c = true :=
    fun c hc => isEdge_of_mem_lateBlanks hc
  obtain ⟨auth', p', hpieces', heq, hclean, hblank⟩ := hpieces.exists_append hs hf hblanks
  have hjoin : ∀ w, IsPlain w →
      parse (Text.dropTrailingSlashes text ++ String.ofList ('/' :: w)) =
        readAfterSlashes given.scheme (auth' ++ (p' ++ '/' :: w)) := by
    intro w hw
    rw [hstart.joined w hw, List.append_nil, ← List.append_assoc, List.append_assoc auth, heq,
      List.append_assoc]
  have hjoins := hpieces'.joins hs hf hjoin
  rcases hstart.given with ⟨htext, hread⟩ | ⟨hlate, w, hw, htext⟩
  · rw [List.append_nil] at hread
    obtain ⟨a, ha, hu⟩ := hpieces.eq_of_readAfterSlashes hs hf hread
    have hlate : lateBlanks text = lateBlanks (Text.dropTrailingSlashes text) :=
      congrArg lateBlanks htext
    have hpath : given.path = .rooted (pathSegments given.scheme p) := congrArg Url.path hu
    refine ⟨congrArg Url.query hu, congrArg Url.fragment hu, _, _, hjoins, ?_, ?_, ?_⟩
    · intro hnil
      rw [hlate] at hnil
      obtain ⟨rfl, rfl⟩ := hclean hnil
      exact ⟨a, ha, congrArg Url.authority hu⟩
    · intro hnil
      rw [hlate] at hnil
      obtain ⟨rfl, rfl⟩ := hclean hnil
      rw [hpath]
      exact rdropWhile_render_pathSegments hf p'
    · intro hne
      rw [hlate] at hne
      rw [hpath]
      exact hblank hne
  · rw [htext] at h
    obtain ⟨hquery, hfragment, hjoint⟩ := hjoins.joint hlate hw h
    exact ⟨hquery, hfragment, _, _, hjoint⟩

end Given

/-- A plain path behind the text of a URL of the web is lost, or stands at the end. -/
theorem lost_or_exists_joint (hs : given.scheme.isSpecial = true) (hf : given.scheme ≠ .file)
    (h : parse text = .ok given) :
    ((given.query.isSome ∨ given.fragment.isSome) ∧ ∀ w, IsPlain w → ∀ u,
        parse (Text.dropTrailingSlashes text ++ String.ofList ('/' :: w)) = .ok u →
          u.path = given.path) ∨
      given.query = none ∧ given.fragment = none ∧
        ∃ authority start, Joint text given authority start := by
  obtain ⟨cs, hstart⟩ := exists_startsAt hs hf h
  obtain ⟨auth, p, q, rfl, hpieces⟩ := exists_pieces given.scheme cs
  by_cases hq : q = []
  · exact .inr (exists_joint_of_eq_nil hs hf h hpieces hstart hq)
  · exact .inl (path_eq_of_ne_nil hs hf h hpieces hstart hq)

end Joined

end TopicClient.Url
