import TopicClient.Proofs.Glob.Spans

/-!
# How the server matches topics

The server matches a topic against a key as a path against a pattern, character by character:

* `*` takes any number of characters other than slashes, and `?` takes one of them;
* `[` … `]` takes one of the characters it lists, one by one or by ranges `lo-hi`, and `[^` … `]`
  takes one of all others; only a backslash puts a backslash, a dash or a closing bracket into a
  list, and no list is empty;
* a backslash takes the character after it, and every other character takes itself.

A key that cannot be read in this way matches nothing.
-/

namespace TopicClient.ServerRule

inductive Term where
  | char (c : Char)
  | one
  | run
  | set (negated : Bool) (ranges : List (Char × Char))
deriving DecidableEq

def Lists (ranges : List (Char × Char)) (c : Char) : Prop := ∃ r ∈ ranges, r.1 ≤ c ∧ c ≤ r.2

namespace Term

def repeats : Term → Bool
  | run => true
  | _ => false

def Takes : Term → Char → Prop
  | char d, c => c = d
  | one, c => c ≠ '/'
  | run, c => c ≠ '/'
  | set false ranges, c => Lists ranges c
  | set true ranges, c => ¬ Lists ranges c

end Term

inductive ReadsMember : List Char → Char → List Char → Prop
  | plain {c : Char} {cs : List Char} (hc : c ∉ ['\\', '-', ']']) : ReadsMember (c :: cs) c cs
  | escaped {c : Char} {cs : List Char} : ReadsMember ('\\' :: c :: cs) c cs

inductive ReadsRanges : List Char → List (Char × Char) → List Char → Prop
  | close {cs : List Char} : ReadsRanges (']' :: cs) [] cs
  | single {cs cs' rest : List Char} {c : Char} {ranges : List (Char × Char)}
      (hc : ReadsMember cs c cs') (h : ReadsRanges cs' ranges rest) :
      ReadsRanges cs ((c, c) :: ranges) rest
  | range {cs cs' cs'' rest : List Char} {lo hi : Char} {ranges : List (Char × Char)}
      (hlo : ReadsMember cs lo ('-' :: cs')) (hhi : ReadsMember cs' hi cs'')
      (h : ReadsRanges cs'' ranges rest) : ReadsRanges cs ((lo, hi) :: ranges) rest

inductive Reads : List Char → List Term → Prop
  | done : Reads [] []
  | run {cs : List Char} {ts : List Term} (h : Reads cs ts) : Reads ('*' :: cs) (.run :: ts)
  | one {cs : List Char} {ts : List Term} (h : Reads cs ts) : Reads ('?' :: cs) (.one :: ts)
  | listed {cs rest : List Char} {ranges : List (Char × Char)} {ts : List Term}
      (hcaret : cs.head? ≠ some '^') (hr : ReadsRanges cs ranges rest) (hne : ranges ≠ [])
      (h : Reads rest ts) : Reads ('[' :: cs) (.set false ranges :: ts)
  | unlisted {cs rest : List Char} {ranges : List (Char × Char)} {ts : List Term}
      (hr : ReadsRanges cs ranges rest) (hne : ranges ≠ []) (h : Reads rest ts) :
      Reads ('[' :: '^' :: cs) (.set true ranges :: ts)
  | escaped {c : Char} {cs : List Char} {ts : List Term} (h : Reads cs ts) :
      Reads ('\\' :: c :: cs) (.char c :: ts)
  | plain {c : Char} {cs : List Char} {ts : List Term} (hc : c ∉ ['*', '?', '[', '\\'])
      (h : Reads cs ts) : Reads (c :: cs) (.char c :: ts)

def Matches (ts : List Term) (cs : List Char) : Prop := Glob.Spans Term.repeats Term.Takes ts cs

/-- The server counts the topic as one of the key. -/
def Accepts (key topic : String) : Prop := ∃ ts, Reads key.toList ts ∧ Matches ts topic.toList

theorem ReadsMember.unique {cs : List Char} {c d : Char} {rest rest' : List Char}
    (h : ReadsMember cs c rest) (h' : ReadsMember cs d rest') : c = d ∧ rest = rest' := by
  cases h with
  | plain hc =>
    cases h' with
    | plain => exact ⟨rfl, rfl⟩
    | escaped => exact absurd List.mem_cons_self hc
  | escaped =>
    cases h' with
    | plain hc => exact absurd List.mem_cons_self hc
    | escaped => exact ⟨rfl, rfl⟩

theorem not_readsMember {d c : Char} {cs rest : List Char} (hd : d = '-' ∨ d = ']') :
    ¬ ReadsMember (d :: cs) c rest := by
  intro h
  cases h with
  | plain hc => exact hc (by rcases hd with rfl | rfl <;> decide)
  | escaped => rcases hd with hd | hd <;> cases hd

theorem not_readsRanges_dash {cs rest : List Char} {ranges : List (Char × Char)} :
    ¬ ReadsRanges ('-' :: cs) ranges rest := by
  intro h
  cases h with
  | single hc | range hc => exact not_readsMember (.inl rfl) hc

theorem ReadsRanges.unique {cs rest rest' : List Char} {ranges ranges' : List (Char × Char)}
    (h : ReadsRanges cs ranges rest) (h' : ReadsRanges cs ranges' rest') :
    ranges = ranges' ∧ rest = rest' := by
  induction h generalizing ranges' with
  | close =>
    cases h' with
    | close => exact ⟨rfl, rfl⟩
    | single hc | range hc => exact absurd hc (not_readsMember (.inr rfl))
  | single hc h ih =>
    cases h' with
    | close => exact absurd hc (not_readsMember (.inr rfl))
    | single hc' h' =>
      obtain ⟨rfl, rfl⟩ := hc.unique hc'
      obtain ⟨rfl, rfl⟩ := ih h'
      exact ⟨rfl, rfl⟩
    | range hc' =>
      obtain ⟨rfl, rfl⟩ := hc.unique hc'
      exact absurd h not_readsRanges_dash
  | range hlo hhi h ih =>
    cases h' with
    | close => exact absurd hlo (not_readsMember (.inr rfl))
    | single hc' h' =>
      obtain ⟨rfl, rfl⟩ := hlo.unique hc'
      exact absurd h' not_readsRanges_dash
    | range hlo' hhi' h' =>
      obtain ⟨rfl, hcs⟩ := hlo.unique hlo'
      obtain rfl := (List.cons_eq_cons.1 hcs).2
      obtain ⟨rfl, rfl⟩ := hhi.unique hhi'
      obtain ⟨rfl, rfl⟩ := ih h'
      exact ⟨rfl, rfl⟩

theorem ReadsMember.append {cs rest : List Char} {c : Char} (h : ReadsMember cs c rest)
    (ds : List Char) : ReadsMember (cs ++ ds) c (rest ++ ds) := by
  cases h with
  | plain hc => exact .plain hc
  | escaped => exact .escaped

theorem ReadsRanges.append {cs rest : List Char} {ranges : List (Char × Char)}
    (h : ReadsRanges cs ranges rest) (ds : List Char) :
    ReadsRanges (cs ++ ds) ranges (rest ++ ds) := by
  induction h with
  | close => exact .close
  | single hc _ ih => exact .single (hc.append ds) ih
  | range hlo hhi _ ih => exact .range (hlo.append ds) (hhi.append ds) ih

/-- The text between brackets is a list, and this is the part it stands for. -/
inductive ReadsList : List Char → Term → Prop
  | listed {cs : List Char} {ranges : List (Char × Char)} (hcaret : cs.head? ≠ some '^')
      (hr : ReadsRanges (cs ++ [']']) ranges []) (hne : ranges ≠ []) :
      ReadsList cs (.set false ranges)
  | unlisted {cs : List Char} {ranges : List (Char × Char)}
      (hr : ReadsRanges (cs ++ [']']) ranges []) (hne : ranges ≠ []) :
      ReadsList ('^' :: cs) (.set true ranges)

def Refuses (text : List Char) : Prop :=
  ∀ cs ts, ¬ Reads ('[' :: (text ++ ']' :: cs)) ts

theorem readsRanges_of_closed {text cs : List Char} {ranges : List (Char × Char)}
    (h : ReadsRanges (text ++ [']']) ranges []) : ReadsRanges (text ++ ']' :: cs) ranges cs := by
  have happend := h.append cs
  rw [List.append_assoc] at happend
  exact happend

theorem head?_append_ne {text : List Char} (h : text.head? ≠ some '^') (cs : List Char) :
    (text ++ ']' :: cs).head? ≠ some '^' := by
  cases text with
  | nil => simp
  | cons c text => exact h

theorem ReadsList.reads {text cs : List Char} {t : Term} {ts : List Term} (h : ReadsList text t)
    (hcs : Reads cs ts) : Reads ('[' :: (text ++ ']' :: cs)) (t :: ts) := by
  cases h with
  | listed hcaret hr hne =>
    exact .listed (head?_append_ne hcaret cs) (readsRanges_of_closed hr) hne hcs
  | unlisted hr hne => exact .unlisted (readsRanges_of_closed hr) hne hcs

theorem ReadsList.exists_reads {text cs : List Char} {t : Term} {ts : List Term}
    (h : ReadsList text t) (hcs : Reads ('[' :: (text ++ ']' :: cs)) ts) :
    ∃ ts', Reads cs ts' := by
  generalize hkey : '[' :: (text ++ ']' :: cs) = key at hcs
  cases hcs with
  | done | run | one | escaped => cases hkey
  | plain hc =>
    obtain ⟨rfl, _⟩ := List.cons_eq_cons.1 hkey
    exact absurd hc (by decide)
  | listed hcaret hr _ hts =>
    obtain ⟨_, rfl⟩ := List.cons_eq_cons.1 hkey
    cases h with
    | listed _ hr' =>
      obtain ⟨_, rfl⟩ := hr.unique (readsRanges_of_closed hr')
      exact ⟨_, hts⟩
    | unlisted => exact absurd rfl hcaret
  | unlisted hr _ hts =>
    obtain ⟨_, heq⟩ := List.cons_eq_cons.1 hkey
    cases h with
    | listed hcaret =>
      refine absurd ?_ (head?_append_ne hcaret cs)
      rw [heq]
      rfl
    | unlisted hr' =>
      obtain ⟨_, rfl⟩ := List.cons_eq_cons.1 heq
      obtain ⟨_, rfl⟩ := hr.unique (readsRanges_of_closed hr')
      exact ⟨_, hts⟩

theorem ReadsList.repeats_eq_false {text : List Char} {t : Term} (h : ReadsList text t) :
    t.repeats = false := by
  cases h <;> rfl

/-- A key can be read in one way at most. -/
theorem Reads.unique {cs : List Char} {ts ts' : List Term} (h : Reads cs ts)
    (h' : Reads cs ts') : ts = ts' := by
  induction h generalizing ts' with
  | done =>
    cases h'
    rfl
  | run h ih =>
    cases h' with
    | run h' => rw [ih h']
    | plain hc => exact absurd hc (by decide)
  | one h ih =>
    cases h' with
    | one h' => rw [ih h']
    | plain hc => exact absurd hc (by decide)
  | listed hcaret hr _ h ih =>
    cases h' with
    | listed _ hr' _ h' =>
      obtain ⟨rfl, rfl⟩ := hr.unique hr'
      rw [ih h']
    | unlisted => exact absurd rfl hcaret
    | plain hc => exact absurd hc (by decide)
  | unlisted hr _ h ih =>
    cases h' with
    | listed hcaret => exact absurd rfl hcaret
    | unlisted hr' _ h' =>
      obtain ⟨rfl, rfl⟩ := hr.unique hr'
      rw [ih h']
    | plain hc => exact absurd hc (by decide)
  | escaped h ih =>
    cases h' with
    | escaped h' => rw [ih h']
    | plain hc => exact absurd hc (by decide)
  | plain hc h ih =>
    cases h' with
    | plain _ h' => rw [ih h']
    | run | one | listed | unlisted | escaped => exact absurd hc (by decide)

/-- The server counts no topic but the key itself as one of the key: the key cannot be read, or a
part of it takes no character, or all its characters stand for themselves. -/
def OwnOnly (key : String) : Prop :=
  ∀ ts, Reads key.toList ts →
    (∃ t ∈ ts, ∀ c, ¬ t.Takes c) ∨ ∀ c ∈ key.toList, c ∉ ['*', '?', '[', '\\']

theorem not_matches_of_not_takes {ts : List Term} {t : Term} (ht : t ∈ ts)
    (hnone : ∀ c, ¬ t.Takes c) (cs : List Char) : ¬ Matches ts cs := by
  intro h
  have hsingle : t.repeats = false := by
    cases t with
    | run => exact absurd (by decide : 'a' ≠ '/') (hnone 'a')
    | char | one | set => rfl
  obtain ⟨us, vs, rfl⟩ := List.append_of_mem ht
  obtain ⟨_, v, _, _, hv⟩ := Glob.Spans.append_iff.1 h
  obtain ⟨c, _, _, hc, _⟩ := (Glob.Spans.cons_iff_of_single hsingle).1 hv
  exact hnone c hc

theorem eq_of_matches_of_reads {cs ds : List Char} {ts : List Term} (h : Reads cs ts)
    (hplain : ∀ c ∈ cs, c ∉ ['*', '?', '[', '\\']) (hm : Matches ts ds) : ds = cs := by
  induction h generalizing ds with
  | done => exact Glob.Spans.nil_iff.1 hm
  | plain _ _ ih =>
    obtain ⟨d, ds, rfl, hd, hm⟩ := (Glob.Spans.cons_iff_of_single rfl).1 hm
    rw [ih (fun c hc => hplain c (List.mem_cons_of_mem _ hc)) hm, show d = _ from hd]
  | run | one | listed | unlisted | escaped =>
    exact absurd (by decide) (hplain _ List.mem_cons_self)

theorem ReadsMember.length_lt {cs rest : List Char} {c : Char} (h : ReadsMember cs c rest) :
    rest.length < cs.length := by
  cases h with
  | plain | escaped =>
    simp only [List.length_cons]
    omega

theorem ReadsRanges.length_lt {cs rest : List Char} {ranges : List (Char × Char)}
    (h : ReadsRanges cs ranges rest) : rest.length < cs.length := by
  induction h with
  | close => exact Nat.lt_succ_self _
  | single hc _ ih =>
    have := hc.length_lt
    omega
  | range hlo hhi _ ih =>
    have := hlo.length_lt
    have := hhi.length_lt
    simp only [List.length_cons] at *
    omega

/-- A key whose parts all take some character has a topic that is no longer than the key. -/
theorem exists_matches_le {cs : List Char} {ts : List Term} (h : Reads cs ts)
    (hsome : ∀ t ∈ ts, ∃ c, t.Takes c) : ∃ ds, Matches ts ds ∧ ds.length ≤ cs.length := by
  induction h with
  | done => exact ⟨[], .done, Nat.le_refl 0⟩
  | run _ ih =>
    obtain ⟨ds, hds, hle⟩ := ih (List.forall_mem_cons.1 hsome).2
    exact ⟨ds, .skip rfl hds, Nat.le_succ_of_le hle⟩
  | one _ ih | escaped _ ih | plain _ _ ih =>
    obtain ⟨⟨c, hc⟩, hsome⟩ := List.forall_mem_cons.1 hsome
    obtain ⟨ds, hds, hle⟩ := ih hsome
    refine ⟨c :: ds, .take rfl hc hds, ?_⟩
    simp only [List.length_cons]
    omega
  | listed _ hr _ _ ih | unlisted hr _ _ ih =>
    obtain ⟨⟨c, hc⟩, hsome⟩ := List.forall_mem_cons.1 hsome
    obtain ⟨ds, hds, hle⟩ := ih hsome
    have := hr.length_lt
    refine ⟨c :: ds, .take rfl hc hds, ?_⟩
    simp only [List.length_cons]
    omega

/-- Where a character of the key does not stand for itself, the key has another topic as well. -/
theorem exists_matches_ne {cs : List Char} {ts : List Term} (h : Reads cs ts)
    (hsome : ∀ t ∈ ts, ∃ c, t.Takes c) (hspecial : ¬ ∀ c ∈ cs, c ∉ ['*', '?', '[', '\\']) :
    ∃ ds, Matches ts ds ∧ ds ≠ cs := by
  induction h with
  | done => exact absurd nofun hspecial
  | run h _ =>
    obtain ⟨ds, hds, _⟩ := exists_matches_le h (List.forall_mem_cons.1 hsome).2
    refine ⟨'a' :: ds, .more rfl (by decide : 'a' ≠ '/') (.skip rfl hds), fun heq => ?_⟩
    exact absurd (List.cons_eq_cons.1 heq).1 (by decide)
  | one h _ =>
    obtain ⟨ds, hds, _⟩ := exists_matches_le h (List.forall_mem_cons.1 hsome).2
    refine ⟨'a' :: ds, .take rfl (by decide : 'a' ≠ '/') hds, fun heq => ?_⟩
    exact absurd (List.cons_eq_cons.1 heq).1 (by decide)
  | listed _ hr _ h _ | unlisted hr _ h _ =>
    obtain ⟨⟨c, hc⟩, hsome⟩ := List.forall_mem_cons.1 hsome
    obtain ⟨ds, hds, hle⟩ := exists_matches_le h hsome
    have hlt := hr.length_lt
    refine ⟨c :: ds, .take rfl hc hds, fun heq => ?_⟩
    have hlength := congrArg List.length heq
    simp only [List.length_cons] at hlength
    omega
  | @escaped c _ _ h _ =>
    obtain ⟨ds, hds, hle⟩ := exists_matches_le h (List.forall_mem_cons.1 hsome).2
    refine ⟨c :: ds, .take rfl rfl hds, fun heq => ?_⟩
    have hlength := congrArg List.length heq
    simp only [List.length_cons] at hlength
    omega
  | @plain c _ _ hc _ ih =>
    obtain ⟨ds, hds, hne⟩ := ih (List.forall_mem_cons.1 hsome).2 fun hcs =>
      hspecial (List.forall_mem_cons.2 ⟨hc, hcs⟩)
    exact ⟨c :: ds, .take rfl rfl hds, fun heq => hne (List.cons_eq_cons.1 heq).2⟩

theorem ownOnly_iff {key : String} :
    OwnOnly key ↔ ∀ topic, Accepts key topic → topic = key := by
  constructor
  · rintro h topic ⟨ts, hts, hm⟩
    rcases h ts hts with ⟨t, ht, hnone⟩ | hplain
    · exact absurd hm (not_matches_of_not_takes ht hnone _)
    · exact String.toList_inj.1 (eq_of_matches_of_reads hts hplain hm)
  · intro h ts hts
    by_cases hsome : ∀ t ∈ ts, ∃ c, t.Takes c
    · refine .inr (Decidable.not_not.1 fun hspecial => ?_)
      obtain ⟨ds, hds, hne⟩ := exists_matches_ne hts hsome hspecial
      refine hne (String.ofList_injective ?_)
      rw [h (String.ofList ds) ⟨ts, hts, by rwa [String.toList_ofList]⟩, String.ofList_toList]
    · simp only [not_forall, not_exists] at hsome
      obtain ⟨t, ht, hnone⟩ := hsome
      exact .inl ⟨t, ht, hnone⟩

end TopicClient.ServerRule
