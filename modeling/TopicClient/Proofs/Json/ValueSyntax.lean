import TopicClient.Proofs.Json.ValueText

/-!
# Values that are passed over

`ValueSyntax` are the texts of values without a meaning. There is no bound on their nesting, none
on their numbers, and surrogates need not be paired. `skips_skipValue` says that exactly these texts
are passed over.
-/

namespace TopicClient.Json

inductive ScalarSyntax : List Char → Prop
  | null : ScalarSyntax ['n', 'u', 'l', 'l']
  | true : ScalarSyntax ['t', 'r', 'u', 'e']
  | false : ScalarSyntax ['f', 'a', 'l', 's', 'e']
  | number {t : List Char} {n : Numeral} (ht : NumeralText t n) : ScalarSyntax t
  | string {t : List Char} (ht : StringSyntax t) : ScalarSyntax ('"' :: (t ++ ['"']))

def MemberSyntax (inner : List Char → Prop) (m : List Char) : Prop :=
  ∃ t, MemberText (fun k (_ : Unit) => StringSyntax k) ((), t) m ∧ inner t

inductive CompoundSyntax (inner : List Char → Prop) : List Char → Prop
  | array {ts : List (List Char)} {u : List Char} (hu : Items ']' true ts u)
      (ht : ∀ t ∈ ts, inner t) : CompoundSyntax inner ('[' :: u)
  | object {ts : List (List Char)} {u : List Char} (hu : Items '\x7d' true ts u)
      (ht : ∀ t ∈ ts, MemberSyntax inner t) : CompoundSyntax inner ('\x7b' :: u)

/-- Values that stand less than so many levels deep in one another. -/
def NestedSyntax : ℕ → List Char → Prop
  | 0 => fun _ => False
  | n + 1 => fun t => ScalarSyntax t ∨ CompoundSyntax (NestedSyntax n) t

def ValueSyntax (t : List Char) : Prop := ∃ n, NestedSyntax n t

/-- What passes over a text leaves the rest of it. -/
abbrev Skipper := List Char → Except Failure (List Char)

structure Skips (item : Skipper) (L : List Char → Prop) : Prop where
  sound : ∀ {s r}, item s = .ok r → ∃ b t, Blanks b ∧ L t ∧ s = b ++ (t ++ r)
  complete : ∀ {b t r}, Blanks b → L t → Ends r → item (b ++ (t ++ r)) = .ok r
  begins : ∀ {t}, L t → Begins t

structure IsLoop (closing : Char) (item : Skipper) (loop : ℕ → Skipper) : Prop where
  closes : closing = ']' ∨ closing = '\x7d'
  zero : ∀ {s r}, loop 0 s ≠ .ok r
  close : ∀ {fuel b}, Blanks b → ∀ r, loop (fuel + 1) (b ++ closing :: r) = .ok r
  next : ∀ {fuel b}, Blanks b → ∀ s, loop (fuel + 1) (b ++ ',' :: s) = item s >>= loop fuel
  cases : ∀ {fuel s r}, loop (fuel + 1) s = .ok r →
    ∃ b, Blanks b ∧ (s = b ++ closing :: r ∨
      ∃ s', s = b ++ ',' :: s' ∧ item s' >>= loop fuel = .ok r)

section Loops

variable {closing : Char} {item : Skipper} {loop : ℕ → Skipper} {L : List Char → Prop}
  {fuel : ℕ} {s r u : List Char}

theorem isLoop_skipElements (item : Skipper) : IsLoop ']' item (skipElements item) where
  closes := .inl rfl
  zero := nofun
  close hb r := by
    rw [skipElements, afterSkippedElement, skipBlanks_append_cons hb rfl]
    rfl
  next hb s := by
    rw [skipElements, afterSkippedElement, skipBlanks_append_cons hb rfl]
    rfl
  cases {fuel s r} h := by
    obtain ⟨next, hnext, hrest⟩ := exists_of_bind_eq_ok h
    rw [afterSkippedElement] at hnext
    split at hnext
    · cases hnext
    · rename_i r' hs
      cases hnext
      cases hrest
      obtain ⟨b, hb, rfl⟩ := exists_blanks_of_skipBlanks_eq hs
      exact ⟨b, hb, .inl rfl⟩
    · rename_i r' hs
      cases hnext
      obtain ⟨b, hb, rfl⟩ := exists_blanks_of_skipBlanks_eq hs
      exact ⟨b, hb, .inr ⟨r', rfl, hrest⟩⟩
    · cases hnext

theorem isLoop_skipMembers (item : Skipper) :
    IsLoop '\x7d' (skipMember item) (skipMembers item) where
  closes := .inr rfl
  zero := nofun
  close hb r := by
    rw [skipMembers, afterSkippedMember, skipBlanks_append_cons hb rfl]
    rfl
  next hb s := by
    rw [skipMembers, afterSkippedMember, skipBlanks_append_cons hb rfl]
    rfl
  cases {fuel s r} h := by
    obtain ⟨next, hnext, hrest⟩ := exists_of_bind_eq_ok h
    rw [afterSkippedMember] at hnext
    split at hnext
    · cases hnext
    · rename_i r' hs
      cases hnext
      cases hrest
      obtain ⟨b, hb, rfl⟩ := exists_blanks_of_skipBlanks_eq hs
      exact ⟨b, hb, .inl rfl⟩
    · rename_i r' hs
      cases hnext
      obtain ⟨b, hb, rfl⟩ := exists_blanks_of_skipBlanks_eq hs
      exact ⟨b, hb, .inr ⟨r', rfl, hrest⟩⟩
    · cases hnext

theorem IsLoop.exists_items (hloop : IsLoop closing item loop) (hi : Skips item L)
    (h : loop fuel s = .ok r) :
    ∃ ts u, Items closing false ts u ∧ (∀ t ∈ ts, L t) ∧ s = u ++ r := by
  induction fuel generalizing s with
  | zero => exact absurd h hloop.zero
  | succ fuel ih =>
    obtain ⟨b, hb, rfl | ⟨s', rfl, hnext⟩⟩ := hloop.cases h
    · exact ⟨[], _, .close hb, nofun, by rw [List.append_assoc]; rfl⟩
    · obtain ⟨s₁, hs₁, hrest⟩ := exists_of_bind_eq_ok hnext
      obtain ⟨b', t, hb', ht, rfl⟩ := hi.sound hs₁
      obtain ⟨ts, u, hu, hts, rfl⟩ := ih hrest
      refine ⟨t :: ts, _, .item (.next hb hb') hu, List.forall_mem_cons.2 ⟨ht, hts⟩, ?_⟩
      simp only [List.append_assoc, List.cons_append]

theorem IsLoop.append (hloop : IsLoop closing item loop) (hi : Skips item L)
    {ts : List (List Char)} (hu : Items closing false ts u) (hts : ∀ t ∈ ts, L t)
    (hfuel : ts.length < fuel) (r : List Char) : loop fuel (u ++ r) = .ok r := by
  induction ts generalizing u fuel with
  | nil =>
    cases fuel with
    | zero => cases hfuel
    | succ fuel =>
      cases hu with
      | close hb =>
        rw [List.append_assoc, List.singleton_append]
        exact hloop.close hb r
  | cons t ts ih =>
    cases fuel with
    | zero => cases hfuel
    | succ fuel =>
      cases hu with
      | item hp hu =>
        cases hp with
        | next hb hb' =>
          obtain ⟨ht, hts⟩ := List.forall_mem_cons.1 hts
          have hitem := hi.complete hb' ht (hu.ends hloop.closes r)
          simp only [List.append_assoc, List.cons_append]
          rw [hloop.next hb, hitem, ok_bind]
          exact ih hu hts (Nat.lt_of_succ_lt_succ hfuel)

theorem skips_skipMember (hi : Skips item L) : Skips (skipMember item) (MemberSyntax L) where
  sound {s r} h := by
    rw [skipMember] at h
    split at h
    · cases h
    · rename_i s' hs
      obtain ⟨s₁, hs₁, h₁⟩ := exists_of_bind_eq_ok h
      obtain ⟨s₂, hs₂, h₂⟩ := exists_of_bind_eq_ok h₁
      obtain ⟨b, hb, rfl⟩ := exists_blanks_of_skipBlanks_eq hs
      obtain ⟨k, hk, rfl⟩ := skipString_eq_ok_iff.1 hs₁
      obtain ⟨b₁, hb₁, rfl⟩ := exists_blanks_of_readColon hs₂
      obtain ⟨b₂, t, hb₂, ht, rfl⟩ := hi.sound h₂
      refine ⟨b, _, hb, ⟨t, .mk hk hb₁ hb₂, ht⟩, ?_⟩
      simp only [List.append_assoc, List.cons_append]
    · cases h
  complete {b m r} hb hm hr := by
    obtain ⟨t, hm, ht⟩ := hm
    cases hm with
    | @mk _ k b₁ b₂ _ hk hb₁ hb₂ =>
      have hkey : skipString (k ++ '"' :: (b₁ ++ ':' :: (b₂ ++ (t ++ r)))) =
          .ok (b₁ ++ ':' :: (b₂ ++ (t ++ r))) := skipString_eq_ok_iff.2 ⟨k, hk, rfl⟩
      have hitem := hi.complete hb₂ ht hr
      simp only [List.append_assoc, List.cons_append]
      rw [skipMember, skipBlanks_append_cons hb rfl]
      simp only [hkey, readColon_append hb₁, ok_bind, hitem]
  begins hm := by
    obtain ⟨t, hm, _⟩ := hm
    cases hm
    exact ⟨_, _, rfl, by decide⟩

end Loops

section Values

variable {n fuel : ℕ} {s t r : List Char}

theorem ScalarSyntax.begins (h : ScalarSyntax t) : Begins t := by
  cases h with
  | null => exact ⟨_, _, rfl, by decide⟩
  | true => exact ⟨_, _, rfl, by decide⟩
  | false => exact ⟨_, _, rfl, by decide⟩
  | string => exact ⟨_, _, rfl, by decide⟩
  | number ht =>
    obtain ⟨c, t', rfl, hc⟩ := ht.exists_eq_cons
    exact begins_of_isDigit hc t'

theorem NestedSyntax.begins (h : NestedSyntax n t) : Begins t := by
  cases n with
  | zero => exact h.elim
  | succ n =>
    rcases h with h | h
    · exact h.begins
    · cases h with
      | array => exact ⟨_, _, rfl, by decide⟩
      | object => exact ⟨_, _, rfl, by decide⟩

theorem skipNested_append_of_blanks {b : List Char} (hb : Blanks b) (s : List Char) :
    skipNested fuel (b ++ s) = skipNested fuel s := by
  rw [skipNested, skipNested, skipBlanks_append hb]

theorem skipNested_array_close {b : List Char} (hb : Blanks b) (r : List Char) :
    skipNested fuel ('[' :: (b ++ ']' :: r)) = .ok r := by
  rw [skipNested, skipBlanks_cons rfl]
  simp only [skipBlanks_append_cons hb (c := ']') rfl]

theorem skipNested_object_close {b : List Char} (hb : Blanks b) (r : List Char) :
    skipNested fuel ('\x7b' :: (b ++ '\x7d' :: r)) = .ok r := by
  rw [skipNested, skipBlanks_cons rfl]
  simp only [skipBlanks_append_cons hb (c := '\x7d') rfl]

theorem skipNested_array {c : Char} (hs : skipBlanks s = c :: r) (hc : c ≠ ']') :
    skipNested (fuel + 1) ('[' :: s) =
      skipNested fuel (c :: r) >>= skipElements (skipNested fuel) ((c :: r).length + 1) := by
  rw [skipNested, skipBlanks_cons rfl]
  simp only [hs]
  split
  · rename_i h
    cases h
  · rename_i h
    exact absurd (List.cons.inj h).1 hc
  · rename_i h _ _
    cases h
  · rename_i h _ _
    cases h
    rfl

theorem skipNested_object {c : Char} (hs : skipBlanks s = c :: r) (hc : c ≠ '\x7d') :
    skipNested (fuel + 1) ('\x7b' :: s) =
      skipMember (skipNested fuel) (c :: r) >>=
        skipMembers (skipNested fuel) ((c :: r).length + 1) := by
  rw [skipNested, skipBlanks_cons rfl]
  simp only [hs]
  split
  · rename_i h
    cases h
  · rename_i h
    exact absurd (List.cons.inj h).1 hc
  · rename_i h _ _
    cases h
  · rename_i h _ _
    cases h
    rfl

theorem skipNested_of_number {c : Char} (hc : c = '-' ∨ isDigit c = true) (s : List Char) :
    skipNested fuel (c :: s) = do
      let (_, r) ← Numeral.read .invalidNumber (c :: s)
      return r := by
  have hskip := (begins_of_isDigit hc s).skipBlanks_append []
  rw [List.append_nil] at hskip
  rw [skipNested, hskip]
  split
  · rename_i h
    cases h
  all_goals
    rename_i h
    obtain ⟨hcd, hrest⟩ := List.cons.inj h
  · exact absurd hcd (ne_of_number hc rfl (by decide))
  · exact absurd hcd (ne_of_number hc rfl (by decide))
  · exact absurd hcd (ne_of_number hc rfl (by decide))
  · exact absurd hcd (ne_of_number hc rfl (by decide))
  · exact absurd hcd (ne_of_number hc rfl (by decide))
  · exact absurd hcd (ne_of_number hc rfl (by decide))
  · subst hcd hrest
    rw [if_pos hc]

theorem skipNested_append_of_scalar (ht : ScalarSyntax t) (hr : Ends r) :
    skipNested fuel (t ++ r) = .ok r := by
  cases ht with
  | null =>
    simp only [List.cons_append, List.nil_append]
    rw [skipNested, skipBlanks_cons rfl]
    rfl
  | true =>
    simp only [List.cons_append, List.nil_append]
    rw [skipNested, skipBlanks_cons rfl]
    rfl
  | false =>
    simp only [List.cons_append, List.nil_append]
    rw [skipNested, skipBlanks_cons rfl]
    rfl
  | @string t ht =>
    rw [List.cons_append, List.append_assoc, List.singleton_append, skipNested, skipBlanks_cons rfl]
    exact skipString_eq_ok_iff.2 ⟨t, ht, rfl⟩
  | @number t numeral ht =>
    have hread : Numeral.read .invalidNumber (t ++ r) = .ok (numeral, r) :=
      Numeral.read_append ht hr
    obtain ⟨c, t', rfl, hc⟩ := ht.exists_eq_cons
    rw [List.cons_append] at hread ⊢
    rw [skipNested_of_number hc, hread]
    rfl

theorem IsLoop.append_first {closing : Char} {item : Skipper} {loop : ℕ → Skipper}
    {L : List Char → Prop} (hloop : IsLoop closing item loop) (hi : Skips item L)
    {ts : List (List Char)} {u : List Char} (hL : L t) (hu : Items closing false ts u)
    (hts : ∀ t ∈ ts, L t) (r : List Char) :
    item (t ++ (u ++ r)) >>= loop ((t ++ (u ++ r)).length + 1) = .ok r := by
  have hlt := hu.length_lt_append (fun t ht => (hi.begins (hts t ht)).ne_nil) r
  have hle : (u ++ r).length ≤ (t ++ (u ++ r)).length := by
    simp only [List.length_append]
    omega
  have hitem := hi.complete blanks_nil hL (hu.ends hloop.closes r)
  rw [List.nil_append] at hitem
  rw [hitem, ok_bind]
  exact hloop.append hi hu hts (by omega) r

theorem skipNested_append_of_compound
    (hi : ∀ m, fuel = m + 1 → Skips (skipNested m) (NestedSyntax fuel))
    (ht : CompoundSyntax (NestedSyntax fuel) t) (r : List Char) :
    skipNested fuel (t ++ r) = .ok r := by
  cases ht with
  | @array ts u hu ht =>
    cases hu with
    | close hb =>
      rw [List.cons_append, List.append_assoc, List.singleton_append]
      exact skipNested_array_close hb r
    | @item _ p t u ts hp hu =>
      cases hp with
      | first hb =>
        obtain ⟨hL, hts⟩ := List.forall_mem_cons.1 ht
        cases fuel with
        | zero => exact hL.elim
        | succ m =>
          have hfirst := (isLoop_skipElements _).append_first (hi m rfl) hL hu hts r
          have hskip := hL.begins.skipBlanks_append (u ++ r)
          obtain ⟨c, t', rfl, _, _, hc⟩ := hL.begins
          rw [List.cons_append, List.append_assoc, List.append_assoc,
            skipNested_array ((skipBlanks_append hb _).trans hskip) hc]
          exact hfirst
  | @object ts u hu ht =>
    cases hu with
    | close hb =>
      rw [List.cons_append, List.append_assoc, List.singleton_append]
      exact skipNested_object_close hb r
    | @item _ p m u ts hp hu =>
      cases hp with
      | first hb =>
        obtain ⟨hm, hts⟩ := List.forall_mem_cons.1 ht
        cases fuel with
        | zero =>
          obtain ⟨t, _, hL⟩ := hm
          exact hL.elim
        | succ m =>
          have hfirst := (isLoop_skipMembers _).append_first (skips_skipMember (hi m rfl)) hm hu
            hts r
          obtain ⟨t, hm, _⟩ := hm
          cases hm with
          | mk =>
            have hskip := skipBlanks_append_cons hb (c := '"') rfl
            rw [List.cons_append, List.append_assoc, List.append_assoc]
            exact (skipNested_object (hskip _) (by decide)).trans hfirst

theorem IsLoop.exists_items_of_first {closing : Char} {item : Skipper} {loop : ℕ → Skipper}
    {L : List Char → Prop} (hloop : IsLoop closing item loop) (hi : Skips item L)
    {b : List Char} (hb : Blanks b) (h : item s >>= loop fuel = .ok r) :
    ∃ ts u, Items closing true ts u ∧ (∀ t ∈ ts, L t) ∧ b ++ s = u ++ r := by
  obtain ⟨s₁, hs₁, hrest⟩ := exists_of_bind_eq_ok h
  obtain ⟨b', t, hb', ht, rfl⟩ := hi.sound hs₁
  obtain ⟨ts, u, hu, hts, rfl⟩ := hloop.exists_items hi hrest
  refine ⟨t :: ts, _, .item (.first (hb.append hb')) hu, List.forall_mem_cons.2 ⟨ht, hts⟩, ?_⟩
  simp only [List.append_assoc]

theorem exists_text_of_skipNested
    (hi : ∀ m, fuel = m + 1 → Skips (skipNested m) (NestedSyntax fuel))
    (h : skipNested fuel s = .ok r) :
    ∃ b t, Blanks b ∧ NestedSyntax (fuel + 1) t ∧ s = b ++ (t ++ r) := by
  have hscalar : ∀ {t u : List Char}, ScalarSyntax t → skipBlanks s = t ++ u →
      ∃ b t, Blanks b ∧ NestedSyntax (fuel + 1) t ∧ s = b ++ (t ++ u) := by
    intro t u ht hs
    obtain ⟨b, hb, rfl⟩ := exists_blanks_of_skipBlanks_eq hs
    exact ⟨b, t, hb, .inl ht, rfl⟩
  rw [skipNested] at h
  split at h
  · cases h
  · rename_i s' hs
    rw [eq_append_of_readWord_eq_ok h] at hs
    exact hscalar .null hs
  · rename_i s' hs
    rw [eq_append_of_readWord_eq_ok h] at hs
    exact hscalar .true hs
  · rename_i s' hs
    rw [eq_append_of_readWord_eq_ok h] at hs
    exact hscalar .false hs
  · rename_i s' hs
    obtain ⟨t, ht, rfl⟩ := skipString_eq_ok_iff.1 h
    refine hscalar (.string ht) ?_
    rw [hs, List.cons_append, List.append_assoc, List.singleton_append]
  · rename_i s' hs
    obtain ⟨b, hb, rfl⟩ := exists_blanks_of_skipBlanks_eq hs
    obtain ⟨b', hb', hs'⟩ := exists_blanks_append_skipBlanks s'
    have harray : ∃ ts u, Items ']' true ts u ∧ (∀ t ∈ ts, NestedSyntax fuel t) ∧ s' = u ++ r := by
      rw [hs']
      split at h
      · cases h
      · rename_i hclose
        cases h
        rw [hclose]
        exact ⟨[], _, .close hb', nofun, by rw [List.append_assoc]; rfl⟩
      · cases h
      · rename_i m _ _
        exact (isLoop_skipElements _).exists_items_of_first (hi m rfl) hb' h
    obtain ⟨ts, u, hu, hts, rfl⟩ := harray
    exact ⟨b, _, hb, .inr (.array hu hts), rfl⟩
  · rename_i s' hs
    obtain ⟨b, hb, rfl⟩ := exists_blanks_of_skipBlanks_eq hs
    obtain ⟨b', hb', hs'⟩ := exists_blanks_append_skipBlanks s'
    have hobject : ∃ ts u, Items '\x7d' true ts u ∧
        (∀ t ∈ ts, MemberSyntax (NestedSyntax fuel) t) ∧ s' = u ++ r := by
      rw [hs']
      split at h
      · cases h
      · rename_i hclose
        cases h
        rw [hclose]
        exact ⟨[], _, .close hb', nofun, by rw [List.append_assoc]; rfl⟩
      · cases h
      · rename_i m _ _
        exact (isLoop_skipMembers _).exists_items_of_first (skips_skipMember (hi m rfl)) hb' h
    obtain ⟨ts, u, hu, hts, rfl⟩ := hobject
    exact ⟨b, _, hb, .inr (.object hu hts), rfl⟩
  · rename_i c s' _ _ _ _ _ _ hs
    split_ifs at h
    obtain ⟨⟨numeral, r'⟩, hread, heq⟩ := exists_of_bind_eq_ok h
    cases heq
    obtain ⟨t, ht, hcs⟩ := Numeral.exists_text_of_read hread
    exact hscalar (.number ht) (hs.trans hcs)

theorem skips_skipNested (fuel : ℕ) : Skips (skipNested fuel) (NestedSyntax (fuel + 1)) := by
  induction fuel with
  | zero =>
    have hi : ∀ m, 0 = m + 1 → Skips (skipNested m) (NestedSyntax 0) := by
      intro m hm
      cases hm
    refine ⟨exists_text_of_skipNested hi, ?_, NestedSyntax.begins⟩
    intro b t r hb ht hr
    rw [skipNested_append_of_blanks hb]
    rcases ht with ht | ht
    · exact skipNested_append_of_scalar ht hr
    · exact skipNested_append_of_compound hi ht r
  | succ fuel ih =>
    have hi : ∀ m, fuel + 1 = m + 1 → Skips (skipNested m) (NestedSyntax (fuel + 1)) := by
      intro m hm
      obtain rfl := Nat.succ.inj hm
      exact ih
    refine ⟨exists_text_of_skipNested hi, ?_, NestedSyntax.begins⟩
    intro b t r hb ht hr
    rw [skipNested_append_of_blanks hb]
    rcases ht with ht | ht
    · exact skipNested_append_of_scalar ht hr
    · exact skipNested_append_of_compound hi ht r

theorem MemberSyntax.imp {L L' : List Char → Prop} {m : List Char}
    (h : ∀ t, t.length < m.length → L t → L' t) (hm : MemberSyntax L m) : MemberSyntax L' m := by
  obtain ⟨t, hm, ht⟩ := hm
  refine ⟨t, hm, h t ?_ ht⟩
  cases hm
  simp only [List.length_cons, List.length_append]
  omega

theorem Items.length_lt_of_mem {closing : Char} {first : Bool} {ts : List (List Char)}
    {u : List Char} (hu : Items closing first ts u) (ht : t ∈ ts) : t.length < u.length := by
  induction hu with
  | close => cases ht
  | @item first p t' s ts hp hs ih =>
    simp only [List.length_append]
    rcases List.mem_cons.1 ht with rfl | ht
    · cases hs with
      | close => simp only [List.length_append, List.length_cons]; omega
      | item hp' _ =>
        cases hp' with
        | next => simp only [List.length_append, List.length_cons]; omega
    · have := ih ht
      omega

/-- The items of a compound are shorter than the compound. -/
theorem CompoundSyntax.imp {L L' : List Char → Prop}
    (h : ∀ u, u.length + 1 < t.length → L u → L' u) (ht : CompoundSyntax L t) :
    CompoundSyntax L' t := by
  cases ht with
  | array hu hts =>
    refine .array hu fun u hmem => h u ?_ (hts u hmem)
    have hlt := hu.length_lt_of_mem hmem
    rw [List.length_cons]
    omega
  | object hu hts =>
    refine .object hu fun m hmem => (hts m hmem).imp fun u hlt => h u ?_
    have hlt' := hu.length_lt_of_mem hmem
    rw [List.length_cons]
    omega

/-- A text nests no deeper than it is long. -/
theorem nestedSyntax_of_valueSyntax (ht : ValueSyntax t) {m : ℕ} (hm : t.length ≤ m) :
    NestedSyntax m t := by
  obtain ⟨n, ht⟩ := ht
  induction n generalizing t m with
  | zero => exact ht.elim
  | succ n ih =>
    have hpos : 0 < t.length := List.length_pos_iff.2 (NestedSyntax.begins ht).ne_nil
    cases m with
    | zero => omega
    | succ m =>
      rcases ht with ht | ht
      · exact .inl ht
      · exact .inr (ht.imp fun u hu h => ih (by omega) h)

theorem valueSyntax_array {ts : List (List Char)} {u : List Char} (hu : Items ']' true ts u)
    (hts : ∀ t ∈ ts, ValueSyntax t) : ValueSyntax ('[' :: u) := by
  refine ⟨u.length + 1, .inr (.array hu fun t ht => ?_)⟩
  exact nestedSyntax_of_valueSyntax (hts t ht) (hu.length_lt_of_mem ht).le

theorem valueSyntax_object {ts : List (List Char)} {u : List Char} (hu : Items '\x7d' true ts u)
    (hts : ∀ t ∈ ts, MemberSyntax ValueSyntax t) : ValueSyntax ('\x7b' :: u) := by
  refine ⟨u.length + 1, .inr (.object hu fun m hm => (hts m hm).imp fun t hlt ht => ?_)⟩
  exact nestedSyntax_of_valueSyntax ht (hlt.trans (hu.length_lt_of_mem hm)).le

theorem skipValue_append {b : List Char} (hb : Blanks b) (ht : ValueSyntax t) (hr : Ends r) :
    skipValue (b ++ (t ++ r)) = .ok r := by
  refine (skips_skipNested _).complete hb (nestedSyntax_of_valueSyntax ht ?_) hr
  simp only [List.length_append]
  omega

/-- A value is passed over, whatever its nesting, and nothing else is. -/
theorem skips_skipValue : Skips skipValue ValueSyntax where
  sound h := by
    obtain ⟨b, t, hb, ht, hs⟩ := (skips_skipNested _).sound h
    exact ⟨b, t, hb, ⟨_, ht⟩, hs⟩
  complete := skipValue_append
  begins ht := by
    obtain ⟨n, ht⟩ := ht
    exact ht.begins

end Values

end TopicClient.Json
