import TopicClient.Proofs.Glob.Encoding
import TopicClient.Proofs.Url.Reading

/-!
# Authorities

An authority ends before the first slash, and is read in the same way whatever comes from there on.
It does not end in a blank.
-/

namespace TopicClient.Url

section Authority

variable {s : Scheme} {after : List Char}

/-- The text of an authority ends before a slash, a query or a fragment. -/
abbrev Within (s : Scheme) (auth : List Char) : Prop := ∀ c ∈ auth, endsAuthority s c = false

abbrev Outside (s : Scheme) (after : List Char) : Prop := ∀ c ∈ after.head?, endsAuthority s c = true

theorem spanHost_append {auth : List Char} (h : Within s auth) (ha : Outside s after)
    (bracketed : Bool) :
    spanHost s bracketed (auth ++ after) =
      ((spanHost s bracketed auth).1, (spanHost s bracketed auth).2 ++ after) := by
  induction auth generalizing bracketed with
  | nil =>
    cases after with
    | nil => rfl
    | cons c after =>
      have hc : endsAuthority s c = true := ha c rfl
      simp [spanHost, hc]
  | cons c auth ih =>
    obtain ⟨_, hauth⟩ := List.forall_mem_cons.1 h
    rw [List.cons_append, spanHost, spanHost]
    split_ifs
    · rfl
    · simp only [ih hauth]

theorem endsAuthority_eq_false_of_isEdge {c : Char} (h : isEdge c = true) :
    endsAuthority s c = false := by
  rw [← Bool.not_eq_true]
  intro hends
  simp only [endsAuthority, isSlash, Bool.or_eq_true, Bool.and_eq_true, decide_eq_true_eq] at hends
  rcases hends with ((rfl | ⟨_, rfl⟩) | rfl) | rfl <;> cases h

theorem isSlash_eq_false_of_isEdge {c : Char} (h : isEdge c = true) : isSlash s c = false := by
  have hends := endsAuthority_eq_false_of_isEdge (s := s) h
  rw [endsAuthority, Bool.or_assoc, Bool.or_eq_false_iff] at hends
  exact hends.1

theorem isDigit_eq_false_of_endsAuthority {c : Char} (h : endsAuthority s c = true) :
    c.isDigit = false := by
  simp only [endsAuthority, isSlash, Bool.or_eq_true, Bool.and_eq_true, decide_eq_true_eq] at h
  rcases h with ((rfl | ⟨_, rfl⟩) | rfl) | rfl <;> decide

theorem readPort_append {digits : List Char} (h : Within s digits) (ha : Outside s after) :
    readPort s (digits ++ after) = (readPort s digits).map fun p => (p.1, p.2 ++ after) := by
  obtain ⟨x, r, rfl, hsplits⟩ := exists_splits Char.isDigit digits
  cases r with
  | nil =>
    have hlonger : Splits Char.isDigit x after :=
      ⟨hsplits.all, fun c hc => isDigit_eq_false_of_endsAuthority (ha c hc)⟩
    have hends : (after.head?.all fun c => c = '\\' || endsAuthority s c) = true := by
      cases hc : after.head? with
      | none => rfl
      | some c => simp [ha c hc]
    rw [readPort, readPort, hsplits.span_eq, List.append_nil, hlonger.span_eq]
    simp only [hends, List.head?_nil, Option.all_none, if_true]
    split_ifs <;> rfl
  | cons d r =>
    have hhead : (d :: r ++ after).head? = (d :: r).head? := rfl
    rw [readPort, readPort, hsplits.span_eq, List.append_assoc,
      (hsplits.append (List.cons_ne_nil d r) after).span_eq]
    simp only [hhead]
    split_ifs <;> rfl

theorem readOptionalPort_append {rest : List Char} (h : Within s rest) (ha : Outside s after) :
    readOptionalPort s (rest ++ after) =
      (readOptionalPort s rest).map fun p => (p.1, p.2 ++ after) := by
  cases rest with
  | nil =>
    cases after with
    | nil => rfl
    | cons c after =>
      have hc : c ≠ ':' := by
        rintro rfl
        have hcolon := ha ':' rfl
        simp [endsAuthority, isSlash] at hcolon
      rw [List.nil_append]
      unfold readOptionalPort
      split
      · rename_i heq
        exact absurd (List.cons_eq_cons.1 heq).1 hc
      · rfl
  | cons c rest =>
    by_cases hc : c = ':'
    · subst hc
      exact readPort_append (List.forall_mem_cons.1 h).2 ha
    · have hother : ∀ r, readOptionalPort s (c :: r) = .ok (none, c :: r) := by
        intro r
        unfold readOptionalPort
        split
        · rename_i heq
          exact absurd (List.cons_eq_cons.1 heq).1 hc
        · rfl
      rw [List.cons_append, hother, hother]
      rfl

theorem spanHost_eq (bracketed : Bool) (cs : List Char) :
    (spanHost s bracketed cs).1 ++ (spanHost s bracketed cs).2 = cs := by
  induction cs generalizing bracketed with
  | nil => rfl
  | cons c cs ih =>
    rw [spanHost]
    split_ifs
    · rfl
    · simp only [List.cons_append, ih]

theorem within_spanHost {cs : List Char} (h : Within s cs) (bracketed : Bool) :
    Within s (spanHost s bracketed cs).2 := by
  intro c hc
  apply h
  rw [← spanHost_eq bracketed cs]
  exact List.mem_append_right _ hc

theorem readHostPort_append (hs : s.isSpecial = true) (account : List Char) {cs : List Char}
    (h : Within s cs) (ha : Outside s after) :
    readHostPort s account (cs ++ after) =
      (readHostPort s account cs).map fun p => (p.1, p.2 ++ after) := by
  rw [readHostPort, readHostPort, spanHost_append h ha]
  simp only [hs, if_true, true_or, and_true]
  split_ifs
  · rfl
  · cases readSpecialHost (spanHost s false cs).1 with
    | error e => rfl
    | ok host =>
      simp only [readOptionalPort_append (within_spanHost h false) ha]
      cases readOptionalPort s (spanHost s false cs).2 <;> rfl

theorem splitAccount_eq (auth : List Char) :
    splitAccount auth = (none, auth) ∨
      ∃ account host, splitAccount auth = (some account, host) ∧ auth = account ++ '@' :: host := by
  rw [splitAccount]
  cases hspan : auth.reverse.span (fun c => decide (c ≠ '@')) with
  | mk host sign =>
    obtain ⟨heq, hsplits⟩ := splits_of_span hspan
    cases sign with
    | nil => exact .inl rfl
    | cons c account =>
      obtain rfl : c = '@' := by simpa using hsplits.stops c rfl
      refine .inr ⟨account.reverse, host.reverse, rfl, ?_⟩
      have hauth := congrArg List.reverse heq
      simpa using hauth

theorem within_splitAccount {auth : List Char} (h : Within s auth) :
    Within s (splitAccount auth).2 := by
  rcases splitAccount_eq auth with heq | ⟨account, host, heq, rfl⟩
  · rw [heq]
    exact h
  · rw [heq]
    exact fun c hc => h c (List.mem_append_right _ (List.mem_cons_of_mem _ hc))

theorem readHostPort_of_outside (hs : s.isSpecial = true) (account : List Char)
    (ha : Outside s after) : readHostPort s account after = .error .emptyHost := by
  have hspan : spanHost s false after = ([], after) := by
    cases after with
    | nil => rfl
    | cons c after =>
      have hc : endsAuthority s c = true := ha c rfl
      rw [spanHost, hc, Bool.true_or, if_pos rfl]
  rw [readHostPort, hspan]
  simp only [List.isEmpty_nil, hs, true_or, and_self, if_true]

theorem readAuthority_eq (hs : s.isSpecial = true) {auth : List Char}
    (h : Within s auth) (ha : Outside s after) :
    readAuthority s (auth ++ after) =
      readHostPort s ((splitAccount auth).1.getD []) ((splitAccount auth).2 ++ after) := by
  have hsplits : Splits (fun c => !endsAuthority s c) auth after :=
    ⟨fun c hc => by rw [h c hc]; rfl, fun c hc => by rw [ha c hc]; rfl⟩
  rw [readAuthority, hsplits.span_eq]
  simp only
  split_ifs with hthrow
  · rw [hthrow.1, List.isEmpty_iff.1 hthrow.2.1]
    exact (readHostPort_of_outside hs _ ha).symm
  · rfl

theorem readAuthority_eq_readHostPort (hs : s.isSpecial = true) {auth : List Char}
    (h : Within s auth) :
    readAuthority s auth =
      readHostPort s ((splitAccount auth).1.getD []) (splitAccount auth).2 := by
  have hnil : Outside s [] := nofun
  have halone := readAuthority_eq hs h hnil
  rwa [List.append_nil, List.append_nil] at halone

/-- An authority is read up to the path, whatever comes then. -/
theorem readAuthority_append (hs : s.isSpecial = true) {auth : List Char}
    (h : Within s auth) (ha : Outside s after) :
    readAuthority s (auth ++ after) =
      (readAuthority s auth).map fun p => (p.1, p.2 ++ after) := by
  rw [readAuthority_eq hs h ha, readAuthority_eq_readHostPort hs h,
    readHostPort_append hs _ (within_splitAccount h) ha]

end Authority

/-! ## What is left of an authority -/

section Success

variable {s : Scheme} {cs rest : List Char}

theorem readPort_eq_ok {port : Option Nat} (hs : s.isSpecial = true) (h : Within s cs)
    (hok : readPort s cs = .ok (port, rest)) : rest = [] ∧ ∀ c ∈ cs, c.isDigit = true := by
  obtain ⟨digits, r, rfl, hsplits⟩ := exists_splits Char.isDigit cs
  rw [readPort, hsplits.span_eq] at hok
  simp only at hok
  by_cases hlarge : 65535 < digits.foldl (fun n c => 10 * n + (c.toNat - 48)) 0
  · rw [if_pos hlarge] at hok
    cases hok
  · by_cases hends : (r.head?.all fun c => c = '\\' || endsAuthority s c) = true
    · rw [if_neg hlarge, if_pos hends] at hok
      obtain ⟨-, rfl⟩ := Prod.mk.inj (Except.ok.inj hok)
      cases r with
      | nil =>
        rw [List.append_nil]
        exact ⟨rfl, hsplits.all⟩
      | cons c r =>
        exfalso
        have hc := h c (List.mem_append_right _ List.mem_cons_self)
        simp only [List.head?_cons, Option.all_some, hc, Bool.or_false, decide_eq_true_eq] at hends
        subst hends
        simp [endsAuthority, isSlash, hs] at hc
    · rw [if_neg hlarge, if_neg hends] at hok
      cases hok

theorem readOptionalPort_eq_ok {port : Option Nat} (hs : s.isSpecial = true) (h : Within s cs)
    (hcolon : ∀ c ∈ cs.head?, c = ':') (hok : readOptionalPort s cs = .ok (port, rest)) :
    rest = [] ∧ ∀ c ∈ cs, isEdge c = false := by
  cases cs with
  | nil =>
    cases hok
    exact ⟨rfl, nofun⟩
  | cons c cs =>
    obtain rfl : c = ':' := hcolon c rfl
    obtain ⟨hrest, hdigits⟩ := readPort_eq_ok hs (List.forall_mem_cons.1 h).2 hok
    refine ⟨hrest, List.forall_mem_cons.2 ⟨rfl, fun d hd => ?_⟩⟩
    exact isEdge_eq_false_of_isAlphanum (by rw [Char.isAlphanum, hdigits d hd, Bool.or_true])

theorem head?_spanHost (h : Within s cs) (bracketed : Bool) :
    ∀ c ∈ (spanHost s bracketed cs).2.head?, c = ':' := by
  induction cs generalizing bracketed with
  | nil => exact nofun
  | cons d cs ih =>
    obtain ⟨hd, hcs⟩ := List.forall_mem_cons.1 h
    rw [spanHost, hd, Bool.false_or]
    split_ifs with hcolon
    · intro c hc
      obtain rfl := Option.some.inj hc
      simp only [Bool.and_eq_true, decide_eq_true_eq] at hcolon
      exact hcolon.1
    · exact ih hcs _

/-- Nothing is left of an authority, and it is a host with a port. -/
theorem readHostPort_eq_ok {account : List Char} {a : Authority} (hs : s.isSpecial = true)
    (h : Within s cs) (hok : readHostPort s account cs = .ok (a, rest)) :
    rest = [] ∧ readSpecialHost (spanHost s false cs).1 = .ok a.host ∧
      ∀ c ∈ (spanHost s false cs).2, isEdge c = false := by
  rw [readHostPort] at hok
  simp only [hs, if_true, true_or, and_true] at hok
  split_ifs at hok
  cases hhost : readSpecialHost (spanHost s false cs).1 with
  | error e =>
    rw [hhost] at hok
    cases hok
  | ok host =>
    simp only [hhost] at hok
    cases hport : readOptionalPort s (spanHost s false cs).2 with
    | error e =>
      rw [hport] at hok
      cases hok
    | ok port =>
      rw [hport] at hok
      cases hok
      obtain ⟨hnil, hplain⟩ := readOptionalPort_eq_ok hs (within_spanHost h false)
        (head?_spanHost h false) hport
      exact ⟨hnil, rfl, hplain⟩

theorem rest_of_readAuthority {auth : List Char} {a : Authority} (hs : s.isSpecial = true)
    (h : Within s auth) (hok : readAuthority s auth = .ok (a, rest)) : rest = [] := by
  rw [readAuthority_eq_readHostPort hs h] at hok
  exact (readHostPort_eq_ok hs (within_splitAccount h) hok).1

end Success

/-! ## Blanks at the end -/

section Blanks

variable {c : Char}

theorem hexDigit?_of_isEdge (hc : isEdge c = true) : hexDigit? c = none := by
  have hnat := toNat_of_isEdge hc
  have hnot : ∀ d e : Char, 32 < d.toNat → ¬ (d ≤ c ∧ c ≤ e) := by
    intro d e hd hle
    have hlow : d.toNat ≤ c.toNat := hle.1
    omega
  rw [hexDigit?, if_neg (hnot _ _ (by decide)), if_neg (hnot _ _ (by decide)),
    if_neg (hnot _ _ (by decide))]

theorem percentDecode_append (cs : List Char) (hc : isEdge c = true) :
    percentDecode (cs ++ [c]) = percentDecode cs ++ [UInt8.ofNat c.toNat] := by
  have hnat := toNat_of_isEdge hc
  have hbytes : String.utf8EncodeChar c = [UInt8.ofNat c.toNat] := Glob.bytes_of_ascii (by omega)
  have halone : percentDecode [c] = [UInt8.ofNat c.toNat] := by
    rw [percentDecode, hbytes, percentDecode, List.append_nil]
    intro a b r _ hr
    cases hr
  induction cs using percentDecode.induct with
  | case1 => exact halone
  | case2 a b r x y hb ha ih =>
    simp only [List.cons_append, percentDecode, ha, hb, ih]
  | case3 a b r hnone ih =>
    have hstep : ∀ r', percentDecode ('%' :: a :: b :: r') = 37 :: percentDecode (a :: b :: r') := by
      intro r'
      rw [percentDecode]
      split
      · rename_i x y ha hb
        exact absurd hb (hnone x y ha)
      · rfl
    rw [List.cons_append, List.cons_append, List.cons_append, hstep, hstep, List.cons_append, ← ih]
    rfl
  | case4 d r hother ih =>
    have hlonger : percentDecode (d :: (r ++ [c])) =
        String.utf8EncodeChar d ++ percentDecode (r ++ [c]) := by
      by_cases hsign : d = '%' ∧ ∃ a, r = [a]
      · obtain ⟨rfl, a, rfl⟩ := hsign
        rw [List.singleton_append, percentDecode, hexDigit?_of_isEdge hc]
        split
        · rename_i hb
          cases hb
        · rfl
      · refine percentDecode.eq_3 d (r ++ [c]) ?_
        rintro a b r' rfl heq
        rcases r with _ | ⟨x, _ | ⟨y, r⟩⟩
        · cases heq
        · exact hsign ⟨rfl, x, rfl⟩
        · exact hother x y r rfl rfl
    rw [List.cons_append, hlonger, ih, percentDecode, List.append_assoc]
    exact hother

theorem isIgnored_eq_false_of_isEdge (hc : isEdge c = true) : Domain.isIgnored c = false := by
  have hnat := toNat_of_isEdge hc
  rw [← Bool.not_eq_true]
  intro hignored
  simp only [Domain.isIgnored, Bool.or_eq_true, Bool.and_eq_true, decide_eq_true_eq,
    List.contains_eq_mem, List.mem_cons, List.not_mem_nil, or_false] at hignored
  omega

theorem plainForm_of_isEdge (hc : isEdge c = true) : Domain.plainForm c = c := by
  have hnat := toNat_of_isEdge hc
  have htable : ∀ r ∈ Domain.asciiForms, 128 ≤ r.1 := by decide +kernel
  have hnone : (Domain.asciiForms.find? fun r => r.1 ≤ c.toNat && c.toNat ≤ r.2.1) = none := by
    rw [List.find?_eq_none]
    intro r hr
    have hlow := htable r hr
    simp only [Bool.and_eq_true, decide_eq_true_eq, not_and]
    omega
  rw [Domain.plainForm, hnone]

theorem toAscii?_of_isEdge (bytes : List UInt8) (hc : isEdge c = true) :
    Domain.toAscii? (bytes ++ [UInt8.ofNat c.toNat]) = none := by
  have hnat := toNat_of_isEdge hc
  unfold Domain.toAscii?
  cases htext : String.fromUTF8? ⟨(bytes ++ [UInt8.ofNat c.toNat]).toArray⟩ with
  | none => rfl
  | some text =>
    have hbyte : (UInt8.ofNat c.toNat).toNat = c.toNat := Glob.toNat_byte (by omega)
    have hencode : Glob.encode text.toList = bytes ++ [UInt8.ofNat c.toNat] := by
      rw [String.fromUTF8?] at htext
      split_ifs at htext with hvalid
      obtain rfl := Option.some.inj htext
      rw [← Glob.toList_toUTF8, ByteArray.toList, Glob.toList_loop_eq]
      rfl
    have hbegins : ¬ Glob.Continues (UInt8.ofNat c.toNat) := by
      rw [Glob.Continues, hbyte]
      omega
    obtain ⟨x, d, y, q, hcs, hd, -, -⟩ := Glob.exists_char_of_not_continues hbegins hencode
    have hascii : d.toNat < 128 := by
      by_contra hlarge
      have hle := Glob.le_of_mem_bytes (by omega) (hd ▸ List.mem_cons_self)
      omega
    have hnum : (UInt8.ofNat d.toNat).toNat = c.toNat := by
      rw [Glob.bytes_of_ascii hascii] at hd
      rw [(List.cons_eq_cons.1 hd).1, hbyte]
    rw [Glob.toNat_byte hascii] at hnum
    obtain rfl : d = c := Char.toNat_inj.1 hnum
    have hforbidden : Domain.isForbidden d = true := by
      simp only [Domain.isForbidden, Bool.or_eq_true, decide_eq_true_eq]
      omega
    have hkept : d ∈ (text.toList.filter fun c => !Domain.isIgnored c).map
        fun c => (Domain.plainForm c).toLower := by
      refine List.mem_map.2 ⟨d, List.mem_filter.2 ⟨?_, ?_⟩, ?_⟩
      · rw [hcs]
        exact List.mem_append_right x List.mem_cons_self
      · rw [isIgnored_eq_false_of_isEdge hc]
        rfl
      · rw [plainForm_of_isEdge hc, toLower_eq (isUpper_eq_false (.inl (by omega)))]
    have hany : (((text.toList.filter fun c => !Domain.isIgnored c).map
        fun c => (Domain.plainForm c).toLower).any
          fun c => Domain.isForbidden c || Domain.isRefused c) = true :=
      List.any_eq_true.2 ⟨d, hkept, by rw [hforbidden, Bool.true_or]⟩
    exact if_pos hany

theorem readSpecialHost_of_isEdge (cs : List Char) (hc : isEdge c = true) (host : Host) :
    readSpecialHost (cs ++ [c]) ≠ .ok host := by
  intro hok
  rw [readSpecialHost, percentDecode_append cs hc, toAscii?_of_isEdge _ hc,
    List.getLast?_concat] at hok
  have hbracket : c ≠ ']' := by
    rintro rfl
    cases hc
  simp only [Option.some.injEq, hbracket, if_false] at hok
  split_ifs at hok

/-- A blank ends no authority. -/
theorem readAuthority_of_isEdge {s : Scheme} (hs : s.isSpecial = true) {auth : List Char}
    (h : Within s (auth ++ [c])) (hc : isEdge c = true) (x : Authority × List Char) :
    readAuthority s (auth ++ [c]) ≠ .ok x := by
  intro hok
  rw [readAuthority_eq_readHostPort hs h] at hok
  obtain ⟨host, hhost⟩ : ∃ host, (splitAccount (auth ++ [c])).2 = host ++ [c] := by
    rcases splitAccount_eq (auth ++ [c]) with heq | ⟨account, host, heq, happend⟩
    · exact ⟨auth, by rw [heq]⟩
    · rcases List.eq_nil_or_concat host with rfl | ⟨host, d, rfl⟩
      · have hlast := (List.append_inj' happend rfl).2
        obtain rfl : c = '@' := (List.cons_eq_cons.1 hlast).1
        cases hc
      · rw [List.concat_eq_append, ← List.cons_append, ← List.append_assoc] at happend
        obtain rfl : c = d := (List.cons_eq_cons.1 (List.append_inj' happend rfl).2).1
        exact ⟨host, by rw [heq, List.concat_eq_append]⟩
  have hwithin := within_splitAccount h
  rw [hhost] at hwithin hok
  obtain ⟨-, hspecial, hplain⟩ := readHostPort_eq_ok hs hwithin hok
  have hspan : (spanHost s false (host ++ [c])).1 ++ (spanHost s false (host ++ [c])).2 =
      host ++ [c] := spanHost_eq false _
  rcases List.eq_nil_or_concat (spanHost s false (host ++ [c])).2 with hnil | ⟨port, d, hport⟩
  · rw [hnil, List.append_nil] at hspan
    rw [hspan] at hspecial
    exact readSpecialHost_of_isEdge host hc _ hspecial
  · rw [List.concat_eq_append] at hport
    rw [hport, ← List.append_assoc] at hspan
    obtain rfl : d = c := (List.cons_eq_cons.1 (List.append_inj' hspan rfl).2).1
    have hfalse := hplain d (by rw [hport]; exact List.mem_append_right port List.mem_cons_self)
    rw [hc] at hfalse
    cases hfalse

end Blanks

end TopicClient.Url
