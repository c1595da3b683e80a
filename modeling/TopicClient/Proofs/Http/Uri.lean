import TopicClient.Http.Agent
import TopicClient.Proofs.Url.Origin

/-!
# Which URLs requests take

A URL of the web is taken if its text is not too long and its authority passes (`isUri_iff`). What
is refused of an authority without an account is a host with other than ordinary characters
(`isAuthority_render_iff`).
-/

namespace TopicClient.Http

namespace Uri

section Reading

variable {c : Char} {cs : List Char}

theorem Seen.step?_of_isOrdinary (h : isOrdinary c = true) (s : Seen) : s.step? c = some s := by
  unfold step?
  split
  all_goals exact if_pos h

theorem foldlM_step?_of_isOrdinary (h : ∀ c ∈ cs, isOrdinary c = true) (s : Seen) :
    cs.foldlM Seen.step? s = some s := by
  induction cs with
  | nil => rfl
  | cons c cs ih =>
    obtain ⟨hc, hcs⟩ := List.forall_mem_cons.1 h
    rw [List.foldlM_cons, Seen.step?_of_isOrdinary hc, Option.bind_eq_bind, Option.bind_some, ih hcs]

/-- A character that fails wherever it stands is not read over. -/
theorem not_mem_of_foldlM_eq_some (hc : ∀ s : Seen, s.step? c = none) {s s' : Seen}
    (h : cs.foldlM Seen.step? s = some s') : c ∉ cs := by
  induction cs generalizing s with
  | nil => exact List.not_mem_nil
  | cons d cs ih =>
    rw [List.foldlM_cons, Option.bind_eq_bind, Option.bind_eq_some_iff] at h
    obtain ⟨s₁, hd, hcs⟩ := h
    intro hmem
    rcases List.mem_cons.1 hmem with rfl | hmem
    · cases (hc s).symm.trans hd
    · exact ih hcs hmem

/-- Other than the signs of an authority, only ordinary characters can be read. -/
theorem Seen.step?_eq_none (hc : isOrdinary c = false) (hsign : c ∉ [':', '[', ']', '@', '%'])
    (s : Seen) : s.step? c = none := by
  simp only [List.mem_cons, List.not_mem_nil, or_false, not_or] at hsign
  unfold step?
  split
  all_goals first | contradiction | simp_all

end Reading

theorem exists_of_isAuthority {text : String} (h : isAuthority text = true) :
    text ≠ "" ∧ ∃ s, text.toList.foldlM Seen.step? {} = some s := by
  simp only [isAuthority, Bool.and_eq_true, decide_eq_true_eq] at h
  obtain ⟨s, hs, _⟩ := (Option.any_eq_true _ _).1 h.2
  exact ⟨h.1.1, s, hs⟩

theorem slash_not_mem_of_isAuthority {text : String} (h : isAuthority text = true) :
    '/' ∉ text.toList := by
  obtain ⟨_, s, hs⟩ := exists_of_isAuthority h
  exact not_mem_of_foldlM_eq_some (fun _ => rfl) hs

theorem isAuthority_of_foldlM {text : String} (hne : text ≠ "") (hat : '@' ∉ text.toList) {s : Seen}
    (hs : text.toList.foldlM Seen.step? {} = some s) (hcomplete : s.isComplete = true) :
    isAuthority text = true := by
  have hlast : text.toList.getLast? ≠ some '@' := fun h => hat (List.mem_of_getLast? h)
  simp [isAuthority, hne, hlast, hs, hcomplete]

theorem at_not_mem_of_isOrdinary {cs : List Char} (h : ∀ c ∈ cs, isOrdinary c = true) :
    '@' ∉ cs :=
  fun hmem => absurd (h '@' hmem) (by decide)

theorem isOrdinary_of_mem_toDigits {n : ℕ} {c : Char} (h : c ∈ Nat.toDigits 10 n) :
    isOrdinary c = true := by
  have hdigit := Nat.isDigit_of_mem_toDigits (by decide) (by decide) h
  simp [isOrdinary, Char.isAlphanum, hdigit]

theorem isAuthority_of_isOrdinary {a : Url.Authority} (haccount : a.account = "")
    (hne : a.host.render ≠ "") (h : ∀ c ∈ a.host.render.toList, isOrdinary c = true) :
    isAuthority a.render = true := by
  have hread := foldlM_step?_of_isOrdinary h {}
  cases hport : a.port with
  | none =>
    have hrender : a.render = a.host.render := by simp [Url.Authority.render, haccount, hport]
    rw [hrender]
    exact isAuthority_of_foldlM hne (at_not_mem_of_isOrdinary h) hread rfl
  | some p =>
    have hrender : a.render.toList = a.host.render.toList ++ ':' :: Nat.toDigits 10 p := by
      simp [Url.Authority.render, haccount, hport]
    have hdigits : ∀ c ∈ Nat.toDigits 10 p, isOrdinary c = true :=
      fun c hc => isOrdinary_of_mem_toDigits hc
    have hcolon : (':' :: Nat.toDigits 10 p).foldlM Seen.step? {} = some { colons := 1 } :=
      foldlM_step?_of_isOrdinary hdigits { colons := 1 }
    refine isAuthority_of_foldlM (s := { colons := 1 }) ?_ ?_ ?_ rfl
    · intro hnil
      rw [hnil] at hrender
      simp at hrender
    · rw [hrender]
      simp [at_not_mem_of_isOrdinary h, at_not_mem_of_isOrdinary hdigits]
    · rw [hrender, List.foldlM_append, hread]
      exact hcolon

/-- Only its characters decide whether a host without signs passes. -/
theorem isAuthority_render_iff {a : Url.Authority} (haccount : a.account = "")
    (hne : a.host.render ≠ "")
    (hsigns : ∀ c ∈ a.host.render.toList, c ∉ [':', '[', ']', '@', '%']) :
    isAuthority a.render = true ↔ ∀ c ∈ a.host.render.toList, isOrdinary c = true := by
  refine ⟨fun h c hc => ?_, isAuthority_of_isOrdinary haccount hne⟩
  obtain ⟨_, s, hs⟩ := exists_of_isAuthority h
  have hmem : c ∈ a.render.toList := by simp [Url.Authority.render, hc]
  cases hother : isOrdinary c with
  | true => rfl
  | false =>
    exact absurd hmem (not_mem_of_foldlM_eq_some (Seen.step?_eq_none hother (hsigns c hc)) hs)

end Uri

/-- A URL of the web is taken if its text is not too long and its authority passes. -/
theorem isUri_iff {u : Url} {a : Url.Authority} (hw : isWebScheme u.scheme = true)
    (ha : u.authority = some a) :
    isUri u = true ↔
      u.render.utf8ByteSize ≤ Uri.lengthLimit ∧ Uri.isAuthority a.render = true := by
  have hlength : u.scheme.name.length ≤ Uri.schemeLimit := by
    cases hs : u.scheme with
    | http => decide
    | https => decide
    | _ => rw [hs] at hw; cases hw
  simp only [isUri, ha, Bool.and_eq_true, decide_eq_true_eq, hlength, true_and]

section

variable {u next : Url}

theorem Uri.origin_of_ofUrl? (h : ofUrl? u = some next) : next.origin = u.origin := by
  obtain ⟨_, hnext⟩ := Option.ite_none_right_eq_some.1 h
  rw [← Option.some.inj hnext]
  rfl

theorem Uri.isRooted_of_ofUrl? (h : ofUrl? u = some next) (hu : u.IsRooted) : next.IsRooted := by
  obtain ⟨_, hnext⟩ := Option.ite_none_right_eq_some.1 h
  rw [← Option.some.inj hnext]
  split_ifs
  · exact ⟨_, rfl, List.cons_ne_nil _ _⟩
  · exact hu

end

end TopicClient.Http
