import TopicClient.Proofs.CommandLine.Completion
import TopicClient.Proofs.CommandLine.Weaving

/-!
# Shared switches on either side of the command

A shared switch may stand before the name of the command or behind it (`Distributes`), and means the
same, with one exception (`sameResult_iff_not_parts`): that a username comes with a password is
checked for each side on its own, so the two must not be parted unless the environment has a
password.
-/

namespace TopicClient.CommandLine

structure Arguments where
  verb : Verb
  words : List String
  reading : Reading
  reads : readLevel? (.command verb) false {} words = some (reading, none)
  own : ∀ t ∈ reading.settings, t.switch ∉ Switch.shared
  enough : verb.required ≤ reading.operands.length

/-- The command lines in which some of the shared switches stand before the name of the command, and
the others behind it. -/
inductive Distributes (a : Arguments) (gs : List Given) : List String → Prop
  | intro {before after : List Given} {words : List String} (hperm : (before ++ after).Perm gs)
      (hwoven : Woven a.verb {} a.words after words) :
      Distributes a gs (before.flatMap Given.words ++ a.verb.name :: words)

/-- However the shared switches are distributed, either all command lines come to the same, or all
are refused. -/
def SameResult (environment : Environment) (a : Arguments) (gs : List Given) : Prop :=
  ∀ line line', Distributes a gs line → Distributes a gs line' →
    (parse environment line).toOption = (parse environment line').toOption

def Names (environment : Environment) (gs : List Given) (s : Switch) : Prop :=
  (∃ g ∈ gs, g.switch = s) ∨ (s.environmentName?.bind environment).isSome = true

def LacksPassword (environment : Environment) (gs : List Given) : Prop :=
  Names environment gs .username ∧ ¬ Names environment gs .password

/-- The credentials can be parted: both halves are given, the environment has neither, and there is
nothing else to complain about. -/
structure Parts (environment : Environment) (gs : List Given) : Prop where
  username : ∃ g ∈ gs, g.switch = .username
  password : ∃ g ∈ gs, g.switch = .password
  noUsername : environment "SUSI_USERNAME" = none
  noPassword : environment "SUSI_PASSWORD" = none
  readable : Readable gs
  legible : ∀ s ∈ Switch.shared, Legible environment s

/-! ## What shared switches set -/

def settingsOf (gs : List Given) (s : Switch) : List Setting :=
  (gs.filterMap Given.setting?).filter fun t => t.switch = s

section Settings

variable {environment : Environment} {gs gs' : List Given} {s : Switch}

theorem mem_settingsOf {t : Setting} (h : t ∈ settingsOf gs s) :
    ∃ g ∈ gs, g.setting? = some t ∧ t.switch = s := by
  obtain ⟨hmem, hswitch⟩ := List.mem_filter.1 h
  obtain ⟨g, hg, hsetting⟩ := List.mem_filterMap.1 hmem
  exact ⟨g, hg, hsetting, of_decide_eq_true hswitch⟩

theorem settingsOf_append (gs gs' : List Given) (s : Switch) :
    settingsOf (gs ++ gs') s = settingsOf gs s ++ settingsOf gs' s := by
  rw [settingsOf, List.filterMap_append, List.filter_append]
  rfl

theorem settingsOf_eq_nil (hs : s ∉ Switch.shared) : settingsOf gs s = [] := by
  refine List.eq_nil_iff_forall_not_mem.2 fun t ht => ?_
  obtain ⟨g, -, hsetting, rfl⟩ := mem_settingsOf ht
  rw [(Given.switch_of_setting? hsetting).1] at hs
  exact hs g.shared

/-- A switch that is given at most once is set to the same, in whatever order. -/
theorem settingsOf_perm (h : gs.Perm gs') (hnodup : (gs.map (·.switch)).Nodup) (s : Switch) :
    settingsOf gs s = settingsOf gs' s := by
  have hperm : (settingsOf gs s).Perm (settingsOf gs' s) := (h.filterMap _).filter _
  have hpairwise : ∀ {gs : List Given}, (gs.map (·.switch)).Nodup →
      (settingsOf gs s).Pairwise fun t u => t.switch ≠ u.switch := by
    intro gs hnodup
    refine ((List.pairwise_map.1 hnodup).filterMap _ ?_).filter _
    intro g g' hne t ht t' ht'
    rwa [(Given.switch_of_setting? ht).1, (Given.switch_of_setting? ht').1]
  have hnodup' : (gs'.map (·.switch)).Nodup := (h.map _).nodup_iff.1 hnodup
  refine List.Perm.eq_of_pairwise ?_ (hpairwise hnodup) (hpairwise hnodup') hperm
  intro t u ht hu hne
  obtain ⟨-, -, -, hswitch⟩ := mem_settingsOf ht
  obtain ⟨-, -, -, hswitch'⟩ := mem_settingsOf hu
  exact absurd (hswitch.trans hswitch'.symm) hne

theorem settingsOf_ne_nil_iff (hreadable : Readable gs) :
    settingsOf gs s ≠ [] ↔ ∃ g ∈ gs, g.switch = s := by
  constructor
  · intro hne
    obtain ⟨t, ht⟩ := List.exists_mem_of_ne_nil _ hne
    obtain ⟨g, hg, hsetting, rfl⟩ := mem_settingsOf ht
    exact ⟨g, hg, (Given.switch_of_setting? hsetting).1.symm⟩
  · rintro ⟨g, hg, rfl⟩
    obtain ⟨v, hv⟩ := Option.isSome_iff_exists.1 (hreadable g hg)
    have hsetting : g.setting? = some ⟨g.switch, v, false⟩ := by rw [Given.setting?, hv]; rfl
    refine List.ne_nil_of_mem (a := ⟨g.switch, v, false⟩) (List.mem_filter.2 ⟨?_, by simp⟩)
    exact List.mem_filterMap.2 ⟨g, hg, hsetting⟩

theorem names_iff_of_none (h : s.environmentName?.bind environment = none) :
    Names environment gs s ↔ ∃ g ∈ gs, g.switch = s :=
  or_iff_left (Option.not_isSome_iff_eq_none.2 h)

/-- A switch that is given at most once is not given on both sides. -/
theorem switch_ne_of_nodup {g g' : Given} (hnodup : ((gs ++ gs').map (·.switch)).Nodup)
    (hg : g ∈ gs) (hg' : g' ∈ gs') : g.switch ≠ g'.switch := by
  rw [List.map_append, List.nodup_append] at hnodup
  exact hnodup.2.2 _ (List.mem_map_of_mem hg) _ (List.mem_map_of_mem hg')

theorem isSome_fromEnvironment?_iff (h : Legible environment s) :
    (fromEnvironment? environment s).isSome = true ↔
      (s.environmentName?.bind environment).isSome = true := by
  rw [fromEnvironment?]
  cases hvariable : s.environmentName?.bind environment with
  | none => simp
  | some text =>
    obtain ⟨v, hv⟩ := Option.isSome_iff_exists.1 (h text hvariable)
    simp [hv]

/-- A level to which shared switches are given, completed from the environment, lacks a password if
they do. -/
theorem lacksPassword_iff {r r' : Reading} (hfilled : Filled environment Switch.shared r r')
    (hgiven : ∀ s ∈ Switch.shared, r.given s = settingsOf gs s) (hreadable : Readable gs)
    (hlegible : ∀ s ∈ Switch.shared, Legible environment s) :
    r'.lacksPassword = true ↔ LacksPassword environment gs := by
  have hnames : ∀ s ∈ Switch.shared, r'.has s = true ↔ Names environment gs s := by
    intro s hs
    rw [hfilled.has_iff hs, hgiven s hs, settingsOf_ne_nil_iff hreadable,
      isSome_fromEnvironment?_iff (hlegible s hs)]
    rfl
  rw [Reading.lacksPassword, Bool.and_eq_true, Bool.not_eq_true', ← Bool.not_eq_true,
    hnames _ (by decide), hnames _ (by decide)]
  rfl

end Settings

/-! ## What a command line comes to -/

structure Accepts (environment : Environment) (before after : List Given) : Prop where
  readable_before : Readable before
  readable_after : Readable after
  legible : ∀ s ∈ Switch.shared, Legible environment s
  lacks_before : ¬ LacksPassword environment before
  lacks_after : ¬ LacksPassword environment after

structure Settles (environment : Environment) (a : Arguments) (gs : List Given) (l : Levels) :
    Prop where
  shared : ∀ s ∈ Switch.shared,
    l.find? s = ((settingsOf gs s).head?.or (fromEnvironment? environment s)).map (·.value)
  own : ∀ s ∉ Switch.shared, l.find? s = (a.reading.given s).head?.map (·.value)
  operands_eq : l.command.operands = a.reading.operands
  given_eq : l.command.given .topic = a.reading.given .topic

section Outcome

variable {environment : Environment} {a : Arguments} {gs before after : List Given}
  {words : List String}

theorem Settles.invocation?_eq {l l' : Levels} (h : Settles environment a gs l)
    (h' : Settles environment a gs l') (verb : Verb) :
    l.invocation? verb = l'.invocation? verb := by
  have htexts : l.texts .topic = l'.texts .topic := by
    rw [texts_eq, texts_eq, h.given_eq, h'.given_eq]
  have hfind : ∀ s, l.find? s = l'.find? s := by
    intro s
    by_cases hs : s ∈ Switch.shared
    · rw [h.shared s hs, h'.shared s hs]
    · rw [h.own s hs, h'.own s hs]
  obtain ⟨hconfig, hcredentials, hcommand⟩ := invocation_congr hfind
    (h.operands_eq.trans h'.operands_eq.symm) htexts verb
  rw [Levels.invocation?, Levels.invocation?, hconfig, hcredentials, hcommand]

theorem Settles.exists_invocation {l : Levels} (h : Settles environment a gs l) :
    ∃ i, l.invocation? a.verb = some i := by
  have hlength : a.verb.required ≤ l.command.operands.length := h.operands_eq ▸ a.enough
  obtain ⟨command, hcommand⟩ := exists_buildCommand hlength
  exact ⟨_, by rw [Levels.invocation?, hcommand]; rfl⟩

theorem startsCommand?_name (verb : Verb) {r : Reading} (hr : r.awaitsValue = false) :
    startsCommand? .top r verb.name = some (some verb) := by
  rw [startsCommand?, hr]
  cases verb <;> rfl

theorem toOption_parse_flatMap (verb : Verb) (hnodup : (before.map (·.switch)).Nodup) :
    (parse environment (before.flatMap Given.words ++ verb.name :: words)).toOption =
      if Readable before then
        (readLevel? (.command verb) false {} words).bind fun (below, _) =>
          conclude? environment verb ⟨{ settings := before.filterMap Given.setting? }, below⟩
      else none := by
  have hnew : ∀ g ∈ before, Reading.has {} g.switch = false := fun _ _ => rfl
  rw [toOption_parse, readLevel?_options rfl hnew hnodup]
  split_ifs
  · rw [readLevel?_command (startsCommand?_name verb rfl)]
    rfl
  · rfl

theorem adds_nil : Adds [] {} {} := ⟨rfl, rfl, fun _ _ => rfl, fun _ _ => rfl⟩

theorem parse_cases (hnodup : ((before ++ after).map (·.switch)).Nodup)
    (hwoven : Woven a.verb {} a.words after words) :
    (Readable before ∧ Readable after ∧ ∃ r, Adds (after.filterMap Given.setting?) a.reading r ∧
        (parse environment (before.flatMap Given.words ++ a.verb.name :: words)).toOption =
          conclude? environment a.verb ⟨{ settings := before.filterMap Given.setting? }, r⟩) ∨
      ¬ (Readable before ∧ Readable after) ∧
        (parse environment (before.flatMap Given.words ++ a.verb.name :: words)).toOption =
          none := by
  rw [List.map_append, List.nodup_append] at hnodup
  obtain ⟨hnodup, hnodup', -⟩ := hnodup
  rw [toOption_parse_flatMap a.verb hnodup]
  by_cases hbefore : Readable before
  · rw [if_pos hbefore]
    have hnew : ∀ g ∈ after, ∀ t ∈ ([] : List Setting), t.switch ≠ g.switch :=
      fun _ _ => List.forall_mem_nil _
    rcases hwoven.reads (.inl rfl) adds_nil a.reads a.own hnew hnodup' with
      ⟨hafter, r, hread, hadds⟩ | ⟨hafter, hread⟩
    · exact .inl ⟨hbefore, hafter, r, hadds, by rw [hread]; rfl⟩
    · exact .inr ⟨fun h => hafter h.2, by rw [hread]; rfl⟩
  · exact .inr ⟨fun h => hbefore h.1, if_neg hbefore⟩

/-- A command line is refused unless its shared switches are accepted. -/
theorem parse_of_not_accepts (hnodup : ((before ++ after).map (·.switch)).Nodup)
    (hwoven : Woven a.verb {} a.words after words) (h : ¬ Accepts environment before after) :
    (parse environment (before.flatMap Given.words ++ a.verb.name :: words)).toOption = none := by
  rcases parse_cases hnodup hwoven with ⟨hbefore, hafter, r, hadds, hparse⟩ | ⟨-, hparse⟩
  · rw [hparse]
    have hpending : r.pending = none := hadds.pending_eq.trans (pending_of_readLevel? a.reads)
    by_cases hlegible : ∀ s ∈ Switch.shared, Legible environment s
    · obtain ⟨top, below, htop, hbelow, hconclude⟩ :=
        conclude?_of_legible (l := ⟨{ settings := before.filterMap Given.setting? }, r⟩) rfl
          hpending hlegible a.verb
      have hlacks := lacksPassword_iff htop (fun _ _ => rfl) hbefore hlegible
      have hlacks' := lacksPassword_iff hbelow hadds.shared hafter hlegible
      rw [hconclude, if_pos]
      rw [hlacks, hlacks']
      by_contra hno
      simp only [not_or] at hno
      exact h ⟨hbefore, hafter, hlegible, hno.2.2, hno.1⟩
    · push Not at hlegible
      obtain ⟨s, hs, hlegible⟩ := hlegible
      refine conclude?_of_not_legible rfl hpending hs hlegible ?_ a.verb
      -- One side at least has to ask the environment.
      by_contra hno
      obtain ⟨hno, hno'⟩ := not_or.1 hno
      obtain ⟨g, hg, rfl⟩ := (settingsOf_ne_nil_iff hbefore).1 hno
      obtain ⟨g', hg', hswitch⟩ := (settingsOf_ne_nil_iff hafter).1 (hadds.shared _ hs ▸ hno')
      exact switch_ne_of_nodup hnodup hg hg' hswitch.symm
  · exact hparse

theorem parse_of_accepts (hperm : (before ++ after).Perm gs)
    (hnodup : (gs.map (·.switch)).Nodup) (hwoven : Woven a.verb {} a.words after words)
    (h : Accepts environment before after) :
    ∃ l, Settles environment a gs l ∧
      (parse environment (before.flatMap Given.words ++ a.verb.name :: words)).toOption =
        l.invocation? a.verb := by
  have hnodup' : ((before ++ after).map (·.switch)).Nodup := (hperm.map _).nodup_iff.2 hnodup
  rcases parse_cases hnodup' hwoven with ⟨-, -, r, hadds, hparse⟩ | ⟨hreadable, -⟩
  · have hpending : r.pending = none := hadds.pending_eq.trans (pending_of_readLevel? a.reads)
    obtain ⟨top, below, htop, hbelow, hconclude⟩ :=
      conclude?_of_legible (l := ⟨{ settings := before.filterMap Given.setting? }, r⟩) rfl
        hpending h.legible a.verb
    have hlacks := lacksPassword_iff htop (fun _ _ => rfl) h.readable_before h.legible
    have hlacks' := lacksPassword_iff hbelow hadds.shared h.readable_after h.legible
    have hoperands : below.operands = a.reading.operands :=
      hbelow.operands_eq.trans hadds.operands_eq
    refine ⟨⟨top, below⟩, ⟨fun s hs => ?_, fun s hs => ?_, hoperands, ?_⟩, ?_⟩
    · have hgiven : r.given s ++ settingsOf before s = settingsOf gs s := by
        rw [hadds.shared s hs, ← settingsOf_perm (List.perm_append_comm.trans hperm) _ s,
          settingsOf_append]
        · rfl
        · exact ((List.perm_append_comm.trans hperm).map _).nodup_iff.2 hnodup
      have hfind := find?_of_shared hbelow htop hs
      change (∀ t ∈ r.given s ++ settingsOf before s, _) → _ = ((r.given s ++
        settingsOf before s).head?.or _).map _ at hfind
      rw [hgiven] at hfind
      refine hfind fun t ht => ?_
      obtain ⟨g, -, hsetting, -⟩ := mem_settingsOf ht
      exact (Given.switch_of_setting? hsetting).2
    · rw [← hadds.own s hs]
      exact find?_of_own hbelow htop hs (settingsOf_eq_nil hs)
    · have htopic : Switch.topic ∉ Switch.shared := by decide
      rw [hbelow.given_eq, if_neg fun hmem => htopic hmem.2, hadds.own _ htopic]
    · rw [hparse, hconclude, if_neg]
      rw [hlacks, hlacks', hoperands, not_or, not_or]
      exact ⟨h.lacks_after, Nat.not_lt.2 a.enough, h.lacks_before⟩
  · exact absurd ⟨h.readable_before, h.readable_after⟩ hreadable

theorem Accepts.readable (h : Accepts environment before after)
    (hperm : (before ++ after).Perm gs) : Readable gs := fun g hg =>
  (List.mem_append.1 (hperm.mem_iff.2 hg)).elim (h.readable_before g) (h.readable_after g)

/-- If the credentials cannot be parted, nothing that is given lacks a password in a command line
that is accepted otherwise. -/
theorem Accepts.not_lacksPassword (h : Accepts environment before after)
    (hperm : (before ++ after).Perm gs) (hnodup : (gs.map (·.switch)).Nodup)
    (hparts : ¬ Parts environment gs) {side : List Given} (hside : side ⊆ gs) :
    ¬ LacksPassword environment side := by
  rintro ⟨hname, hlacks⟩
  have hpassword : environment "SUSI_PASSWORD" = none :=
    Option.not_isSome_iff_eq_none.1 fun hsome => hlacks (.inr hsome)
  have hgiven : ∀ {part : List Given}, ¬ LacksPassword environment part →
      Names environment part .username → ∃ g ∈ part, g.switch = .password :=
    fun hpart hname =>
      (names_iff_of_none (s := .password) hpassword).1 (not_and_not_right.1 hpart hname)
  by_cases husername : environment "SUSI_USERNAME" = none
  · obtain ⟨g, hg, hswitch⟩ := (names_iff_of_none (s := .username) husername).1 hname
    obtain ⟨g', hg', hswitch'⟩ : ∃ g' ∈ before ++ after, g'.switch = .password := by
      rcases List.mem_append.1 (hperm.mem_iff.2 (hside hg)) with hmem | hmem
      · obtain ⟨g', hg', hswitch'⟩ := hgiven h.lacks_before (.inl ⟨g, hmem, hswitch⟩)
        exact ⟨g', List.mem_append_left _ hg', hswitch'⟩
      · obtain ⟨g', hg', hswitch'⟩ := hgiven h.lacks_after (.inl ⟨g, hmem, hswitch⟩)
        exact ⟨g', List.mem_append_right _ hg', hswitch'⟩
    exact hparts ⟨⟨g, hside hg, hswitch⟩, ⟨g', hperm.mem_iff.1 hg', hswitch'⟩, husername,
      hpassword, h.readable hperm, h.legible⟩
  · -- Both sides have the username from the environment, and so both need the password.
    have hnames : ∀ part, Names environment part .username :=
      fun _ => .inr (Option.isSome_iff_ne_none.2 husername)
    obtain ⟨g, hg, hswitch⟩ := hgiven h.lacks_before (hnames before)
    obtain ⟨g', hg', hswitch'⟩ := hgiven h.lacks_after (hnames after)
    have hnodup' := (hperm.map (·.switch)).nodup_iff.2 hnodup
    exact switch_ne_of_nodup hnodup' hg hg' (hswitch.trans hswitch'.symm)

/-- What is accepted in one distribution is accepted in all. -/
theorem Accepts.of_not_parts (h : Accepts environment before after)
    (hperm : (before ++ after).Perm gs) (hnodup : (gs.map (·.switch)).Nodup)
    (hparts : ¬ Parts environment gs) {before' after' : List Given}
    (hperm' : (before' ++ after').Perm gs) : Accepts environment before' after' := by
  have hbefore : before' ⊆ gs := fun g hg => hperm'.subset (List.mem_append_left _ hg)
  have hafter : after' ⊆ gs := fun g hg => hperm'.subset (List.mem_append_right _ hg)
  have hreadable := h.readable hperm
  exact ⟨fun g hg => hreadable g (hbefore hg), fun g hg => hreadable g (hafter hg), h.legible,
    h.not_lacksPassword hperm hnodup hparts hbefore, h.not_lacksPassword hperm hnodup hparts hafter⟩

theorem sameResult_of_not_parts (hnodup : (gs.map (·.switch)).Nodup)
    (hparts : ¬ Parts environment gs) : SameResult environment a gs := by
  rintro - - (@⟨before, after, words, hperm, hwoven⟩) (@⟨before', after', words', hperm', hwoven'⟩)
  by_cases h : Accepts environment before after
  · have h' := h.of_not_parts hperm hnodup hparts hperm'
    obtain ⟨l, hl, hparse⟩ := parse_of_accepts hperm hnodup hwoven h
    obtain ⟨l', hl', hparse'⟩ := parse_of_accepts hperm' hnodup hwoven' h'
    rw [hparse, hparse', hl.invocation?_eq hl']
  · have h' : ¬ Accepts environment before' after' := fun h' =>
      h (h'.of_not_parts hperm' hnodup hparts hperm)
    rw [parse_of_not_accepts ((hperm.map _).nodup_iff.2 hnodup) hwoven h,
      parse_of_not_accepts ((hperm'.map _).nodup_iff.2 hnodup) hwoven' h']

/-- The username in front of the command and the password behind it. -/
theorem not_sameResult_of_parts (hnodup : (gs.map (·.switch)).Nodup)
    (hparts : Parts environment gs) : ¬ SameResult environment a gs := by
  intro hsame
  obtain ⟨user, huser, hswitch⟩ := hparts.username
  obtain ⟨front, back, hgs⟩ := List.append_of_mem huser
  have hself := Woven.self a.reads
  have htogether : ([] ++ gs).Perm gs := .refl gs
  have hnobody : ¬ Names environment [] .username := by
    rw [names_iff_of_none (s := .username) hparts.noUsername]
    exact nofun
  obtain ⟨l, hl, hparse⟩ := parse_of_accepts htogether hnodup (hself.options rfl gs)
    ⟨List.forall_mem_nil _, hparts.readable, hparts.legible,
      fun hlacks => hnobody hlacks.1,
      fun hlacks => hlacks.2 (.inl hparts.password)⟩
  have hapart : ([user] ++ (front ++ back)).Perm gs := by
    rw [hgs]
    exact (List.perm_middle.symm : (user :: (front ++ back)).Perm (front ++ user :: back))
  have hrefused : ¬ Accepts environment [user] (front ++ back) := by
    refine fun h => h.lacks_before ⟨.inl ⟨user, List.mem_cons_self, hswitch⟩, ?_⟩
    rw [names_iff_of_none (s := .password) hparts.noPassword]
    rintro ⟨g, hg, hpassword⟩
    rw [List.mem_singleton.1 hg, hswitch] at hpassword
    cases hpassword
  have heq := hsame _ _ (.intro htogether (hself.options rfl gs))
    (.intro hapart (hself.options rfl (front ++ back)))
  obtain ⟨i, hi⟩ := hl.exists_invocation
  rw [hparse, hi, parse_of_not_accepts ((hapart.map _).nodup_iff.2 hnodup)
    (hself.options rfl _) hrefused] at heq
  cases heq

end Outcome

/-- For every environment, every command with its arguments and all shared switches, each given at
most once and with any value: they mean the same wherever they stand, unless the credentials can be
parted. -/
theorem sameResult_iff_not_parts (environment : Environment) (a : Arguments) {gs : List Given}
    (hnodup : (gs.map (·.switch)).Nodup) :
    SameResult environment a gs ↔ ¬ Parts environment gs :=
  ⟨fun hsame hparts => not_sameResult_of_parts hnodup hparts hsame,
    sameResult_of_not_parts hnodup⟩

def userInTime : List Given :=
  [⟨.username, by decide, "u", false⟩, ⟨.timeout, by decide, "250", true⟩]

def listening : Arguments where
  verb := .listen
  words := ["-t", "foo"]
  reading := { settings := [⟨.topic, .text "foo", false⟩] }
  reads := by decide +kernel
  own := by decide
  enough := by decide

def passwordAlone : Environment := fun name => if name = "SUSI_PASSWORD" then some "p" else none

/-- The password is in the environment, so that the username may stand anywhere. -/
theorem sameResult_userInTime :
    SameResult passwordAlone listening userInTime ∧
      (parse passwordAlone
        ["--username", "u", "listen", "-t", "foo", "--timeout-ms=250"]).toOption.isSome = true := by
  refine ⟨(sameResult_iff_not_parts _ listening (by decide)).2 fun hparts => ?_, by decide +kernel⟩
  exact absurd hparts.noPassword (by decide)

def credentials : List Given :=
  [⟨.username, by decide, "u", false⟩, ⟨.password, by decide, "p", false⟩]

def asking : Arguments where
  verb := .info
  words := []
  reading := {}
  reads := rfl
  own := nofun
  enough := Nat.le_refl 0

/-- With `--username u` before the command and `--password p` behind it the command line is refused,
and with both before the command it is not. -/
theorem not_sameResult_credentials : ¬ SameResult (fun _ => none) asking credentials := by
  intro hsame
  have heq := hsame _ _
    (@Distributes.intro asking credentials credentials [] [] (.refl _) .done)
    (@Distributes.intro asking credentials (credentials.take 1) (credentials.drop 1) _ (.refl _)
      (.option _ rfl .done))
  exact absurd (congrArg Option.isSome heq) (by decide +kernel)

end TopicClient.CommandLine
