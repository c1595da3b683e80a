import TopicClient.Proofs.CommandLine.Options

/-!
# Shared switches among the arguments of a command

Shared switches may stand anywhere among the arguments of a command, but not between a switch and
its value, nor behind the divider (`Woven`). The arguments are then read as if they stood alone, and
the shared switches are set besides (`Adds`).
-/

namespace TopicClient.CommandLine

structure Adds (ts : List Setting) (q r : Reading) : Prop where
  operands_eq : r.operands = q.operands
  pending_eq : r.pending = q.pending
  own : ∀ s ∉ Switch.shared, r.given s = q.given s
  shared : ∀ s ∈ Switch.shared, r.given s = ts.filter fun t => t.switch = s

/-- Shared switches woven into the arguments of a command that are still to be read. -/
inductive Woven (verb : Verb) : Reading → List String → List Given → List String → Prop
  | done {q : Reading} : Woven verb q [] [] []
  /-- A shared switch may stand wherever no value is waited for. -/
  | option {q : Reading} {args : List String} {gs : List Given} {line : List String} (g : Given)
      (hq : q.awaitsValue = false) (h : Woven verb q args gs line) :
      Woven verb q args (g :: gs) (g.words ++ line)
  | argument {q q' : Reading} {arg : String} {args : List String} {gs : List Given}
      {line : List String} (hdivider : Shape.of arg ≠ .divider)
      (hread : readArgument (.command verb) q arg = .ok q') (h : Woven verb q' args gs line) :
      Woven verb q (arg :: args) gs (arg :: line)
  /-- What follows the divider is no switch. -/
  | divider {q : Reading} {arg : String} {args : List String} (hdivider : Shape.of arg = .divider) :
      Woven verb q (arg :: args) [] (arg :: args)

/-! ## Settings stay -/

section Settings

variable {l : Level} {r r' : Reading} {args : List String}

theorem settings_subset_add {s : Switch} {value : Except NumberError Value} {text : String}
    (h : r.add s value text = .ok r') : r.settings ⊆ r'.settings := by
  obtain ⟨-, v, -, rfl⟩ := Reading.add_eq_ok h
  exact List.subset_append_left _ _

theorem settings_subset_settle (h : r.settle = .ok r') : r.settings ⊆ r'.settings := by
  unfold Reading.settle at h
  split at h
  · obtain rfl := Except.ok.inj h
    exact List.Subset.refl _
  · cases h
  · exact (settings_subset_add h : { r with pending := none }.settings ⊆ r'.settings)

theorem settings_subset_meet {s : Switch} {attached : Option String}
    (h : r.meet s attached = .ok r') : r.settings ⊆ r'.settings := by
  obtain ⟨r₁, hsettle, h⟩ := Json.exists_of_bind_eq_ok h
  have hsettled := settings_subset_settle hsettle
  split_ifs at h
  · cases attached with
    | some text => exact List.Subset.trans hsettled (settings_subset_add h)
    | none =>
      obtain rfl := Except.ok.inj h
      exact hsettled
  · exact List.Subset.trans hsettled (settings_subset_add h)

theorem settings_subset_readOperand {divided : Bool} {arg : String}
    (h : readOperand l divided r arg = .ok r') : r.settings ⊆ r'.settings := by
  unfold readOperand at h
  split_ifs at h
  obtain ⟨r₁, hsettle, h⟩ := Json.exists_of_bind_eq_ok h
  obtain rfl := Except.ok.inj h
  exact (settings_subset_settle hsettle : r.settings ⊆ r₁.settings)

theorem settings_subset_readArgument {arg : String} (hdivider : Shape.of arg ≠ .divider)
    (h : readArgument l r arg = .ok r') : r.settings ⊆ r'.settings := by
  rcases readArgument_cases hdivider h with
    ⟨s, attached, -, -, hmeet⟩ | ⟨-, ⟨s, -, rfl⟩ | ⟨-, hoperand⟩⟩
  · exact settings_subset_meet hmeet
  · exact List.Subset.refl _
  · exact settings_subset_readOperand hoperand

theorem settings_subset_readLevel? {divided : Bool} {rest : Option (Verb × List String)}
    (h : readLevel? l divided r args = some (r', rest)) : r.settings ⊆ r'.settings := by
  -- What a level is read as when it ends is what has been read, settled.
  have hend : ∀ {r r' : Reading} {rest rest' : Option (Verb × List String)},
      (r.settle.toOption.map fun r => (r, rest')) = some (r', rest) →
        r.settings ⊆ r'.settings := by
    intro r r' rest rest' h
    obtain ⟨r₁, hsettle, heq⟩ := Option.map_eq_some_iff.1 h
    obtain rfl := congrArg Prod.fst heq
    exact settings_subset_settle (eq_ok_of_toOption hsettle)
  induction args generalizing r divided with
  | nil => exact hend h
  | cons arg args ih =>
    cases divided with
    | true =>
      rw [readLevel?_divided] at h
      obtain ⟨r₁, hread, h⟩ := Option.bind_eq_some_iff.1 h
      exact List.Subset.trans (settings_subset_readOperand (eq_ok_of_toOption hread)) (ih h)
    | false =>
      rcases hstarts : startsCommand? l r arg with - | - | verb
      · by_cases hdivider : Shape.of arg = .divider
        · rw [readLevel?_divider hdivider] at h
          exact ih h
        · rw [readLevel?_cons hstarts hdivider] at h
          obtain ⟨r₁, hread, h⟩ := Option.bind_eq_some_iff.1 h
          exact List.Subset.trans
            (settings_subset_readArgument hdivider (eq_ok_of_toOption hread)) (ih h)
      · rw [readLevel?_help hstarts] at h
        cases h
      · rw [readLevel?_command hstarts] at h
        exact hend h

end Settings

/-! ## Settings besides others -/

namespace Adds

variable {l : Level} {ts : List Setting} {q q₁ r : Reading} {s : Switch}

theorem add (h : Adds ts q r) {value : Except NumberError Value} {text : String}
    (hown : ∀ t ∈ q₁.settings, t.switch ∉ Switch.shared) (hadd : q.add s value text = .ok q₁) :
    ∃ r₁, r.add s value text = .ok r₁ ∧ Adds ts q₁ r₁ := by
  obtain ⟨hnew, v, rfl, rfl⟩ := Reading.add_eq_ok hadd
  have hs : s ∉ Switch.shared := hown ⟨s, v, false⟩ (List.mem_append_right _ List.mem_cons_self)
  rw [← Reading.has_congr (h.own s hs)] at hnew
  refine ⟨_, Reading.add_of_ok text hnew, h.operands_eq, h.pending_eq, fun s' hs' => ?_,
    fun s' hs' => ?_⟩
  · rw [Reading.given_concat, Reading.given_concat, h.own s' hs']
  · have hne : s ≠ s' := fun heq => hs (heq ▸ hs')
    rw [Reading.given_concat, if_neg hne, List.append_nil, h.shared s' hs']

theorem option (h : Adds ts q r) (t : Setting) (ht : t.switch ∈ Switch.shared) :
    Adds (ts ++ [t]) q { r with settings := r.settings ++ [t] } where
  operands_eq := h.operands_eq
  pending_eq := h.pending_eq
  own s' hs' := by
    have hne : t.switch ≠ s' := fun heq => hs' (heq ▸ ht)
    rw [Reading.given_concat, if_neg hne, List.append_nil, h.own s' hs']
  shared s' hs' := by
    rw [Reading.given_concat, h.shared s' hs', List.filter_append]
    by_cases heq : t.switch = s'
    · simp [heq]
    · simp [heq]

theorem pending (h : Adds ts q r) (p : Option (Switch × Option String)) :
    Adds ts { q with pending := p } { r with pending := p } :=
  ⟨h.operands_eq, rfl, h.own, h.shared⟩

theorem settle (h : Adds ts q r) (hown : ∀ t ∈ q₁.settings, t.switch ∉ Switch.shared)
    (hsettle : q.settle = .ok q₁) : ∃ r₁, r.settle = .ok r₁ ∧ Adds ts q₁ r₁ := by
  rw [Reading.settle, h.pending_eq]
  unfold Reading.settle at hsettle
  split at hsettle
  · obtain rfl := Except.ok.inj hsettle
    exact ⟨r, rfl, h⟩
  · cases hsettle
  · exact (h.pending none).add hown hsettle

theorem meet (h : Adds ts q r) {attached : Option String}
    (hown : ∀ t ∈ q₁.settings, t.switch ∉ Switch.shared) (hmeet : q.meet s attached = .ok q₁) :
    ∃ r₁, r.meet s attached = .ok r₁ ∧ Adds ts q₁ r₁ := by
  obtain ⟨q', hsettle, hmeet⟩ := Json.exists_of_bind_eq_ok hmeet
  have hsubset : q'.settings ⊆ q₁.settings := by
    split_ifs at hmeet
    · cases attached with
      | some text => exact settings_subset_add hmeet
      | none => exact Except.ok.inj hmeet ▸ List.Subset.refl _
    · exact settings_subset_add hmeet
  obtain ⟨r', hsettle', h'⟩ := h.settle (fun t ht => hown t (hsubset ht)) hsettle
  rw [Reading.meet, hsettle', Json.ok_bind]
  split_ifs at hmeet ⊢
  · cases attached with
    | some text => exact h'.add hown hmeet
    | none =>
      obtain rfl := Except.ok.inj hmeet
      exact ⟨_, rfl, h'.pending _⟩
  · exact h'.add hown hmeet

theorem readOperand (h : Adds ts q r) (hown : ∀ t ∈ q₁.settings, t.switch ∉ Switch.shared)
    {divided : Bool} {arg : String} (hread : readOperand l divided q arg = .ok q₁) :
    ∃ r₁, CommandLine.readOperand l divided r arg = .ok r₁ ∧ Adds ts q₁ r₁ := by
  unfold CommandLine.readOperand at hread ⊢
  rw [h.operands_eq]
  split_ifs at hread ⊢
  obtain ⟨q', hsettle, hread⟩ := Json.exists_of_bind_eq_ok hread
  obtain rfl := Except.ok.inj hread
  have hown' : ∀ t ∈ q'.settings, t.switch ∉ Switch.shared := hown
  obtain ⟨r', hsettle', h'⟩ := h.settle hown' hsettle
  have hoperands : r'.operands ++ [arg] = q'.operands ++ [arg] :=
    congrArg (· ++ [arg]) h'.operands_eq
  exact ⟨{ r' with operands := r'.operands ++ [arg] }, by rw [Reading.operand, hsettle']; rfl,
    hoperands, h'.pending_eq, h'.own, h'.shared⟩

/-- The next argument of the command is read as if it stood alone. -/
theorem readArgument (h : Adds ts q r) (hown : ∀ t ∈ q₁.settings, t.switch ∉ Switch.shared)
    {arg : String} (hdivider : Shape.of arg ≠ .divider) (hread : readArgument l q arg = .ok q₁) :
    ∃ r₁, CommandLine.readArgument l r arg = .ok r₁ ∧ Adds ts q₁ r₁ := by
  rcases readArgument_cases hdivider hread with
    ⟨s, attached, hswitch, hmet, hmeet⟩ | ⟨hplain, ⟨s, hpending, rfl⟩ | ⟨hawaits, hoperand⟩⟩
  · obtain ⟨r₁, hmeet', h'⟩ := h.meet hown hmeet
    refine ⟨r₁, eq_ok_of_toOption ?_, h'⟩
    rw [readArgument_of_isSwitch hswitch, hmet, Option.bind_some, hmeet']
    rfl
  · exact ⟨_, readArgument_plain hplain (h.pending_eq.trans hpending), h.pending _⟩
  · rw [readArgument_operand hplain (by rwa [Reading.awaitsValue, h.pending_eq])]
    exact h.readOperand hown hoperand

theorem readLevel?_divided (h : Adds ts q r) {args : List String}
    {rest : Option (Verb × List String)}
    (hown : ∀ t ∈ q₁.settings, t.switch ∉ Switch.shared)
    (hread : readLevel? l true q args = some (q₁, rest)) :
    ∃ r₁, readLevel? l true r args = some (r₁, rest) ∧ Adds ts q₁ r₁ := by
  induction args generalizing q r with
  | nil =>
    rw [readLevel?_nil] at hread ⊢
    obtain ⟨q', hsettle, heq⟩ := Option.map_eq_some_iff.1 hread
    obtain ⟨rfl, rfl⟩ := Prod.mk.inj heq
    obtain ⟨r₁, hsettle', h'⟩ := h.settle hown (eq_ok_of_toOption hsettle)
    exact ⟨r₁, by rw [hsettle']; rfl, h'⟩
  | cons arg args ih =>
    rw [CommandLine.readLevel?_divided] at hread ⊢
    obtain ⟨q', hoperand, hread⟩ := Option.bind_eq_some_iff.1 hread
    have hsubset := settings_subset_readLevel? hread
    obtain ⟨r', hoperand', h'⟩ := h.readOperand (fun t ht => hown t (hsubset ht))
      (eq_ok_of_toOption hoperand)
    rw [hoperand']
    exact ih h' hread

end Adds

/-! ## Reading what is woven -/

/-- The arguments of a command are read as if they stood alone, and the shared switches woven into
them are set besides, if all of them can be read. -/
theorem Woven.reads {verb : Verb} {q q' r own : Reading} {args line : List String}
    {gs : List Given} {ts : List Setting} (h : Woven verb q args gs line)
    (hq : q' = q ∨ q.settle = .ok q') (hadds : Adds ts q' r)
    (hread : readLevel? (.command verb) false q' args = some (own, none))
    (hown : ∀ t ∈ own.settings, t.switch ∉ Switch.shared)
    (hnew : ∀ g ∈ gs, ∀ t ∈ ts, t.switch ≠ g.switch) (hnodup : (gs.map (·.switch)).Nodup) :
    (Readable gs ∧ ∃ r₁, readLevel? (.command verb) false r line = some (r₁, none) ∧
        Adds (ts ++ gs.filterMap Given.setting?) own r₁) ∨
      ¬ Readable gs ∧ readLevel? (.command verb) false r line = none := by
  induction h generalizing q' r ts with
  | done =>
    obtain ⟨q₁, hsettle, heq⟩ := Option.map_eq_some_iff.1 hread
    obtain rfl := congrArg Prod.fst heq
    obtain ⟨r₁, hsettle', h'⟩ := hadds.settle hown (eq_ok_of_toOption hsettle)
    refine .inl ⟨nofun, r₁, ?_, ?_⟩
    · rw [readLevel?_nil, hsettle']
      rfl
    · rwa [List.filterMap_nil, List.append_nil]
  | @option q args gs line g hawaits _ ih =>
    obtain ⟨hnewg, hnew⟩ := List.forall_mem_cons.1 hnew
    obtain ⟨hnotMem, hnodup⟩ := List.nodup_cons.1 hnodup
    -- What has been given to a switch before it is looked at when the shared switch is met.
    have hawaits' : q'.awaitsValue = false := by
      rcases hq with rfl | hsettle
      · exact hawaits
      · exact (Reading.settle_eq_ok (Reading.settle_settle hsettle)).2.2
    obtain ⟨q₁, hsettle, hread₁⟩ := exists_settle_of_readLevel? hread hawaits'
    have hq₁ : q.settle = .ok q₁ := by
      rcases hq with rfl | hq
      · exact hsettle
      · rw [hq, ← Reading.settle_settle hq, hsettle]
    have hsubset := settings_subset_readLevel? hread₁
    obtain ⟨r₁, hr, hadds₁⟩ := hadds.settle (fun t ht => hown t (hsubset ht)) hsettle
    have hhas : r₁.has g.switch = false := by
      rw [Reading.has_eq_false_iff, hadds₁.shared _ g.shared, List.filter_eq_nil_iff]
      exact fun t ht => by simpa using hnewg t ht
    rw [readLevel?_of_settle hr, readLevel?_words g (Reading.settle_eq_ok hr).1 hhas,
      readable_cons]
    cases hsetting : g.setting? with
    | none => exact .inr ⟨fun hreadable => absurd hreadable.1 (by simp), rfl⟩
    | some t =>
      have hswitch := (Given.switch_of_setting? hsetting).1
      have hfresh : ∀ g' ∈ gs, ∀ u ∈ ts ++ [t], u.switch ≠ g'.switch := by
        intro g' hg' u hu
        rcases List.mem_append.1 hu with hu | hu
        · exact hnew g' hg' u hu
        · rw [List.mem_singleton.1 hu, hswitch]
          exact fun heq => hnotMem (List.mem_map.2 ⟨g', hg', heq.symm⟩)
      have hrest := ih (.inr hq₁) (hadds₁.option t (hswitch ▸ g.shared)) hread₁ hfresh hnodup
      rw [List.append_assoc] at hrest
      simpa [hsetting] using hrest
  | @argument q q₁ arg args gs line hdivider hargument _ ih =>
    have hargument' : readArgument (.command verb) q' arg = .ok q₁ := by
      rcases hq with rfl | hsettle
      · exact hargument
      · rw [← readArgument_of_settle hsettle, hargument]
    have hread₁ : readLevel? (.command verb) false q₁ args = some (own, none) := by
      rwa [readLevel?_cons (startsCommand?_command verb q' arg) hdivider, hargument'] at hread
    have hsubset := settings_subset_readLevel? hread₁
    obtain ⟨r₁, hr, hadds₁⟩ :=
      hadds.readArgument (fun t ht => hown t (hsubset ht)) hdivider hargument'
    rw [readLevel?_cons (startsCommand?_command verb r arg) hdivider, hr]
    exact ih (.inl rfl) hadds₁ hread₁ hnew hnodup
  | divider hdivider =>
    rw [readLevel?_divider hdivider] at hread
    obtain ⟨r₁, hread₁, h'⟩ := hadds.readLevel?_divided hown hread
    refine .inl ⟨nofun, r₁, ?_, ?_⟩
    · rw [readLevel?_divider hdivider, hread₁]
    · rwa [List.filterMap_nil, List.append_nil]

theorem Woven.self {verb : Verb} {q own : Reading} {args : List String}
    (h : readLevel? (.command verb) false q args = some (own, none)) :
    Woven verb q args [] args := by
  induction args generalizing q with
  | nil => exact .done
  | cons arg args ih =>
    by_cases hdivider : Shape.of arg = .divider
    · exact .divider hdivider
    · rw [readLevel?_cons (startsCommand?_command verb q arg) hdivider] at h
      obtain ⟨q', hread, h⟩ := Option.bind_eq_some_iff.1 h
      exact .argument hdivider (eq_ok_of_toOption hread) (ih h)

theorem Woven.options {verb : Verb} {q : Reading} {args : List String}
    (h : Woven verb q args [] args) (hq : q.awaitsValue = false) (gs : List Given) :
    Woven verb q args gs (gs.flatMap Given.words ++ args) := by
  induction gs with
  | nil => exact h
  | cons g gs ih =>
    rw [List.flatMap_cons, List.append_assoc]
    exact .option g hq ih

end TopicClient.CommandLine
