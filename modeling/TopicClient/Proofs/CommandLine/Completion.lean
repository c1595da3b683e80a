import Mathlib.Data.List.Perm.Basic
import TopicClient.CommandLine.Invocation
import TopicClient.Proofs.CommandLine.Reading

/-!
# Completing what has been read

Each level of a command line is completed from the environment on its own (`Filled`), and only then
are the levels looked at together. What comes of a command line is told by its two levels as they
are read (`toOption_parse`).
-/

namespace TopicClient.CommandLine

/-! ## The environment -/

def Legible (environment : Environment) (s : Switch) : Prop :=
  ∀ text, s.environmentName?.bind environment = some text →
    (readVariable s text).toOption.isSome = true

def fromEnvironment? (environment : Environment) (s : Switch) : Option Setting :=
  (s.environmentName?.bind environment).bind fun text =>
    (readVariable s text).toOption.map fun v => ⟨s, v, true⟩

section Environment

variable {environment : Environment} {s : Switch} {r r' : Reading}

theorem switch_of_fromEnvironment? {t : Setting} (h : fromEnvironment? environment s = some t) :
    t.switch = s ∧ t.fromEnvironment = true := by
  obtain ⟨text, -, h⟩ := Option.bind_eq_some_iff.1 h
  obtain ⟨v, -, rfl⟩ := Option.map_eq_some_iff.1 h
  exact ⟨rfl, rfl⟩

theorem fill_of_has (h : r.has s = true) : r.fill environment s = .ok r := by
  rw [Reading.fill, h]
  cases s.environmentName?.bind environment <;> rfl

theorem fill_of_legible (h : r.has s = false) (hlegible : Legible environment s) :
    r.fill environment s =
      .ok { r with settings := r.settings ++ (fromEnvironment? environment s).toList } := by
  rw [Reading.fill, fromEnvironment?, h]
  cases hvariable : s.environmentName?.bind environment with
  | none => simp
  | some text =>
    obtain ⟨v, hv⟩ := Option.isSome_iff_exists.1 (hlegible text hvariable)
    simp only [Option.bind_some, eq_ok_of_toOption hv, Bool.false_eq_true, if_false]
    rfl

theorem fill_of_not_legible (h : r.has s = false) (hlegible : ¬ Legible environment s) :
    (r.fill environment s).toOption = none := by
  simp only [Legible, not_forall] at hlegible
  obtain ⟨text, hvariable, hnone⟩ := hlegible
  rw [Reading.fill, hvariable, h]
  cases hread : readVariable s text with
  | ok v =>
    rw [hread] at hnone
    exact absurd rfl hnone
  | error e =>
    simp only [hread, Bool.false_eq_true, if_false]
    rfl

theorem filter_fromEnvironment? (environment : Environment) (s s' : Switch) :
    ((fromEnvironment? environment s).toList.filter fun t => t.switch = s') =
      if s = s' then (fromEnvironment? environment s).toList else [] := by
  cases hsetting : fromEnvironment? environment s with
  | none => simp
  | some t =>
    have hswitch := (switch_of_fromEnvironment? hsetting).1
    by_cases heq : s = s'
    · simp [hswitch, heq]
    · simp [hswitch, heq]

theorem given_of_fill (h : r.fill environment s = .ok r') {s' : Switch} (hne : s ≠ s') :
    r'.given s' = r.given s' := by
  cases hhas : r.has s with
  | true =>
    rw [fill_of_has hhas] at h
    rw [Except.ok.inj h]
  | false =>
    by_cases hlegible : Legible environment s
    · rw [fill_of_legible hhas hlegible] at h
      rw [← Except.ok.inj h, Reading.given_append, filter_fromEnvironment?, if_neg hne,
        List.append_nil]
    · have hrefused := fill_of_not_legible hhas hlegible
      rw [h] at hrefused
      cases hrefused

structure Filled (environment : Environment) (switches : List Switch) (r r' : Reading) : Prop where
  operands_eq : r'.operands = r.operands
  given_eq : ∀ s, r'.given s =
    if r.given s = [] ∧ s ∈ switches then (fromEnvironment? environment s).toList else r.given s

theorem exists_filled_singleton (hlegible : Legible environment s) (r : Reading) :
    ∃ r', r.fill environment s = .ok r' ∧ Filled environment [s] r r' := by
  cases hhas : r.has s with
  | true =>
    refine ⟨r, fill_of_has hhas, rfl, fun s' => (if_neg ?_).symm⟩
    rintro ⟨hnone, hs'⟩
    rw [← List.mem_singleton.1 hs', Reading.has_eq_false_iff.2 hnone] at hhas
    cases hhas
  | false =>
    refine ⟨_, fill_of_legible hhas hlegible, rfl, fun s' => ?_⟩
    rw [Reading.given_append, filter_fromEnvironment?]
    by_cases heq : s = s'
    · subst heq
      simp [Reading.has_eq_false_iff.1 hhas]
    · simp [heq, Ne.symm heq]

theorem exists_filled {switches : List Switch} (hlegible : ∀ s ∈ switches, Legible environment s)
    (r : Reading) :
    ∃ r', switches.foldlM (Reading.fill environment) r = .ok r' ∧
      Filled environment switches r r' := by
  induction switches generalizing r with
  | nil => exact ⟨r, rfl, rfl, fun s => by simp⟩
  | cons s switches ih =>
    obtain ⟨hs, hlegible⟩ := List.forall_mem_cons.1 hlegible
    obtain ⟨r₁, hfill, hfirst⟩ := exists_filled_singleton hs r
    obtain ⟨r', hrest, hmore⟩ := ih hlegible r₁
    refine ⟨r', ?_, hmore.operands_eq.trans hfirst.operands_eq, fun s' => ?_⟩
    · rw [List.foldlM_cons, hfill]
      exact hrest
    · rw [hmore.given_eq, hfirst.given_eq]
      by_cases hnone : r.given s' = []
      · by_cases heq : s' = s
        · subst heq
          simp [hnone]
        · simp [hnone, heq]
      · simp [hnone]

/-- A variable that cannot be read is reported, unless its switch is given. -/
theorem foldlM_fill_of_not_legible {switches : List Switch} (hs : s ∈ switches)
    (hr : r.given s = []) (hlegible : ¬ Legible environment s) :
    (switches.foldlM (Reading.fill environment) r).toOption = none := by
  induction switches generalizing r with
  | nil => cases hs
  | cons s₁ switches ih =>
    rw [List.foldlM_cons, toOption_bind]
    by_cases heq : s₁ = s
    · rw [heq, fill_of_not_legible (Reading.has_eq_false_iff.2 hr) hlegible]
      rfl
    · cases hfill : r.fill environment s₁ with
      | error e => rfl
      | ok r₁ =>
        have hmem := List.mem_of_ne_of_mem (Ne.symm heq) hs
        exact ih hmem ((given_of_fill hfill heq).trans hr)

end Environment

/-! ## Levels -/

def Levels.invocation? (l : Levels) (verb : Verb) : Option Invocation :=
  (buildCommand verb l).toOption.map fun command => ⟨l.config, l.credentials, command⟩

/-- What a command line comes to, once its levels have been read; nothing if it is refused. -/
def conclude? (environment : Environment) (verb : Verb) (l : Levels) : Option Invocation :=
  (l.command.complete environment).toOption.bind fun below =>
    (l.top.complete environment).toOption.bind fun top =>
      if below.lacksPassword ∨ below.operands.length < verb.required ∨ top.lacksPassword then none
      else Levels.invocation? ⟨top, below⟩ verb

theorem complete_of_settle {r r' : Reading} (h : r.settle = .ok r') (environment : Environment) :
    r.complete environment = r'.complete environment := by
  rw [Reading.complete, Reading.complete, h, Reading.settle_settle h]

theorem complete_of_unsettled {r : Reading} (h : r.settle.toOption = none)
    (environment : Environment) : (r.complete environment).toOption = none := by
  rw [Reading.complete, toOption_bind, h]
  rfl

/-- What levels come to does not depend on when they are settled. -/
theorem conclude?_eq (environment : Environment) (verb : Verb) (l : Levels) :
    conclude? environment verb l =
      l.top.settle.toOption.bind fun top =>
        l.command.settle.toOption.bind fun below =>
          conclude? environment verb ⟨top, below⟩ := by
  unfold conclude?
  cases hbelow : l.command.settle with
  | error e =>
    have hnone : (l.command.complete environment).toOption = none :=
      complete_of_unsettled (by rw [hbelow]; rfl) environment
    rw [hnone]
    cases l.top.settle <;> rfl
  | ok below =>
    rw [complete_of_settle hbelow]
    cases htop : l.top.settle with
    | error e =>
      have hnone : (l.top.complete environment).toOption = none :=
        complete_of_unsettled (by rw [htop]; rfl) environment
      rw [hnone]
      cases (below.complete environment).toOption <;> rfl
    | ok top =>
      rw [complete_of_settle htop]
      rfl

/-- A command line comes to what its two levels come to. -/
theorem toOption_parse (environment : Environment) (args : List String) :
    (parse environment args).toOption =
      (readLevel? .top false {} args).bind fun (top, rest) =>
        rest.bind fun (verb, args) =>
          (readLevel? (.command verb) false {} args).bind fun (below, _) =>
            conclude? environment verb ⟨top, below⟩ := by
  rw [parse, toOption_bind, readLevel?, Option.bind_assoc]
  congr 1
  funext m
  obtain ⟨top, rest⟩ := m
  cases rest with
  | none =>
    simp only [toOption_bind]
    cases (top.complete environment).toOption <;> cases top.settle <;> rfl
  | some m =>
    obtain ⟨verb, args⟩ := m
    simp only [toOption_bind, Option.bind_map]
    trans (scan (.command verb) false {} args).toOption.bind fun below =>
      conclude? environment verb ⟨top, below.1⟩
    · congr 1
      funext below
      unfold conclude?
      congr 1
      funext below
      by_cases hbelow : below.lacksPassword = true ∨ below.operands.length < verb.required
      · rw [if_pos hbelow]
        cases (top.complete environment).toOption with
        | none => rfl
        | some top => exact (if_pos (hbelow.elim .inl fun h => .inr (.inl h))).symm
      · rw [if_neg hbelow, toOption_bind]
        congr 1
        funext top
        obtain ⟨hlacks, hlength⟩ := not_or.1 hbelow
        simp only [hlacks, hlength, false_or, Bool.false_eq_true]
        split_ifs with htop
        · rfl
        · rw [toOption_bind, Levels.invocation?]
          cases buildCommand verb ⟨top, below⟩ <;> rfl
    · have hconclude := fun below => conclude?_eq environment verb ⟨top, below⟩
      simp only [hconclude]
      cases top.settle with
      | error e => cases (scan (.command verb) false {} args).toOption <;> rfl
      | ok top' =>
        simp only [readLevel?, Except.toOption, Option.bind_some, Option.bind_assoc,
          Option.bind_map]
        rfl

section Settled

variable {environment : Environment} {l : Levels} (htop : l.top.pending = none)
  (hbelow : l.command.pending = none)
include htop hbelow

theorem conclude?_of_legible (hlegible : ∀ s ∈ Switch.shared, Legible environment s)
    (verb : Verb) :
    ∃ top below, Filled environment Switch.shared l.top top ∧
      Filled environment Switch.shared l.command below ∧
      conclude? environment verb l =
        if below.lacksPassword ∨ below.operands.length < verb.required ∨ top.lacksPassword then none
        else Levels.invocation? ⟨top, below⟩ verb := by
  obtain ⟨top, hfill, htop'⟩ := exists_filled hlegible l.top
  obtain ⟨below, hfill', hbelow'⟩ := exists_filled hlegible l.command
  refine ⟨top, below, htop', hbelow', ?_⟩
  rw [conclude?, Reading.complete, Reading.complete, Reading.settle_of_pending htop,
    Reading.settle_of_pending hbelow, Json.ok_bind, Json.ok_bind, hfill, hfill']
  rfl

theorem conclude?_of_not_legible {s : Switch} (hs : s ∈ Switch.shared)
    (hlegible : ¬ Legible environment s) (hgiven : l.top.given s = [] ∨ l.command.given s = [])
    (verb : Verb) : conclude? environment verb l = none := by
  rw [conclude?, Reading.complete, Reading.complete, Reading.settle_of_pending htop,
    Reading.settle_of_pending hbelow, Json.ok_bind, Json.ok_bind]
  rcases hgiven with hnone | hnone
  · rw [foldlM_fill_of_not_legible hs hnone hlegible]
    exact Option.bind_fun_none _
  · rw [foldlM_fill_of_not_legible hs hnone hlegible]
    rfl

end Settled

/-! ## Looking levels up -/

section Lookup

variable {environment : Environment} {top top' below below' : Reading}

theorem Filled.has_iff {r r' : Reading} (h : Filled environment Switch.shared r r') {s : Switch}
    (hs : s ∈ Switch.shared) :
    r'.has s = true ↔ r.given s ≠ [] ∨ (fromEnvironment? environment s).isSome = true := by
  rw [← Bool.not_eq_false, Reading.has_eq_false_iff, h.given_eq]
  by_cases hnone : r.given s = []
  · cases fromEnvironment? environment s <;> simp [hnone, hs]
  · simp [hnone]

theorem Filled.find?_of_nil {r r' : Reading} (h : Filled environment Switch.shared r r')
    {s : Switch} (hnone : r.given s = []) :
    r'.find? s = if s ∈ Switch.shared then fromEnvironment? environment s else none := by
  rw [Reading.find?_eq, h.given_eq, hnone]
  split_ifs with hs hs' hs'
  · exact Option.head?_toList
  · exact absurd hs.2 hs'
  · exact absurd ⟨rfl, hs'⟩ hs
  · rfl

theorem Filled.find?_of_cons {r r' : Reading} (h : Filled environment Switch.shared r r')
    {s : Switch} {t : Setting} {ts : List Setting} (hsome : r.given s = t :: ts) :
    r'.find? s = some t := by
  rw [Reading.find?_eq, h.given_eq, if_neg (by simp [hsome]), hsome, List.head?_cons]

/-- Of a shared switch what is given counts, and then the environment. -/
theorem find?_of_shared (hbelow : Filled environment Switch.shared below below')
    (htop : Filled environment Switch.shared top top') {s : Switch} (hs : s ∈ Switch.shared)
    (hgiven : ∀ t ∈ below.given s ++ top.given s, t.fromEnvironment = false) :
    Levels.find? ⟨top', below'⟩ s =
      ((below.given s ++ top.given s).head?.or (fromEnvironment? environment s)).map (·.value) := by
  have hfilter : (fromEnvironment? environment s).filter (fun t => !t.fromEnvironment) = none := by
    rw [Option.filter_eq_none_iff]
    exact fun t ht => by simp [(switch_of_fromEnvironment? ht).2]
  simp only [Levels.find?]
  cases hb : below.given s with
  | cons t ts =>
    have ht : t.fromEnvironment = false := hgiven t (by simp [hb])
    rw [hbelow.find?_of_cons hb, Option.filter_some, ht]
    rfl
  | nil =>
    rw [hbelow.find?_of_nil hb, if_pos hs, hfilter]
    cases ha : top.given s with
    | cons t ts =>
      have ht : t.fromEnvironment = false := hgiven t (by simp [hb, ha])
      rw [htop.find?_of_cons ha, Option.filter_some, ht]
      rfl
    | nil =>
      rw [htop.find?_of_nil ha, if_pos hs, hfilter]
      simp

theorem find?_of_own (hbelow : Filled environment Switch.shared below below')
    (htop : Filled environment Switch.shared top top') {s : Switch} (hs : s ∉ Switch.shared)
    (hnone : top.given s = []) :
    Levels.find? ⟨top', below'⟩ s = (below.given s).head?.map (·.value) := by
  have hfind : below'.find? s = (below.given s).head? := by
    rw [Reading.find?_eq, hbelow.given_eq, if_neg fun h => hs h.2]
  simp only [Levels.find?, hfind, htop.find?_of_nil hnone, if_neg hs]
  cases (below.given s).head? with
  | none => rfl
  | some t =>
    rw [Option.filter_some]
    cases t.fromEnvironment <;> rfl

theorem texts_eq (l : Levels) (s : Switch) :
    l.texts s = (l.command.given s).filterMap fun t =>
      match t.value with
      | .text text => some text
      | _ => none := by
  rw [Levels.texts, Reading.given, List.filterMap_filter]
  congr 1
  funext t
  cases t.value <;> simp

end Lookup

/-- Levels in which every switch is found to be the same come to the same. -/
theorem invocation_congr {l l' : Levels} (hfind : ∀ s, l.find? s = l'.find? s)
    (hoperands : l.command.operands = l'.command.operands)
    (htexts : l.texts .topic = l'.texts .topic) (verb : Verb) :
    l.config = l'.config ∧ l.credentials = l'.credentials ∧
      buildCommand verb l = buildCommand verb l' := by
  have htext : ∀ s, l.text? s = l'.text? s := fun s => by rw [Levels.text?, Levels.text?, hfind]
  have hnumber : ∀ s, l.number? s = l'.number? s := fun s => by
    rw [Levels.number?, Levels.number?, hfind]
  have hbyte : ∀ s, l.byte? s = l'.byte? s := fun s => by rw [Levels.byte?, Levels.byte?, hfind]
  have hflag : ∀ s, l.flag s = l'.flag s := fun s => by rw [Levels.flag, Levels.flag, hfind]
  refine ⟨?_, ?_, ?_⟩
  · rw [Levels.config, Levels.config, htext, hnumber, hflag]
  · rw [Levels.credentials, Levels.credentials, htext, htext]
  · unfold buildCommand
    simp only [hoperands, htext, hnumber, hbyte, htexts]

theorem exists_buildCommand {verb : Verb} {l : Levels}
    (h : verb.required ≤ l.command.operands.length) :
    ∃ command, buildCommand verb l = .ok command := by
  unfold buildCommand
  match verb, l.command.operands, h with
  | .login, _ :: _ :: _, _ => exact ⟨_, rfl⟩
  | .publish, _ :: _, _ => exact ⟨_, rfl⟩
  | .logout, _, _ | .info, _, _ | .listen, _, _ | .demo, _, _ => exact ⟨_, rfl⟩

end TopicClient.CommandLine
