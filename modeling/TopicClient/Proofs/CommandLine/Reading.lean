import TopicClient.CommandLine.Scan
import TopicClient.Proofs.Json.Layout

/-!
# Reading a level

A level is read to its end, its last switch included, or refused (`readLevel?`). What has been given
to a switch is looked at only later, but nothing depends on when: a reading may be settled at any
time, unless its last switch still waits for a value (`readLevel?_of_settle`). A reading that cannot
be settled is refused in the end, whatever follows (`readLevel?_of_unsettled`).
-/

namespace TopicClient.CommandLine

theorem toOption_bind {ε α β : Type} (x : Except ε α) (f : α → Except ε β) :
    (x >>= f).toOption = x.toOption.bind fun a => (f a).toOption := by
  cases x <;> rfl

theorem eq_ok_of_toOption {ε α : Type} {x : Except ε α} {a : α} (h : x.toOption = some a) :
    x = .ok a := by
  cases x with
  | error e => cases h
  | ok b => exact congrArg Except.ok (Option.some.inj h)

/-- What a level is read as, with the command that begins below it; nothing if it is refused. -/
def readLevel? (l : Level) (divided : Bool) (r : Reading) (args : List String) :
    Option (Reading × Option (Verb × List String)) :=
  (scan l divided r args).toOption.bind fun (r, rest) => r.settle.toOption.map fun r => (r, rest)

namespace Reading

variable {r r' : Reading} {s : Switch}

def given (r : Reading) (s : Switch) : List Setting := r.settings.filter fun t => t.switch = s

theorem find?_eq (r : Reading) (s : Switch) : r.find? s = (r.given s).head? := by
  rw [find?, given, List.head?_filter]

theorem has_eq_false_iff : r.has s = false ↔ r.given s = [] := by
  rw [has, find?_eq, Option.isSome_eq_false_iff, Option.isNone_iff_eq_none, List.head?_eq_none_iff]

theorem has_congr {q : Reading} (h : r.given s = q.given s) : r.has s = q.has s := by
  rw [has, has, find?_eq, find?_eq, h]

theorem given_append (r : Reading) (ts : List Setting) (s : Switch) :
    { r with settings := r.settings ++ ts }.given s =
      r.given s ++ ts.filter fun t => t.switch = s := by
  rw [given, List.filter_append]
  rfl

theorem given_concat (r : Reading) (t : Setting) (s : Switch) :
    { r with settings := r.settings ++ [t] }.given s =
      r.given s ++ if t.switch = s then [t] else [] := by
  rw [given_append]
  by_cases h : t.switch = s
  · simp [h]
  · simp [h]

theorem awaitsValue_iff : r.awaitsValue = true ↔ ∃ s, r.pending = some (s, none) := by
  rw [awaitsValue]
  rcases r.pending with - | ⟨s, - | text⟩ <;> simp

theorem settle_of_pending (h : r.pending = none) : r.settle = .ok r := by
  rw [settle, h]

theorem add_eq_ok {s : Switch} {value : Except NumberError Value} {text : String}
    (h : r.add s value text = .ok r') :
    (r.has s && !s.repeats) = false ∧
      ∃ v, value = .ok v ∧ r' = { r with settings := r.settings ++ [⟨s, v, false⟩] } := by
  unfold add at h
  split_ifs at h with hrepeated
  cases value with
  | error cause => cases h
  | ok v => exact ⟨Bool.eq_false_iff.2 hrepeated, v, rfl, (Except.ok.inj h).symm⟩

theorem add_of_ok {s : Switch} {v : Value} (text : String)
    (h : (r.has s && !s.repeats) = false) :
    r.add s (.ok v) text = .ok { r with settings := r.settings ++ [⟨s, v, false⟩] } := by
  rw [add, h]
  rfl

theorem settle_eq_ok (h : r.settle = .ok r') :
    r'.pending = none ∧ r'.operands = r.operands ∧ r.awaitsValue = false := by
  unfold settle at h
  split at h
  · next hpending =>
    obtain rfl := Except.ok.inj h
    exact ⟨hpending, rfl, by rw [awaitsValue, hpending]⟩
  · cases h
  · next s text hpending =>
    obtain ⟨-, v, -, rfl⟩ := add_eq_ok h
    exact ⟨rfl, rfl, by rw [awaitsValue, hpending]⟩

/-- Settling a reading once more changes nothing. -/
theorem settle_settle (h : r.settle = .ok r') : r'.settle = .ok r' :=
  settle_of_pending (settle_eq_ok h).1

theorem pending_ne_of_awaitsValue (hawaits : r.awaitsValue = false) (s : Switch) :
    r.pending ≠ some (s, none) := by
  intro hpending
  rw [awaitsValue_iff.2 ⟨s, hpending⟩] at hawaits
  cases hawaits

end Reading

section Steps

variable {l : Level} {r r' : Reading} {arg : String}

theorem readOperand_of_settle (h : r.settle = .ok r') (divided : Bool) :
    readOperand l divided r arg = readOperand l divided r' arg := by
  rw [readOperand, readOperand, Reading.operand, Reading.operand, h, Reading.settle_settle h,
    (Reading.settle_eq_ok h).2.1]

theorem meet_of_settle (h : r.settle = .ok r') (s : Switch) (attached : Option String) :
    r.meet s attached = r'.meet s attached := by
  rw [Reading.meet, Reading.meet, h, Reading.settle_settle h]

theorem answer_of_settle (h : r.settle = .ok r') (answer : Refusal) :
    r.answer answer = r'.answer answer := by
  rw [Reading.answer, Reading.answer, h, Reading.settle_settle h]

/-- An argument that does not look like a switch is the value that the last switch waits for, or
else an operand. -/
theorem readArgument_plain {s : Switch} (hshape : Shape.of arg = .plain)
    (hr : r.pending = some (s, none)) :
    readArgument l r arg = .ok { r with pending := some (s, some arg) } := by
  simp only [readArgument, hshape, hr]

theorem readArgument_operand (hshape : Shape.of arg = .plain) (hr : r.awaitsValue = false) :
    readArgument l r arg = readOperand l false r arg := by
  unfold readArgument
  rw [hshape]
  simp only
  split
  · next s hpending => exact absurd hpending (Reading.pending_ne_of_awaitsValue hr s)
  · rfl

/-- A reading may be settled before an argument is read. -/
theorem readArgument_of_settle (h : r.settle = .ok r') :
    readArgument l r arg = readArgument l r' arg := by
  have hoperand : readOperand l false r arg = readOperand l false r' arg :=
    readOperand_of_settle h false
  unfold readArgument
  split
  · simp only [readLong, meet_of_settle h, answer_of_settle h]
  · simp only [readShort, meet_of_settle h, answer_of_settle h]
  all_goals
    rw [(Reading.settle_eq_ok h).1]
    split
    · next s hpending =>
      exact absurd hpending (Reading.pending_ne_of_awaitsValue (Reading.settle_eq_ok h).2.2 s)
    · exact hoperand

end Steps

/-! ## Switches -/

def Shape.met? (l : Level) : Shape → Option (Switch × Option String)
  | .long name attached =>
    (l.findLong? name).bind fun s =>
      if attached.isNone || s.takesValue then some (s, attached) else none
  | .short letter rest => (l.findShort? letter).map fun s => (s, attachedToLetter rest)
  | .divider | .plain => none

def Shape.isSwitch : Shape → Bool
  | .long _ _ | .short _ _ => true
  | .divider | .plain => false

section Switches

variable {l : Level} {r r' : Reading} {arg : String}

theorem toOption_answer (r : Reading) (answer : Refusal) : (r.answer answer).toOption = none := by
  rw [Reading.answer, toOption_bind]
  cases r.settle <;> rfl

/-- An argument that looks like a switch is one that is known, or is refused. -/
theorem readArgument_of_isSwitch (h : (Shape.of arg).isSwitch = true) :
    (readArgument l r arg).toOption =
      ((Shape.of arg).met? l).bind fun m => (r.meet m.1 m.2).toOption := by
  unfold readArgument
  cases hshape : Shape.of arg with
  | divider | plain =>
    rw [hshape] at h
    cases h
  | long name attached =>
    simp only [readLong, Shape.met?]
    cases l.findLong? name with
    | some s =>
      cases attached with
      | none => rfl
      | some value =>
        simp only [Option.isNone_some, Bool.false_or, Option.bind_some]
        split_ifs <;> rfl
    | none =>
      simp only
      split_ifs
      · cases attached with
        | none => exact toOption_answer _ _
        | some value => rfl
      · cases attached with
        | none => exact toOption_answer _ _
        | some value => rfl
      · rfl
  | short letter rest =>
    simp only [readShort, Shape.met?]
    cases l.findShort? letter with
    | some s => rfl
    | none =>
      simp only
      split_ifs
      · exact toOption_answer _ _
      · exact toOption_answer _ _
      · rfl

/-- An argument is a switch, the value that one waits for, or an operand. -/
theorem readArgument_cases (hdivider : Shape.of arg ≠ .divider)
    (h : readArgument l r arg = .ok r') :
    (∃ s attached, (Shape.of arg).isSwitch = true ∧
        (Shape.of arg).met? l = some (s, attached) ∧ r.meet s attached = .ok r') ∨
      Shape.of arg = .plain ∧
        ((∃ s, r.pending = some (s, none) ∧ r' = { r with pending := some (s, some arg) }) ∨
          r.awaitsValue = false ∧ readOperand l false r arg = .ok r') := by
  have hread : (readArgument l r arg).toOption = some r' := by rw [h]; rfl
  cases hswitch : (Shape.of arg).isSwitch with
  | true =>
    rw [readArgument_of_isSwitch hswitch] at hread
    obtain ⟨⟨s, attached⟩, hmet, hmeet⟩ := Option.bind_eq_some_iff.1 hread
    exact .inl ⟨s, attached, rfl, hmet, eq_ok_of_toOption hmeet⟩
  | false =>
    have hplain : Shape.of arg = .plain := by
      cases hshape : Shape.of arg with
      | plain => rfl
      | divider => exact absurd hshape hdivider
      | long name attached => simp [hshape, Shape.isSwitch] at hswitch
      | short letter rest => simp [hshape, Shape.isSwitch] at hswitch
    refine .inr ⟨hplain, ?_⟩
    cases hawaits : r.awaitsValue with
    | false =>
      rw [readArgument_operand hplain hawaits] at h
      exact .inr ⟨rfl, h⟩
    | true =>
      obtain ⟨s, hpending⟩ := Reading.awaitsValue_iff.1 hawaits
      rw [readArgument_plain hplain hpending] at h
      exact .inl ⟨s, hpending, (Except.ok.inj h).symm⟩

end Switches

/-! ## Refusals -/

section Refusals

variable {l : Level} {r r' : Reading} {arg : String} (h : r.settle.toOption = none)
include h

theorem meet_of_unsettled (s : Switch) (attached : Option String) :
    (r.meet s attached).toOption = none := by
  rw [Reading.meet, toOption_bind, h]
  rfl

theorem readOperand_of_unsettled (divided : Bool) :
    (readOperand l divided r arg).toOption = none := by
  unfold readOperand
  split_ifs
  · rw [Reading.operand, toOption_bind, h]
    rfl
  · rfl

theorem readArgument_of_unsettled (harg : r.awaitsValue = false ∨ Shape.of arg ≠ .plain)
    (hdivider : Shape.of arg ≠ .divider) : (readArgument l r arg).toOption = none := by
  cases hread : readArgument l r arg with
  | error e => rfl
  | ok r' =>
    rcases readArgument_cases hdivider hread with
      ⟨s, attached, -, -, hmeet⟩ | ⟨hplain, ⟨s, hpending, -⟩ | ⟨-, hoperand⟩⟩
    · have hrefused := meet_of_unsettled h s attached
      rw [hmeet] at hrefused
      cases hrefused
    · have hawaits := harg.resolve_right (not_not_intro hplain)
      exact absurd hpending (Reading.pending_ne_of_awaitsValue hawaits s)
    · have hrefused : (readOperand l false r arg).toOption = none :=
        readOperand_of_unsettled h false
      rw [hoperand] at hrefused
      cases hrefused

end Refusals

/-! ## Levels -/

section Levels

variable {l : Level} {r r' : Reading} {arg : String} {args : List String}

theorem readLevel?_nil (l : Level) (divided : Bool) (r : Reading) :
    readLevel? l divided r [] = r.settle.toOption.map fun r => (r, none) :=
  rfl

theorem pending_of_readLevel? {divided : Bool} {rest : Option (Verb × List String)}
    (h : readLevel? l divided r args = some (r', rest)) : r'.pending = none := by
  obtain ⟨m, -, hmap⟩ := Option.bind_eq_some_iff.1 h
  obtain ⟨r₁, hsettle, heq⟩ := Option.map_eq_some_iff.1 hmap
  obtain rfl : r₁ = r' := congrArg Prod.fst heq
  exact (Reading.settle_eq_ok (eq_ok_of_toOption hsettle)).1

/-- Behind a divider everything is an operand. -/
theorem readLevel?_divided (l : Level) (r : Reading) (arg : String) (args : List String) :
    readLevel? l true r (arg :: args) =
      (readOperand l true r arg).toOption.bind fun r => readLevel? l true r args := by
  rw [readLevel?, scan, if_pos rfl, toOption_bind, Option.bind_assoc]
  rfl

theorem startsCommand?_of_shape (r : Reading) (h : Shape.of arg ≠ .plain) :
    startsCommand? l r arg = none := by
  have hhelp : arg ≠ "help" := by
    rintro rfl
    exact h (by decide +kernel)
  have hverb : Verb.ofName? arg = none := by
    cases hname : Verb.ofName? arg with
    | none => rfl
    | some verb =>
      have hfind : Verb.all.find? (fun v => v.name = arg) = some verb := hname
      obtain rfl : verb.name = arg := by simpa using List.find?_some hfind
      have hplain : Shape.of verb.name = .plain := by cases verb <;> decide +kernel
      exact absurd hplain h
  rw [startsCommand?, if_neg hhelp, hverb]
  exact ite_self _

theorem startsCommand?_command (verb : Verb) (r : Reading) (arg : String) :
    startsCommand? (.command verb) r arg = none :=
  if_neg nofun

theorem startsCommand?_of_awaitsValue (h : r.awaitsValue = true) :
    startsCommand? l r arg = none := by
  rw [startsCommand?, h]
  exact if_neg fun hstarts => Bool.false_ne_true hstarts.2

theorem readLevel?_divider (h : Shape.of arg = .divider) :
    readLevel? l false r (arg :: args) = readLevel? l true r args := by
  have hstarts := startsCommand?_of_shape (l := l) r (h ▸ nofun : Shape.of arg ≠ .plain)
  rw [readLevel?, scan, if_neg Bool.false_ne_true, hstarts]
  simp only [if_pos h]
  rfl

theorem readLevel?_cons (hstarts : startsCommand? l r arg = none)
    (hdivider : Shape.of arg ≠ .divider) :
    readLevel? l false r (arg :: args) =
      (readArgument l r arg).toOption.bind fun r => readLevel? l false r args := by
  rw [readLevel?, scan, if_neg Bool.false_ne_true, hstarts]
  simp only [if_neg hdivider]
  rw [toOption_bind, Option.bind_assoc]
  rfl

theorem readLevel?_command {verb : Verb} (h : startsCommand? l r arg = some (some verb)) :
    readLevel? l false r (arg :: args) =
      r.settle.toOption.map fun r => (r, some (verb, args)) := by
  rw [readLevel?, scan, if_neg Bool.false_ne_true, h]
  rfl

theorem readLevel?_help (h : startsCommand? l r arg = some none) :
    readLevel? l false r (arg :: args) = none := by
  rw [readLevel?, scan, if_neg Bool.false_ne_true, h]
  rfl

/-- A reading that cannot be settled is refused in the end, if its last switch has its value or
no switch can have one any more. -/
theorem readLevel?_of_unsettled (h : r.settle.toOption = none) {divided : Bool}
    (hr : divided = true ∨ r.awaitsValue = false) (args : List String) :
    readLevel? l divided r args = none := by
  have hdivided : ∀ args, readLevel? l true r args = none := by
    intro args
    cases args with
    | nil => rw [readLevel?_nil, h, Option.map_none]
    | cons arg args => rw [readLevel?_divided, readOperand_of_unsettled h, Option.bind_none]
  rcases hr with rfl | hawaits
  · exact hdivided args
  cases divided with
  | true => exact hdivided args
  | false =>
    cases args with
    | nil => rw [readLevel?_nil, h, Option.map_none]
    | cons arg args =>
      rcases hstarts : startsCommand? l r arg with - | - | verb
      · by_cases hdivider : Shape.of arg = .divider
        · rw [readLevel?_divider hdivider, hdivided]
        · rw [readLevel?_cons hstarts hdivider,
            readArgument_of_unsettled h (.inl hawaits) hdivider, Option.bind_none]
      · exact readLevel?_help hstarts
      · rw [readLevel?_command hstarts, h, Option.map_none]

/-- A reading may be settled at any time. -/
theorem readLevel?_of_settle (h : r.settle = .ok r') (divided : Bool) (args : List String) :
    readLevel? l divided r args = readLevel? l divided r' args := by
  have hsettle := Reading.settle_settle h
  have hdivided : ∀ args, readLevel? l true r args = readLevel? l true r' args := by
    intro args
    cases args with
    | nil => rw [readLevel?_nil, readLevel?_nil, h, hsettle]
    | cons arg args => rw [readLevel?_divided, readLevel?_divided, readOperand_of_settle h]
  cases divided with
  | true => exact hdivided args
  | false =>
    cases args with
    | nil => rw [readLevel?_nil, readLevel?_nil, h, hsettle]
    | cons arg args =>
      have hstarts' : startsCommand? l r arg = startsCommand? l r' arg := by
        rw [startsCommand?, startsCommand?, (Reading.settle_eq_ok h).2.2,
          (Reading.settle_eq_ok hsettle).2.2]
      rcases hstarts : startsCommand? l r arg with - | - | verb
      all_goals rw [hstarts] at hstarts'
      · by_cases hdivider : Shape.of arg = .divider
        · rw [readLevel?_divider hdivider, readLevel?_divider hdivider, hdivided]
        · rw [readLevel?_cons hstarts hdivider, readLevel?_cons hstarts'.symm hdivider,
            readArgument_of_settle h]
      · rw [readLevel?_help hstarts, readLevel?_help hstarts'.symm]
      · rw [readLevel?_command hstarts, readLevel?_command hstarts'.symm, h, hsettle]

theorem exists_settle_of_readLevel? {result : Reading × Option (Verb × List String)}
    (h : readLevel? l false r args = some result) (hawaits : r.awaitsValue = false) :
    ∃ r', r.settle = .ok r' ∧ readLevel? l false r' args = some result := by
  cases hsettle : r.settle with
  | ok r' => exact ⟨r', rfl, readLevel?_of_settle hsettle false args ▸ h⟩
  | error e =>
    have hunsettled : r.settle.toOption = none := by
      rw [hsettle]
      rfl
    rw [readLevel?_of_unsettled hunsettled (.inr hawaits)] at h
    cases h

end Levels

end TopicClient.CommandLine
