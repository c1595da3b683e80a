import TopicClient.Message.Session
import TopicClient.Proofs.Message.Fields
import TopicClient.Proofs.Message.Schema

/-!
# The text of a session

A session is described by an object that names its user and its level, and perhaps its end, or by an
array of these. `SessionText` says which texts describe which session. There are no other texts from
which a session is read: `parse_eq_ok_iff` says that a body is read exactly if it is one of them,
with nothing but blanks around it.
-/

namespace TopicClient

namespace Session

open Json Message

def Field.Gives : Field → Spelling Session
  | .user, t, v => QuotedText t v.user
  | .authLevel, t, v =>
    IntegerText (-9223372036854775808) 9223372036854775807 t v.authLevel
  | .validUntil, t, v =>
    IntegerText (-9223372036854775808) 9223372036854775807 t v.validUntil

/-- A session has the value of a field that is not given. Only the end may be missing. -/
def Field.Lacks : Field → Session → Prop
  | .user, _ | .authLevel, _ => False
  | .validUntil, v => v.validUntil = 0

def Field.named? (key : String) : Option Field := Field.all.find? fun f => key = f.name

inductive SessionText : Spelling Session
  | object {ms : List (String × List Char)} {s : List Char} {v : Session}
      (hs : ObjectText KeyText ms s) (hothers : OthersAreValues Field.named? ms)
      (hv : Describes Field.Gives Field.Lacks (fieldTexts Field.named? ms) v) : SessionText s v
  | array {ts : List (List Char)} {s : List Char} {v : Session} (hs : ArrayText ts s)
      (hmin : 2 ≤ ts.length) (hmax : ts.length ≤ 3)
      (hv : Describes Field.Gives Field.Lacks (Field.all.zip ts) v) : SessionText s v

namespace Partial

def put (p : Partial) (v : Session) : Field → Partial
  | .user => { p with user := v.user }
  | .authLevel => { p with authLevel := v.authLevel }
  | .validUntil => { p with validUntil := v.validUntil }

/-- A session has the value of a field that a record has. An end that is missing is 0. -/
def Holds (p : Partial) (v : Session) : Field → Prop
  | .user => p.user = some v.user
  | .authLevel => p.authLevel = some v.authLevel
  | .validUntil => v.validUntil = p.validUntil.getD 0

end Partial

section Records

variable {p : Partial} {v v' : Session} {f g : Field} {t : List Char}

theorem Field.ofKey?_eq_named? (key : String) : Field.ofKey? key = Field.named? key := by
  simp only [Field.ofKey?, Field.named?, Field.all, Field.name, List.find?_cons, List.find?_nil]
  split_ifs with huser hlevel huntil
  · rw [huser]
    rfl
  · rw [hlevel]
    rfl
  · rw [huntil]
    rfl
  · simp only [huser, hlevel, huntil, decide_false]

theorem Partial.toOption_complete_eq_some_iff :
    p.complete.toOption = some v ↔ p.complete = .ok v := by
  cases p.complete with
  | ok w => exact ⟨fun h => congrArg Except.ok (Option.some.inj h), fun h => by cases h; rfl⟩
  | error f => exact ⟨nofun, nofun⟩

theorem Partial.complete_eq_ok_iff : p.complete = .ok v ↔ ∀ f, p.Holds v f := by
  obtain ⟨user, authLevel, validUntil⟩ := p
  constructor
  · intro h f
    cases user with
    | none => cases h
    | some user =>
      cases authLevel with
      | none => cases h
      | some authLevel =>
        cases h
        cases f <;> rfl
  · intro h
    obtain rfl : user = some v.user := h .user
    obtain rfl : authLevel = some v.authLevel := h .authLevel
    have huntil : v.validUntil = validUntil.getD 0 := h .validUntil
    simp only [Partial.complete, ← huntil]

theorem reads_readInt64 :
    Reads readInt64 (IntegerText (-9223372036854775808) 9223372036854775807) :=
  reads_readIntegerField (by omega) (by omega) "i64"

theorem reads_readField (p : Partial) (f : Field) :
    Reads (readField p f) fun t q => ∃ v, f.Gives t v ∧ p.put v f = q := by
  cases f with
  | user =>
    exact reads_readTextField.field (fun u => { p with user := u }) Session.user
      fun u => ⟨⟨u, 0, 0⟩, rfl⟩
  | authLevel =>
    exact reads_readInt64.field (fun i => { p with authLevel := i }) Session.authLevel
      fun i => ⟨⟨"", i, 0⟩, rfl⟩
  | validUntil =>
    exact reads_readInt64.field (fun i => { p with validUntil := i }) Session.validUntil
      fun i => ⟨⟨"", 0, i⟩, rfl⟩

theorem Partial.holds_put_of_ne (h : g ≠ f) : (p.put v' f).Holds v g ↔ p.Holds v g := by
  cases f <;> cases g <;> first | exact absurd rfl h | exact Iff.rfl

theorem Field.gives_of_holds_put (ht : f.Gives t v') (h : (p.put v' f).Holds v f) :
    f.Gives t v := by
  cases f with
  | user =>
    have heq : v'.user = v.user := Option.some.inj h
    simp only [Field.Gives, ← heq]
    exact ht
  | authLevel =>
    have heq : v'.authLevel = v.authLevel := Option.some.inj h
    simp only [Field.Gives, ← heq]
    exact ht
  | validUntil =>
    have heq : v.validUntil = v'.validUntil := h
    simp only [Field.Gives, heq]
    exact ht

def schema : Schema Field Partial Session where
  all := Field.all
  named? := Field.named?
  Gives := Field.Gives
  Lacks := Field.Lacks
  empty := {}
  has := Partial.has
  put := Partial.put
  complete? p := p.complete.toOption
  Holds := Partial.Holds
  readField := readField
  nodup_all := by decide
  has_empty f := by cases f <;> rfl
  has_put p v f g := by cases f <;> cases g <;> rfl
  holds_empty_iff {v f} := by cases f <;> simp [Partial.Holds, Field.Lacks]
  holds_put_self p v f := by cases f <;> rfl
  holds_put_of_ne := Partial.holds_put_of_ne
  gives_of_holds_put := Field.gives_of_holds_put
  complete?_eq_some_iff :=
    Partial.toOption_complete_eq_some_iff.trans Partial.complete_eq_ok_iff
  reads_readField := reads_readField

end Records

theorem finishes (missing : Field → List Char → Failure) : schema.Finishes fun p s =>
    match p.complete with
    | .ok v => return (v, s)
    | .error f => .error (missing f s) := by
  intro p s v r
  have hcomplete : schema.complete? p = p.complete.toOption := rfl
  simp only [hcomplete]
  cases p.complete with
  | ok w =>
    constructor
    · intro h
      cases h
      exact ⟨rfl, rfl⟩
    · rintro ⟨hw, rfl⟩
      cases hw
      rfl
  | error f => exact ⟨nofun, nofun⟩

theorem readMembers_succ (fuel : ℕ) (first : Bool) (p : Partial) :
    readMembers (fuel + 1) first p = schema.memberTurn
      (fun p s =>
        match p.complete with
        | .ok v => return (v, s)
        | .error f => .error (.before (.missingField f.name) s))
      (fun f s => .before (.duplicateField f.name) (afterObject s)) (readMembers fuel false) first
        p := by
  have hnamed : schema.named? = Field.ofKey? := (funext Field.ofKey?_eq_named?).symm
  funext s
  rw [readMembers, Schema.memberTurn, hnamed]
  refine congrArg (nextKey first s >>= ·) (funext fun next => ?_)
  cases next with
  | close r => rfl
  | item r =>
    refine congrArg (readString r >>= ·) (funext fun x => ?_)
    obtain ⟨key, r⟩ := x
    cases hkey : Field.ofKey? key with
    | none => simp only [hkey]
    | some f =>
      simp only [hkey]
      rfl

theorem readsRecord : ReadsRecord schema readMembers readElements read where
  members_zero := nofun
  members_succ := ⟨_, _, finishes _, readMembers_succ⟩
  elements_nil := ⟨_, finishes fun f s => .before (tooShort f) s, fun _ _ _ => rfl⟩
  elements_cons := ⟨_, finishes fun f s => .before (tooShort f) s, fun _ _ _ _ => rfl⟩
  read_eq := ⟨"struct SessionInfo", fun _ => rfl⟩

section Sessions

variable {t : List Char} {v : Session}

/-- The level is the second element of an array, so there are at least two. -/
theorem two_le_of_describes {ts : List (List Char)}
    (hv : Describes Field.Gives Field.Lacks (Field.all.zip ts) v) : 2 ≤ ts.length := by
  by_contra hlt
  refine hv.lacks .authLevel ?_
  match ts, hlt with
  | [], _ => decide
  | [t], _ => exact nofun
  | _ :: _ :: _, hlt => simp only [List.length_cons] at hlt; omega

theorem text_iff : schema.Text t v ↔ SessionText t v := by
  constructor
  · rintro (⟨hs, hothers, hv⟩ | ⟨hs, hmax, hv⟩)
    · exact .object hs hothers hv
    · exact .array hs (two_le_of_describes hv) hmax hv
  · rintro (⟨hs, hothers, hv⟩ | ⟨hs, _, hmax, hv⟩)
    · exact .object hs hothers hv
    · exact .array hs hmax hv

theorem reads_read : Reads read SessionText := readsRecord.reads.congr fun _ _ => text_iff

/-- A body is read as a session if, and only if, it describes it and holds nothing else. -/
theorem parse_eq_ok_iff {body : String} :
    parse body = .ok v ↔ Document SessionText body.toList v := reads_read.readText_eq_ok_iff

example : (parse " \x7b\"authlevel\":-1,\"since\":1e999,\"user\":\"\\u00e9\"\x7d\n").toOption =
    some ⟨"é", -1, 0⟩ := by decide +kernel

end Sessions

end Session

end TopicClient
