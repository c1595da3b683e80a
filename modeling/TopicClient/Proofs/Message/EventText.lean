import TopicClient.Proofs.Message.Fields
import TopicClient.Proofs.Message.Schema

/-!
# The text of an event

An event is written as an object or as an array. `EventText` says which texts spell which event:
the texts of its fields, each given at most once, give the event (`Describes`); in an object, what
stands under other names only has to be a value. `reads_read` says that events are read from
exactly these texts, and `parseBatch_eq_ok_iff` that a batch is read from exactly the arrays of
them.
-/

namespace TopicClient

namespace Event

open Json Message

def fieldTexts (ms : List (String × List Char)) : List (Field × List Char) :=
  ms.filterMap fun m => (Field.named? m.1).map fun f => (f, m.2)

def OthersAreValues (ms : List (String × List Char)) : Prop :=
  ∀ m ∈ ms, Field.named? m.1 = none → ValueSyntax m.2

structure Describes (n : ℕ) (gs : List (Field × List Char)) (e : Event) : Prop where
  once : (gs.map Prod.fst).Nodup
  gives : ∀ g ∈ gs, g.1.Gives n g.2 e
  lacks : ∀ f, f ∉ gs.map Prod.fst → f.Lacks e

inductive EventText (n : ℕ) : Spelling Event
  | object {ms : List (String × List Char)} {s : List Char} {e : Event}
      (hs : ObjectText KeyText ms s) (hothers : OthersAreValues ms)
      (he : Describes n (fieldTexts ms) e) : EventText n s e
  | array {ts : List (List Char)} {s : List Char} {e : Event} (hs : ArrayText ts s)
      (hmin : 3 ≤ ts.length) (hmax : ts.length ≤ 7) (he : Describes n (Field.all.zip ts) e) :
      EventText n s e

def BatchText (n : ℕ) (s : List Char) (es : List Event) : Prop :=
  ∃ b ts u b', Blanks b ∧ Blanks b' ∧ ArrayText ts u ∧ List.Forall₂ (EventText n) ts es ∧
    s = b ++ (u ++ b')

section Records

variable {n : ℕ} {p : Partial} {gs : List (Field × List Char)} {e : Event}

def schema (n : ℕ) : Schema Field Partial Event where
  all := Field.all
  named? := Field.named?
  Gives f t e := f.Gives n t e
  Lacks f e := f.Lacks e
  empty := {}
  has := Partial.has
  put := Partial.put
  complete? := Partial.complete
  Holds := Partial.Holds
  readField := readField (n + 1)
  nodup_all := by decide
  has_empty f := by cases f <;> rfl
  has_put _ _ _ _ := Partial.has_put
  holds_empty_iff := Partial.holds_empty_iff
  holds_put_self _ _ _ := Partial.holds_put_self
  holds_put_of_ne := Partial.holds_put_of_ne
  gives_of_holds_put := Field.gives_of_holds_put
  complete?_eq_some_iff := Partial.complete_eq_some_iff
  reads_readField := reads_readField n

theorem describes_iff :
    Message.Describes (schema n).Gives (schema n).Lacks gs e ↔ Describes n gs e :=
  ⟨fun h => ⟨h.once, h.gives, h.lacks⟩, fun h => ⟨h.once, h.gives, h.lacks⟩⟩

theorem exists_complete_iff : (∃ e, p.complete = some e) ↔ p.has .topic = true := by
  unfold Partial.complete Partial.has
  cases p.topic with
  | none => exact ⟨nofun, nofun⟩
  | some topic => exact ⟨fun _ => rfl, fun _ => ⟨_, rfl⟩⟩

theorem exists_completes_iff :
    (∃ e, (schema n).Completes p gs e) ↔
      (gs.map Prod.fst).Nodup ∧ (∀ f ∈ gs.map Prod.fst, p.has f = false) ∧
        (∀ g ∈ gs, ∃ e, g.1.Gives n g.2 e) ∧ (.topic ∈ gs.map Prod.fst ∨ p.has .topic = true) := by
  induction gs generalizing p with
  | nil =>
    have hnil : (∃ e, (schema n).Completes p [] e) ↔ p.has .topic = true :=
      (exists_congr fun _ => Schema.completes_nil_iff).trans exists_complete_iff
    rw [hnil]
    exact ⟨fun h => ⟨List.nodup_nil, nofun, nofun, .inr h⟩, fun h => h.2.2.2.resolve_left nofun⟩
  | cons g gs ih =>
    obtain ⟨f, t⟩ := g
    constructor
    · rintro ⟨e, he⟩
      obtain ⟨_, _, _, htopic⟩ := (@ih (p.put e f)).1 ⟨e, he.tail.2.2⟩
      refine ⟨he.once, he.fresh, fun g hg => ⟨e, he.gives g hg⟩, ?_⟩
      rw [Partial.has_put, Bool.or_eq_true, decide_eq_true_eq] at htopic
      rw [List.map_cons, List.mem_cons]
      tauto
    · rintro ⟨honce, hfresh, hgives, htopic⟩
      obtain ⟨hnew, honce⟩ := List.nodup_cons.1 honce
      obtain ⟨hf, hfresh⟩ := List.forall_mem_cons.1 hfresh
      obtain ⟨⟨e', ht⟩, hgives⟩ := List.forall_mem_cons.1 hgives
      have hput : ∀ g ∈ gs.map Prod.fst, (p.put e' f).has g = false := by
        intro g hg
        have hne : g ≠ f := fun heq => hnew (heq ▸ hg)
        rw [Partial.has_put, decide_eq_false hne, Bool.false_or]
        exact hfresh g hg
      obtain ⟨e, he⟩ : ∃ e, (schema n).Completes (p.put e' f) gs e := by
        refine ih.2 ⟨honce, hput, hgives, ?_⟩
        rw [Partial.has_put, Bool.or_eq_true, decide_eq_true_eq]
        rw [List.map_cons, List.mem_cons] at htopic
        tauto
      exact ⟨e, Schema.Completes.cons hf ht he⟩

/-- Whether fields describe an event depends on each of their texts alone, on the names, and on
there being a topic. -/
theorem exists_describes_iff :
    (∃ e, Describes n gs e) ↔ (gs.map Prod.fst).Nodup ∧ .topic ∈ gs.map Prod.fst ∧
      ∀ g ∈ gs, ∃ e, g.1.Gives n g.2 e := by
  have hempty : (∃ e, Describes n gs e) ↔ ∃ e, (schema n).Completes {} gs e :=
    exists_congr fun _ => describes_iff.symm.trans Schema.completes_empty_iff.symm
  rw [hempty, exists_completes_iff]
  constructor
  · rintro ⟨honce, _, hgives, htopic⟩
    exact ⟨honce, htopic.resolve_right nofun, hgives⟩
  · rintro ⟨honce, htopic, hgives⟩
    refine ⟨honce, fun f _ => ?_, hgives, .inl htopic⟩
    cases f <;> rfl

end Records

theorem finishes (n : ℕ) (missing : List Char → Failure) : (schema n).Finishes fun p s =>
    match p.complete with
    | some e => return (e, s)
    | none => .error (missing s) := by
  intro p s e r
  have hcomplete : (schema n).complete? p = p.complete := rfl
  simp only [hcomplete]
  cases p.complete with
  | some e' =>
    constructor
    · intro h
      cases h
      exact ⟨rfl, rfl⟩
    · rintro ⟨he, rfl⟩
      cases he
      rfl
  | none => exact ⟨nofun, nofun⟩

theorem readMembers_succ (n fuel : ℕ) (first : Bool) (p : Partial) :
    readMembers (n + 1) (fuel + 1) first p = (schema n).memberTurn
      (fun p s =>
        match p.complete with
        | some e => return (e, s)
        | none => .error (.before (.missingField Field.topic.name) s))
      (fun f s => .before (.duplicateField f.name) (afterObject s))
      (readMembers (n + 1) fuel false) first p := by
  have hnamed : (schema n).named? = Field.ofKey? := (funext Field.ofKey?_eq_named?).symm
  funext s
  rw [readMembers, Schema.memberTurn, hnamed]
  refine congrArg (nextKey first s >>= ·) (funext fun next => ?_)
  cases next with
  | close r => rfl
  | item r =>
    refine congrArg (readString r >>= ·) (funext fun x => ?_)
    obtain ⟨key, r⟩ := x
    cases hkey : Field.ofKey? key with
    | none => simp only [hkey]
    | some f =>
      simp only [hkey]
      rfl

/-- An event is read as a record. -/
theorem readsRecord (n : ℕ) :
    ReadsRecord (schema n) (readMembers (n + 1)) (readElements (n + 1)) (read (n + 2)) where
  members_zero := nofun
  members_succ := ⟨_, _, finishes n _, readMembers_succ n⟩
  elements_nil :=
    ⟨_, finishes n fun s => .before (.missingField Field.topic.name) s, fun _ _ _ => rfl⟩
  elements_cons :=
    ⟨_, finishes n fun s => .before (.invalidLength 2 "struct Event with 7 elements") s,
      fun _ _ _ _ => rfl⟩
  read_eq := ⟨"struct Event", fun _ => rfl⟩

section Events

variable {n : ℕ} {t : List Char} {e : Event}

/-- The topic is the third element of an array, so there are at least three. -/
theorem three_le_of_describes {ts : List (List Char)} (he : Describes n (Field.all.zip ts) e) :
    3 ≤ ts.length := by
  by_contra hlt
  have hlacks : Field.topic.Lacks e := by
    apply he.lacks
    match ts, hlt with
    | [], _ => decide
    | [t], _ => exact nofun
    | [t, t'], _ => exact nofun
    | _ :: _ :: _ :: _, hlt => simp only [List.length_cons] at hlt; omega
  exact hlacks

theorem text_iff : (schema n).Text t e ↔ EventText n t e := by
  constructor
  · rintro (⟨hs, hothers, he⟩ | ⟨hs, hmax, he⟩)
    · exact .object hs hothers (describes_iff.1 he)
    · have he := describes_iff.1 he
      exact .array hs (three_le_of_describes he) hmax he
  · rintro (⟨hs, hothers, he⟩ | ⟨hs, _, hmax, he⟩)
    · exact .object hs hothers (describes_iff.2 he)
    · exact .array hs hmax (describes_iff.2 he)

theorem reads_read (n : ℕ) : Reads (read (n + 2)) (EventText n) :=
  (readsRecord n).reads.congr fun _ _ => text_iff

theorem EventText.begins (ht : EventText n t e) : Begins t := (reads_read n).begins ht

end Events

section Batches

variable {s r : List Char} {es : List Event} {body : String}

/-- The text of a batch is what its elements are read from. -/
theorem batchText_iff {n : ℕ} (hs : skipBlanks s = '[' :: r) :
    BatchText n s es ↔ ∃ r',
      Json.readElements (read (n + 2)) (r.length + 1) true r = .ok (es, r') ∧ Blanks r' := by
  constructor
  · rintro ⟨b, ts, _, b', hb, hb', ⟨u, hu, rfl⟩, hes, rfl⟩
    rw [List.cons_append, skipBlanks_append_cons hb rfl] at hs
    obtain rfl := (List.cons.inj hs).2
    have hfuel := hu.length_lt_append (ne_nil_of_forall₂ EventText.begins hes) b'
    exact ⟨b', Json.readElements_append (reads_read n) hu hes hfuel b', hb'⟩
  · rintro ⟨b', hread, hb'⟩
    obtain ⟨b, hb, rfl⟩ := exists_blanks_of_skipBlanks_eq hs
    obtain ⟨ts, u, hu, hes, rfl⟩ := Json.exists_items_of_readElements (reads_read n) hread
    exact ⟨b, ts, _, b', hb, hb', ⟨u, hu, rfl⟩, hes, rfl⟩

theorem parseBatch_eq_of_array (hbody : skipBlanks body.toList = '[' :: r) :
    parseBatch body = readText readBatch body := by
  have hnot : ¬ Text.isAllBlank body = true := by
    intro hblank
    obtain ⟨b, _, hs⟩ := exists_blanks_of_skipBlanks_eq hbody
    have hbracket := List.all_eq_true.1 hblank '[' (by rw [hs]; simp)
    exact absurd hbracket (by decide)
  rw [parseBatch, if_neg hnot]

theorem parseBatch_iff_readElements (hbody : skipBlanks body.toList = '[' :: r) :
    parseBatch body = .ok es ↔ ∃ r',
      Json.readElements (read (125 + 2)) (r.length + 1) true r = .ok (es, r') ∧ Blanks r' := by
  have hbatch : readBatch body.toList =
      Json.readElements (read (125 + 2)) (r.length + 1) true r := by
    rw [readBatch, hbody]
    rfl
  rw [parseBatch_eq_of_array hbody, readText_eq_ok_iff, hbatch]

theorem BatchText.exists_bracket {n : ℕ} (h : BatchText n s es) : ∃ r, skipBlanks s = '[' :: r := by
  obtain ⟨b, ts, _, b', hb, _, ⟨u, _, rfl⟩, _, rfl⟩ := h
  exact ⟨u ++ b', skipBlanks_append_cons hb rfl _⟩

theorem parseBatch_eq_of_batchText (h : BatchText 125 body.toList es) :
    parseBatch body = .ok es := by
  obtain ⟨r, hbody⟩ := h.exists_bracket
  exact (parseBatch_iff_readElements hbody).2 ((batchText_iff hbody).1 h)

theorem batchText_of_parseBatch_eq (hbody : skipBlanks body.toList = '[' :: r)
    (h : parseBatch body = .ok es) : BatchText 125 body.toList es :=
  (batchText_iff hbody).2 ((parseBatch_iff_readElements hbody).1 h)

/-- A body with an array at its start is read as a batch if, and only if, it is an array of
events with nothing but blanks around it. -/
theorem parseBatch_eq_ok_iff (hbracket : (skipBlanks body.toList).head? = some '[') :
    parseBatch body = .ok es ↔ BatchText 125 body.toList es := by
  obtain ⟨r, hbody⟩ := List.head?_eq_some_iff.1 hbracket
  exact ⟨batchText_of_parseBatch_eq hbody, parseBatch_eq_of_batchText⟩

/-- A body with an element of each shape, the other name of the topic, an escaped character, and a
number out of range in a member that is no field. -/
def twoShapes : String := " [[7,0,\"t\"],\x7b\"x\":[1e999],\"Topic\":\"\\u00e9\"\x7d ]\n"

theorem batchText_twoShapes :
    ∃ es, BatchText 125 twoShapes.toList es ∧
      es.map (fun e => (e.id, e.topic, e.authLevel)) = [(7, "t", 0), (0, "é", 0)] := by
  have hbracket : (skipBlanks twoShapes.toList).head? = some '[' := by decide +kernel
  have hfields : (parseBatch twoShapes).toOption.map
      (List.map fun e => (e.id, e.topic, e.authLevel)) = some [(7, "t", 0), (0, "é", 0)] := by
    decide +kernel
  cases hread : parseBatch twoShapes with
  | error e =>
    rw [hread] at hfields
    cases hfields
  | ok es =>
    rw [hread] at hfields
    exact ⟨es, (parseBatch_eq_ok_iff hbracket).1 hread, Option.some.inj hfields⟩

end Batches

end Event

end TopicClient
