import Mathlib.Data.List.Nodup
import TopicClient.Message.Decoding
import TopicClient.Proofs.Json.Document

/-!
# Records

A message is read field by field into a record of what has come. A `Schema` is what there is to know
about such a record: which names its fields have, which texts give them, and how they are put into
it. A reader of records (`ReadsRecord`) goes through the members of an object, or the elements of an
array, one at a time. `ReadsRecord.reads` says that it reads exactly the texts of the schema, in
which no field is given twice and those that are given, with what stands for the others, make up a
message.
-/

namespace TopicClient.Message

open Json

section Languages

variable {F α : Type}

def fieldTexts (named? : String → Option F) (ms : List (String × List Char)) :
    List (F × List Char) :=
  ms.filterMap fun m => (named? m.1).map fun f => (f, m.2)

def OthersAreValues (named? : String → Option F) (ms : List (String × List Char)) : Prop :=
  ∀ m ∈ ms, named? m.1 = none → ValueSyntax m.2

structure Describes (Gives : F → Spelling α) (Lacks : F → α → Prop) (gs : List (F × List Char))
    (v : α) : Prop where
  once : (gs.map Prod.fst).Nodup
  gives : ∀ g ∈ gs, Gives g.1 g.2 v
  lacks : ∀ f, f ∉ gs.map Prod.fst → Lacks f v

variable {named? : String → Option F} {key : String} {ms : List (String × List Char)}

theorem fieldTexts_cons_of_none (hkey : named? key = none) (t : List Char) :
    fieldTexts named? ((key, t) :: ms) = fieldTexts named? ms := by
  simp only [fieldTexts, List.filterMap_cons, hkey, Option.map_none]

theorem fieldTexts_cons_of_some {f : F} (hkey : named? key = some f) (t : List Char) :
    fieldTexts named? ((key, t) :: ms) = (f, t) :: fieldTexts named? ms := by
  simp only [fieldTexts, List.filterMap_cons, hkey, Option.map_some]

end Languages

/-- The fields of an `α`, and a record of type `P` of those that have been read. -/
structure Schema (F P α : Type) [DecidableEq F] where
  /-- The fields in the order in which an array gives them. -/
  all : List F
  /-- The field that a key stands for. -/
  named? : String → Option F
  /-- The texts that give a field the value it has in an `α`. -/
  Gives : F → Spelling α
  /-- An `α` has the value that stands for a field which is not given. -/
  Lacks : F → α → Prop
  empty : P
  has : P → F → Bool
  /-- The record with a field as it is in an `α`. -/
  put : P → α → F → P
  complete? : P → Option α
  /-- An `α` has the value of a field that a record has, or the one that stands for its absence. -/
  Holds : P → α → F → Prop
  readField : P → F → Reader P
  nodup_all : all.Nodup
  has_empty : ∀ f, has empty f = false
  has_put : ∀ p v f g, has (put p v f) g = (decide (g = f) || has p g)
  holds_empty_iff : ∀ {v f}, Holds empty v f ↔ Lacks f v
  holds_put_self : ∀ p v f, Holds (put p v f) v f
  holds_put_of_ne : ∀ {p v v' f g}, g ≠ f → (Holds (put p v' f) v g ↔ Holds p v g)
  gives_of_holds_put : ∀ {p v v' f t}, Gives f t v' → Holds (put p v' f) v f → Gives f t v
  complete?_eq_some_iff : ∀ {p v}, complete? p = some v ↔ ∀ f, Holds p v f
  reads_readField : ∀ p f, Reads (readField p f) fun t q => ∃ v, Gives f t v ∧ put p v f = q

namespace Schema

variable {F P α : Type} [DecidableEq F]

/-- An object of the fields and other members, or an array of the first of them. -/
inductive Text (S : Schema F P α) : Spelling α
  | object {ms : List (String × List Char)} {s : List Char} {v : α} (hs : ObjectText KeyText ms s)
      (hothers : OthersAreValues S.named? ms)
      (hv : Describes S.Gives S.Lacks (fieldTexts S.named? ms) v) : S.Text s v
  | array {ts : List (List Char)} {s : List Char} {v : α} (hs : ArrayText ts s)
      (hmax : ts.length ≤ S.all.length) (hv : Describes S.Gives S.Lacks (S.all.zip ts) v) :
      S.Text s v

structure Completes (S : Schema F P α) (p : P) (gs : List (F × List Char)) (v : α) : Prop where
  once : (gs.map Prod.fst).Nodup
  fresh : ∀ f ∈ gs.map Prod.fst, S.has p f = false
  gives : ∀ g ∈ gs, S.Gives g.1 g.2 v
  holds : ∀ f, f ∉ gs.map Prod.fst → S.Holds p v f

section Records

variable {S : Schema F P α} {p : P} {gs : List (F × List Char)} {v v' : α} {f : F} {t : List Char}

theorem completes_nil_iff : S.Completes p [] v ↔ S.complete? p = some v := by
  rw [S.complete?_eq_some_iff]
  constructor
  · intro h f
    exact h.holds f List.not_mem_nil
  · intro h
    exact ⟨List.nodup_nil, nofun, nofun, fun f _ => h f⟩

theorem completes_empty_iff : S.Completes S.empty gs v ↔ Describes S.Gives S.Lacks gs v := by
  constructor
  · intro h
    exact ⟨h.once, h.gives, fun f hf => S.holds_empty_iff.1 (h.holds f hf)⟩
  · intro h
    exact ⟨h.once, fun f _ => S.has_empty f, h.gives,
      fun f hf => S.holds_empty_iff.2 (h.lacks f hf)⟩

/-- A field is given, and the others complete the record in which it has been put. -/
theorem Completes.cons (hfresh : S.has p f = false) (ht : S.Gives f t v')
    (h : S.Completes (S.put p v' f) gs v) : S.Completes p ((f, t) :: gs) v := by
  have hput : ∀ g ∈ gs.map Prod.fst, g ≠ f ∧ S.has p g = false := by
    intro g hg
    have hhas := h.fresh g hg
    rw [S.has_put, Bool.or_eq_false_iff, decide_eq_false_iff_not] at hhas
    exact hhas
  have hnew : f ∉ gs.map Prod.fst := fun hf => (hput f hf).1 rfl
  refine ⟨List.nodup_cons.2 ⟨hnew, h.once⟩, ?_, ?_, ?_⟩
  · exact List.forall_mem_cons.2 ⟨hfresh, fun g hg => (hput g hg).2⟩
  · exact List.forall_mem_cons.2 ⟨S.gives_of_holds_put ht (h.holds f hnew), h.gives⟩
  · intro g hg
    obtain ⟨hne, hg⟩ := not_or.1 (mt List.mem_cons.2 hg)
    exact (S.holds_put_of_ne hne).1 (h.holds g hg)

theorem Completes.tail (h : S.Completes p ((f, t) :: gs) v) :
    S.has p f = false ∧ S.Gives f t v ∧ S.Completes (S.put p v f) gs v := by
  have honce := List.nodup_cons.1 h.once
  refine ⟨h.fresh f List.mem_cons_self, h.gives (f, t) List.mem_cons_self, honce.2, ?_, ?_, ?_⟩
  · intro g hg
    have hne : g ≠ f := fun heq => honce.1 (heq ▸ hg)
    rw [S.has_put, decide_eq_false hne, Bool.false_or]
    exact h.fresh g (List.mem_cons_of_mem _ hg)
  · intro g hg
    exact h.gives g (List.mem_cons_of_mem _ hg)
  · intro g hg
    by_cases heq : g = f
    · rw [heq]
      exact S.holds_put_self p v f
    · refine (S.holds_put_of_ne heq).2 (h.holds g ?_)
      exact fun hmem => (List.mem_cons.1 hmem).elim heq hg

end Records

end Schema

section Steps

variable {F P α : Type} [DecidableEq F]

/-- What is done at the end of a record: the message is returned if the record is complete. -/
def Schema.Finishes (S : Schema F P α) (finish : P → Reader α) : Prop :=
  ∀ p s v r, finish p s = .ok (v, r) ↔ S.complete? p = some v ∧ s = r

/-- One turn of a reader of members, with what it does at the bracket that closes the object, and
what it reports of a field that has been given before. -/
def Schema.memberTurn (S : Schema F P α) (finish : P → Reader α)
    (duplicate : F → List Char → Failure) (loop : P → Reader α) (first : Bool) (p : P) :
    Reader α := fun s => do
  match ← nextKey first s with
  | .close r => finish p r
  | .item r =>
    let (key, r) ← readString r
    match S.named? key with
    | none => loop p (← skipValue (← readColon r))
    | some f =>
      if S.has p f then .error (duplicate f r)
      else
        let (q, r) ← S.readField p f (← readColon r)
        loop q r

def Schema.elementTurn (S : Schema F P α) (finish : P → Reader α) (loop : P → Reader α) (f : F)
    (first : Bool) (p : P) : Reader α := fun s => do
  match ← nextElement first s with
  | .close r => finish p r
  | .item r =>
    let (q, r) ← S.readField p f r
    loop q r

structure ReadsRecord (S : Schema F P α) (members : ℕ → Bool → P → Reader α)
    (elements : List F → Bool → P → Reader α) (read : Reader α) : Prop where
  members_zero : ∀ {first p s v r}, members 0 first p s ≠ .ok (v, r)
  members_succ : ∃ finish duplicate, S.Finishes finish ∧ ∀ fuel first p,
    members (fuel + 1) first p = S.memberTurn finish duplicate (members fuel false) first p
  elements_nil : ∃ finish, S.Finishes finish ∧ ∀ first p s,
    elements [] first p s = do finish p (← closeArray s)
  elements_cons : ∃ finish, S.Finishes finish ∧ ∀ f fs first p,
    elements (f :: fs) first p = S.elementTurn finish (elements fs false) f first p
  read_eq : ∃ expected, ∀ s, read s =
    match skipBlanks s with
    | [] => .error (.before .endInValue [])
    | '[' :: r => elements S.all true S.empty r
    | '\x7b' :: r => members (r.length + 1) true S.empty r
    | r => .error (wrongType expected r)

/-- What a turn of a reader of members comes to: the end, a member of another name, or a field that
has not been given before. -/
inductive MemberStep (S : Schema F P α) (loop : P → Reader α) (first : Bool) (p : P)
    (s : List Char) (v : α) (r : List Char) : Prop
  | close (hnext : nextKey first s = .ok (.close r)) (hv : S.complete? p = some v)
  | other {s₁ s₂ s₃ s₄ : List Char} {key : String} (hnext : nextKey first s = .ok (.item s₁))
      (hkey : readString s₁ = .ok (key, s₂)) (hnamed : S.named? key = none)
      (hcolon : readColon s₂ = .ok s₃) (hskip : skipValue s₃ = .ok s₄)
      (hrest : loop p s₄ = .ok (v, r))
  | field {s₁ s₂ s₃ s₄ : List Char} {key : String} {f : F} {q : P}
      (hnext : nextKey first s = .ok (.item s₁)) (hkey : readString s₁ = .ok (key, s₂))
      (hnamed : S.named? key = some f) (hfresh : S.has p f = false)
      (hcolon : readColon s₂ = .ok s₃) (hfield : S.readField p f s₃ = .ok (q, s₄))
      (hrest : loop q s₄ = .ok (v, r))

inductive ElementStep (S : Schema F P α) (loop : P → Reader α) (f : F) (first : Bool) (p : P)
    (s : List Char) (v : α) (r : List Char) : Prop
  | close (hnext : nextElement first s = .ok (.close r)) (hv : S.complete? p = some v)
  | field {s₁ s₂ : List Char} {q : P} (hnext : nextElement first s = .ok (.item s₁))
      (hfield : S.readField p f s₁ = .ok (q, s₂)) (hrest : loop q s₂ = .ok (v, r))

variable {S : Schema F P α} {finish : P → Reader α} {duplicate : F → List Char → Failure}
  {loop : P → Reader α} {f : F} {first : Bool} {p : P} {s r : List Char} {v : α}

theorem memberTurn_eq_ok_iff (hfinish : S.Finishes finish) :
    S.memberTurn finish duplicate loop first p s = .ok (v, r) ↔
      MemberStep S loop first p s v r := by
  constructor
  · intro h
    obtain ⟨next, hnext, h⟩ := exists_of_bind_eq_ok h
    cases next with
    | close r' =>
      obtain ⟨hv, rfl⟩ := (hfinish _ _ _ _).1 h
      exact .close hnext hv
    | item s₁ =>
      obtain ⟨⟨key, s₂⟩, hkey, h⟩ := exists_of_bind_eq_ok h
      simp only at h
      split at h
      · rename_i hnamed
        obtain ⟨s₃, hcolon, h⟩ := exists_of_bind_eq_ok h
        obtain ⟨s₄, hskip, h⟩ := exists_of_bind_eq_ok h
        exact .other hnext hkey hnamed hcolon hskip h
      · rename_i f hnamed
        split_ifs at h with hhas
        obtain ⟨s₃, hcolon, h⟩ := exists_of_bind_eq_ok h
        obtain ⟨⟨q, s₄⟩, hfield, h⟩ := exists_of_bind_eq_ok h
        exact .field hnext hkey hnamed (Bool.eq_false_iff.2 hhas) hcolon hfield h
  · intro h
    rw [Schema.memberTurn]
    cases h with
    | close hnext hv =>
      simp only [hnext, ok_bind]
      exact (hfinish _ _ _ _).2 ⟨hv, rfl⟩
    | other hnext hkey hnamed hcolon hskip hrest =>
      simp only [hnext, ok_bind, hkey, hnamed, hcolon, hskip, hrest]
    | field hnext hkey hnamed hfresh hcolon hfield hrest =>
      simp only [hnext, ok_bind, hkey, hnamed, hfresh, hcolon, hfield, hrest, Bool.false_eq_true,
        if_false]

theorem elementTurn_eq_ok_iff (hfinish : S.Finishes finish) :
    S.elementTurn finish loop f first p s = .ok (v, r) ↔
      ElementStep S loop f first p s v r := by
  constructor
  · intro h
    obtain ⟨next, hnext, h⟩ := exists_of_bind_eq_ok h
    cases next with
    | close r' =>
      obtain ⟨hv, rfl⟩ := (hfinish _ _ _ _).1 h
      exact .close hnext hv
    | item s₁ =>
      obtain ⟨⟨q, s₂⟩, hfield, h⟩ := exists_of_bind_eq_ok h
      exact .field hnext hfield h
  · intro h
    rw [Schema.elementTurn]
    cases h with
    | close hnext hv =>
      simp only [hnext, ok_bind]
      exact (hfinish _ _ _ _).2 ⟨hv, rfl⟩
    | field hnext hfield hrest => simp only [hnext, ok_bind, hfield, hrest]

end Steps

section Brackets

variable {s r : List Char}

theorem exists_blanks_of_closeArray (h : closeArray s = .ok r) :
    ∃ b, Blanks b ∧ s = b ++ ']' :: r := by
  unfold closeArray at h
  split at h
  · cases h
  · rename_i r' hs
    cases h
    exact exists_blanks_of_skipBlanks_eq hs
  · split at h
    · cases h
    · cases h
  · cases h

theorem closeArray_append {b : List Char} (hb : Blanks b) (r : List Char) :
    closeArray (b ++ ']' :: r) = .ok r := by
  rw [closeArray, skipBlanks_append_cons hb rfl]
  rfl

end Brackets

namespace ReadsRecord

variable {F P α : Type} [DecidableEq F] {S : Schema F P α} {members : ℕ → Bool → P → Reader α}
  {elements : List F → Bool → P → Reader α} {read : Reader α} {fuel : ℕ} {first : Bool} {p : P}
  {f : F} {fs : List F} {s t u r : List Char} {v : α} {ms : List (String × List Char)}
  {ts : List (List Char)}

theorem members_succ_iff (hr : ReadsRecord S members elements read) :
    members (fuel + 1) first p s = .ok (v, r) ↔
      MemberStep S (members fuel false) first p s v r := by
  obtain ⟨finish, duplicate, hfinish, hturn⟩ := hr.members_succ
  rw [hturn, memberTurn_eq_ok_iff hfinish]

theorem elements_nil_iff (hr : ReadsRecord S members elements read) :
    elements [] first p s = .ok (v, r) ↔ closeArray s = .ok r ∧ S.complete? p = some v := by
  obtain ⟨finish, hfinish, hturn⟩ := hr.elements_nil
  rw [hturn]
  constructor
  · intro h
    obtain ⟨r', hclose, h⟩ := exists_of_bind_eq_ok h
    obtain ⟨hv, rfl⟩ := (hfinish _ _ _ _).1 h
    exact ⟨hclose, hv⟩
  · rintro ⟨hclose, hv⟩
    rw [hclose, ok_bind]
    exact (hfinish _ _ _ _).2 ⟨hv, rfl⟩

theorem elements_cons_iff (hr : ReadsRecord S members elements read) :
    elements (f :: fs) first p s = .ok (v, r) ↔
      ElementStep S (elements fs false) f first p s v r := by
  obtain ⟨finish, hfinish, hturn⟩ := hr.elements_cons
  rw [hturn, elementTurn_eq_ok_iff hfinish]

theorem read_eq_ok_iff (hr : ReadsRecord S members elements read) : read s = .ok (v, r) ↔
    (∃ s', skipBlanks s = '[' :: s' ∧ elements S.all true S.empty s' = .ok (v, r)) ∨
      ∃ s', skipBlanks s = '\x7b' :: s' ∧
        members (s'.length + 1) true S.empty s' = .ok (v, r) := by
  obtain ⟨expected, hread⟩ := hr.read_eq
  rw [hread]
  constructor
  · intro h
    split at h
    · cases h
    · rename_i s' hs
      exact .inl ⟨s', hs, h⟩
    · rename_i s' hs
      exact .inr ⟨s', hs, h⟩
    · cases h
  · rintro (⟨s', hs, h⟩ | ⟨s', hs, h⟩)
    · rw [hs]
      exact h
    · rw [hs]
      exact h

theorem exists_items_of_members (hr : ReadsRecord S members elements read)
    (h : members fuel first p s = .ok (v, r)) :
    ∃ ms ts u, Items '\x7d' first ts u ∧ List.Forall₂ (MemberText KeyText) ms ts ∧
      OthersAreValues S.named? ms ∧ S.Completes p (fieldTexts S.named? ms) v ∧ s = u ++ r := by
  induction fuel generalizing first p s with
  | zero => exact absurd h hr.members_zero
  | succ fuel ih =>
    cases hr.members_succ_iff.1 h with
    | close hnext hv =>
      obtain ⟨b, hb, rfl⟩ := eq_of_nextKey_eq_close hnext
      refine ⟨[], [], _, .close hb, .nil, nofun, Schema.completes_nil_iff.2 hv, ?_⟩
      rw [List.append_assoc]
      rfl
    | @other _ _ _ _ key hnext hkey hnamed hcolon hskip hrest =>
      obtain ⟨q, hq, rfl⟩ := exists_separator_of_nextKey hnext
      obtain ⟨k, hk, rfl⟩ := readString_eq_ok_iff.1 hkey
      obtain ⟨b, hb, rfl⟩ := exists_blanks_of_readColon hcolon
      obtain ⟨b', t, hb', ht, rfl⟩ := skips_skipValue.sound hskip
      obtain ⟨ms, ts, u, hu, hms, hothers, hcomplete, rfl⟩ := ih hrest
      refine ⟨(key, t) :: ms, _, _, .item hq hu, .cons (.mk hk hb hb') hms, ?_, ?_, ?_⟩
      · exact List.forall_mem_cons.2 ⟨fun _ => ht, hothers⟩
      · rw [fieldTexts_cons_of_none hnamed]
        exact hcomplete
      · simp only [List.append_assoc, List.cons_append]
    | @field _ _ _ _ key f _ hnext hkey hnamed hfresh hcolon hfield hrest =>
      obtain ⟨q, hq, rfl⟩ := exists_separator_of_nextKey hnext
      obtain ⟨k, hk, rfl⟩ := readString_eq_ok_iff.1 hkey
      obtain ⟨b, hb, rfl⟩ := exists_blanks_of_readColon hcolon
      obtain ⟨b', t, hb', ⟨v', ht, rfl⟩, rfl⟩ := (S.reads_readField p f).sound hfield
      obtain ⟨ms, ts, u, hu, hms, hothers, hcomplete, rfl⟩ := ih hrest
      refine ⟨(key, t) :: ms, _, _, .item hq hu, .cons (.mk hk hb hb') hms, ?_, ?_, ?_⟩
      · refine List.forall_mem_cons.2 ⟨fun hnone => ?_, hothers⟩
        rw [hnamed] at hnone
        cases hnone
      · rw [fieldTexts_cons_of_some hnamed]
        exact hcomplete.cons hfresh ht
      · simp only [List.append_assoc, List.cons_append]

theorem members_append (hr : ReadsRecord S members elements read) (hu : Items '\x7d' first ts u)
    (hms : List.Forall₂ (MemberText KeyText) ms ts) (hothers : OthersAreValues S.named? ms)
    (hv : S.Completes p (fieldTexts S.named? ms) v) (hfuel : ts.length < fuel) (r : List Char) :
    members fuel first p (u ++ r) = .ok (v, r) := by
  induction hu generalizing ms p fuel with
  | close hb =>
    cases hms
    cases fuel with
    | zero => cases hfuel
    | succ fuel =>
      rw [List.append_assoc, List.singleton_append]
      exact hr.members_succ_iff.2 (.close (nextKey_close hb r) (Schema.completes_nil_iff.1 hv))
  | @item first q m u ts hq hu ih =>
    cases hms with
    | cons hm hms =>
      cases hm with
      | @mk key k b b' t hk hb hb' =>
        cases fuel with
        | zero => cases hfuel
        | succ fuel =>
          obtain ⟨hother, hothers⟩ := List.forall_mem_cons.1 hothers
          have hfuel := Nat.lt_of_succ_lt_succ hfuel
          have hends : Ends (u ++ r) := hu.ends (.inr rfl) r
          have hkey : readString (k ++ '"' :: (b ++ ':' :: (b' ++ (t ++ (u ++ r))))) =
              .ok (key, b ++ ':' :: (b' ++ (t ++ (u ++ r)))) := readString_eq_ok_iff.2 ⟨k, hk, rfl⟩
          simp only [List.append_assoc, List.cons_append]
          refine hr.members_succ_iff.2 ?_
          cases hnamed : S.named? key with
          | none =>
            rw [fieldTexts_cons_of_none hnamed] at hv
            exact .other (nextKey_item hq _) hkey hnamed (readColon_append hb _)
              (skipValue_append hb' (hother hnamed) hends) (ih hms hothers hv hfuel)
          | some f =>
            rw [fieldTexts_cons_of_some hnamed] at hv
            obtain ⟨hfresh, ht, hv⟩ := hv.tail
            exact .field (nextKey_item hq _) hkey hnamed hfresh (readColon_append hb _)
              ((S.reads_readField p f).complete hb' ⟨v, ht, rfl⟩ hends) (ih hms hothers hv hfuel)

theorem exists_items_of_elements (hr : ReadsRecord S members elements read)
    (hfresh : ∀ f ∈ fs, S.has p f = false) (hfs : fs.Nodup)
    (h : elements fs first p s = .ok (v, r)) :
    ∃ ts u, Items ']' first ts u ∧ ts.length ≤ fs.length ∧ S.Completes p (fs.zip ts) v ∧
      s = u ++ r := by
  induction fs generalizing first p s with
  | nil =>
    obtain ⟨hclose, hv⟩ := hr.elements_nil_iff.1 h
    obtain ⟨b, hb, rfl⟩ := exists_blanks_of_closeArray hclose
    refine ⟨[], _, .close hb, Nat.le_refl 0, Schema.completes_nil_iff.2 hv, ?_⟩
    rw [List.append_assoc]
    rfl
  | cons f fs ih =>
    cases hr.elements_cons_iff.1 h with
    | close hnext hv =>
      obtain ⟨b, hb, rfl⟩ := eq_of_nextElement_eq_close hnext
      refine ⟨[], _, .close hb, Nat.zero_le _, Schema.completes_nil_iff.2 hv, ?_⟩
      rw [List.append_assoc]
      rfl
    | field hnext hfield hrest =>
      obtain ⟨q, hq, rfl⟩ := exists_separator_of_nextElement hnext
      obtain ⟨b, t, hb, ⟨v', ht, rfl⟩, rfl⟩ := (S.reads_readField p f).sound hfield
      obtain ⟨hf, hfresh⟩ := List.forall_mem_cons.1 hfresh
      obtain ⟨hnew, hfs⟩ := List.nodup_cons.1 hfs
      have hput : ∀ g ∈ fs, S.has (S.put p v' f) g = false := by
        intro g hg
        have hne : g ≠ f := fun heq => hnew (heq ▸ hg)
        rw [S.has_put, decide_eq_false hne, Bool.false_or]
        exact hfresh g hg
      obtain ⟨ts, u, hu, hlen, hcomplete, rfl⟩ := ih hput hfs hrest
      refine ⟨t :: ts, _, .item (hq.append_blanks hb) hu, Nat.succ_le_succ hlen,
        hcomplete.cons hf ht, ?_⟩
      simp only [List.append_assoc]

theorem elements_append (hr : ReadsRecord S members elements read) (hu : Items ']' first ts u)
    (hlen : ts.length ≤ fs.length) (hv : S.Completes p (fs.zip ts) v) (r : List Char) :
    elements fs first p (u ++ r) = .ok (v, r) := by
  induction hu generalizing fs p with
  | close hb =>
    rw [List.zip_nil_right] at hv
    have hv := Schema.completes_nil_iff.1 hv
    rw [List.append_assoc, List.singleton_append]
    cases fs with
    | nil => exact hr.elements_nil_iff.2 ⟨closeArray_append hb r, hv⟩
    | cons f fs => exact hr.elements_cons_iff.2 (.close (nextElement_close hb r) hv)
  | @item first q t u ts hq hu ih =>
    cases fs with
    | nil => cases hlen
    | cons f fs =>
      obtain ⟨_, ht, hv⟩ := Schema.Completes.tail (f := f) (t := t) hv
      have hreads := S.reads_readField p f
      have hread := hreads.complete blanks_nil ⟨v, ht, rfl⟩ (hu.ends (.inl rfl) r)
      rw [List.nil_append] at hread
      rw [List.append_assoc, List.append_assoc]
      exact hr.elements_cons_iff.2 (.field (nextElement_item hq (hreads.begins ⟨v, ht, rfl⟩) _)
        hread (ih (Nat.le_of_succ_le_succ hlen) hv))

/-- A reader of records reads the texts of its schema, and nothing else. -/
theorem reads (hr : ReadsRecord S members elements read) : Reads read S.Text where
  sound {s v r} h := by
    rcases hr.read_eq_ok_iff.1 h with ⟨s', hs, hread⟩ | ⟨s', hs, hread⟩
    · obtain ⟨b, hb, rfl⟩ := exists_blanks_of_skipBlanks_eq hs
      obtain ⟨ts, u, hu, hlen, hv, rfl⟩ :=
        hr.exists_items_of_elements (fun f _ => S.has_empty f) S.nodup_all hread
      exact ⟨b, _, hb, .array ⟨u, hu, rfl⟩ hlen (Schema.completes_empty_iff.1 hv), rfl⟩
    · obtain ⟨b, hb, rfl⟩ := exists_blanks_of_skipBlanks_eq hs
      obtain ⟨ms, ts, u, hu, hms, hothers, hv, rfl⟩ := hr.exists_items_of_members hread
      exact ⟨b, _, hb, .object ⟨ts, u, hu, hms, rfl⟩ hothers (Schema.completes_empty_iff.1 hv), rfl⟩
  complete {b t v r} hb ht _ := by
    refine hr.read_eq_ok_iff.2 ?_
    cases ht with
    | object hs hothers hv =>
      obtain ⟨ts, u, hu, hms, rfl⟩ := hs
      have hfuel := hu.length_lt_append (ne_nil_of_memberTexts hms) r
      exact .inr ⟨_, skipBlanks_append_cons hb rfl _,
        hr.members_append hu hms hothers (Schema.completes_empty_iff.2 hv) hfuel r⟩
    | array hs hmax hv =>
      obtain ⟨u, hu, rfl⟩ := hs
      exact .inl ⟨_, skipBlanks_append_cons hb rfl _,
        hr.elements_append hu hmax (Schema.completes_empty_iff.2 hv) r⟩
  begins ht := by
    cases ht with
    | object hs =>
      obtain ⟨ts, u, _, _, rfl⟩ := hs
      exact ⟨_, _, rfl, by decide⟩
    | array hs =>
      obtain ⟨u, _, rfl⟩ := hs
      exact ⟨_, _, rfl, by decide⟩

end ReadsRecord

end TopicClient.Message
