import TopicClient.Glob
import TopicClient.Proofs.Glob.ServerRule

/-!
# Keys in pieces

The keys that the client and the server take apart at the same places consist of pieces: characters
that stand for themselves, characters after a backslash, the wildcards `*` and `?`, and lists
`[…]` of ASCII characters. Braces are pieces as well: the server takes them for characters, and the
client for the ends of a group.

A wildcard is a loose piece: it takes something else in a topic than in its bytes. Anchors are the
pieces that take one character with all its bytes. A list is one or the other when both read the
same characters in it, and else it is misread.
-/

namespace TopicClient.Glob

def Has (ranges : List (Char × Char)) (n : ℕ) : Prop :=
  ∃ r ∈ ranges, r.1.toNat ≤ n ∧ n ≤ r.2.toNat

instance (ranges : List (Char × Char)) (n : ℕ) : Decidable (Has ranges n) :=
  inferInstanceAs (Decidable (∃ r ∈ ranges, r.1.toNat ≤ n ∧ n ≤ r.2.toNat))

structure Listing where
  /-- All that stands between the brackets. -/
  text : List Char
  ranges : List (Char × Char)
  /-- What the list is for the server, if the server reads it. -/
  term : ServerRule.Term
  sample : Char
  reads : readSet (negation (text ++ [']'])).2 = .ok (ranges, [])
  ascii : ∀ r ∈ ranges, r.1.toNat < 128 ∧ r.2.toNat < 128
  sample_ascii : sample.toNat < 128
  has_sample : Has ranges sample.toNat ↔ (negation text).1 = false
deriving DecidableEq

namespace Listing

def negated (l : Listing) : Bool := (negation l.text).1

def Takes (l : Listing) (n : ℕ) : Prop := Has l.ranges n ↔ l.negated = false

structure ReadAlike (l : Listing) : Prop where
  serves : ServerRule.ReadsList l.text l.term
  takes_iff : ∀ c, l.term.Takes c ↔ l.Takes c.toNat

/-- The server cannot read the list, or reads an ASCII character in it that the client does not,
or the other way round. -/
def Misread (l : Listing) : Prop :=
  ServerRule.Refuses l.text ∨ ServerRule.ReadsList l.text l.term ∧
    ∃ c : Char, c.toNat < 128 ∧ ¬ (l.term.Takes c ↔ l.Takes c.toNat)

def spelled (l : Listing) : List Char := '[' :: (l.text ++ [']'])

def token (l : Listing) : Token := .set l.negated l.ranges

end Listing

inductive Loose where
  | one
  | run
  | except (l : Listing) (hneg : l.negated = true) (h : l.ReadAlike)
deriving DecidableEq

namespace Loose

def repeats : Loose → Bool
  | run => true
  | _ => false

/-- The wildcard takes a character of the given number, or a byte of that value. -/
def Takes : Loose → ℕ → Prop
  | one, n => n ≠ 47
  | run, n => n ≠ 47
  | except l _ _, n => l.Takes n

def text : Loose → List Char
  | one => ['?']
  | run => ['*']
  | except l _ _ => l.spelled

def token : Loose → Token
  | one => .one
  | run => .run
  | except l _ _ => l.token

def term : Loose → ServerRule.Term
  | one => .one
  | run => .run
  | except l _ _ => l.term

end Loose

inductive Anchor where
  | char (c : Char) (h : c ∉ ['*', '?', '[', '\\', '\x7b', '\x7d'])
  | escaped (c : Char)
  | among (l : Listing) (hpos : l.negated = false) (h : l.ReadAlike)
deriving DecidableEq

namespace Anchor

def Takes : Anchor → Char → Prop
  | char d _, c => c = d
  | escaped d, c => c = d
  | among l _ _, c => l.Takes c.toNat

def sample : Anchor → Char
  | char c _ => c
  | escaped c => c
  | among l _ _ => l.sample

def text : Anchor → List Char
  | char c _ => [c]
  | escaped c => ['\\', c]
  | among l _ _ => l.spelled

def token : Anchor → Token
  | char c _ => .literal c
  | escaped c => .literal c
  | among l _ _ => l.token

def term : Anchor → ServerRule.Term
  | char c _ => .char c
  | escaped c => .char c
  | among l _ _ => l.term

end Anchor

inductive Piece where
  | loose (l : Loose)
  | anchor (a : Anchor)
  | misread (l : Listing) (h : l.Misread)
  | opening
  | closing
deriving DecidableEq

namespace Piece

def text : Piece → List Char
  | loose l => l.text
  | anchor a => a.text
  | misread l _ => l.spelled
  | opening => ['\x7b']
  | closing => ['\x7d']

/-- The token of the piece. A brace has none of its own. -/
def token : Piece → Token
  | loose l => l.token
  | anchor a => a.token
  | misread l _ => l.token
  | opening | closing => .choice []

def term : Piece → ServerRule.Term
  | loose l => l.term
  | anchor a => a.term
  | misread l _ => l.term
  | opening => .char '\x7b'
  | closing => .char '\x7d'

def isBrace : Piece → Bool
  | opening | closing => true
  | _ => false

def isShared : Piece → Bool
  | loose _ | anchor _ => true
  | _ => false

end Piece

def spell (ps : List Piece) : List Char := ps.flatMap Piece.text

@[simp] theorem spell_cons (p : Piece) (ps : List Piece) : spell (p :: ps) = p.text ++ spell ps :=
  rfl

def keyOf (ps : List Piece) : String := String.ofList (spell ps)

theorem negation_append {cs ds : List Char} (h : cs ≠ []) :
    negation (cs ++ ds) = ((negation cs).1, (negation cs).2 ++ ds) := by
  obtain ⟨c, cs, rfl⟩ := List.exists_cons_of_ne_nil h
  by_cases hbang : c = '!'
  · subst hbang
    rfl
  · by_cases hcaret : c = '^'
    · subst hcaret
      rfl
    · simp [negation, hbang, hcaret]

theorem readMembers_append {s : SetState} {cs rest : List Char} {ranges : List (Char × Char)}
    (h : readMembers s cs = .ok (ranges, rest)) (ds : List Char) :
    readMembers s (cs ++ ds) = .ok (ranges, rest ++ ds) := by
  fun_induction readMembers s cs with
  | case1 => cases h
  | case2 s cs =>
    obtain ⟨rfl, rfl⟩ := Prod.ext_iff.1 (Except.ok.inj h)
    rfl
  | case3 s c cs hc hdash ih =>
    rw [List.cons_append, readMembers, if_pos hdash]
    · exact ih h
    · exact hc
  | case4 s c cs hc hdash ih =>
    rw [List.cons_append, readMembers, if_neg hdash]
    · cases hadd : s.add c with
      | error e =>
        rw [hadd] at h
        cases h
      | ok s' =>
        rw [hadd] at h
        exact ih s' h
    · exact hc

theorem readSet_append {cs rest : List Char} {ranges : List (Char × Char)}
    (h : readSet cs = .ok (ranges, rest)) (ds : List Char) :
    readSet (cs ++ ds) = .ok (ranges, rest ++ ds) := by
  cases cs with
  | nil => cases h
  | cons c cs => exact readMembers_append h ds

namespace Listing

variable (l : Listing)

theorem text_ne_nil : l.text ≠ [] := by
  intro h
  have hreads := l.reads
  rw [h] at hreads
  cases hreads

theorem negation_text (cs : List Char) :
    negation (l.text ++ ']' :: cs) = (l.negated, (negation (l.text ++ [']'])).2 ++ cs) := by
  rw [negation_append l.text_ne_nil, negation_append l.text_ne_nil, List.append_assoc]
  rfl

theorem readSet_text (cs : List Char) :
    readSet ((negation (l.text ++ [']'])).2 ++ cs) = .ok (l.ranges, cs) :=
  readSet_append l.reads cs

theorem lt_of_has {n : ℕ} (h : Has l.ranges n) : n < 128 := by
  obtain ⟨r, hr, _, hn⟩ := h
  have := (l.ascii r hr).2
  omega

theorem takes_of_le {n : ℕ} (hneg : l.negated = true) (h : 128 ≤ n) : l.Takes n := by
  have hnot : ¬ Has l.ranges n := by
    intro hn
    have := l.lt_of_has hn
    omega
  rw [Takes, hneg]
  simp [hnot]

theorem spelled_append (cs : List Char) : l.spelled ++ cs = '[' :: (l.text ++ ']' :: cs) := by
  rw [Listing.spelled, List.cons_append, List.append_assoc, List.singleton_append]

theorem lt_of_takes {n : ℕ} (hpos : l.negated = false) (h : l.Takes n) : n < 128 :=
  l.lt_of_has (h.2 hpos)

end Listing

/-- Wildcards take every byte of a character outside ASCII. -/
theorem Loose.takes_of_le {l : Loose} {n : ℕ} (h : 128 ≤ n) : l.Takes n := by
  cases l with
  | one | run =>
    rw [Takes]
    omega
  | except l hneg => exact l.takes_of_le hneg h

theorem Loose.term_takes_iff (l : Loose) (c : Char) : l.term.Takes c ↔ l.Takes c.toNat := by
  have hslash : c = '/' ↔ c.toNat = 47 := by
    constructor
    · rintro rfl
      rfl
    · intro h
      exact Char.toNat_inj.1 h
  cases l with
  | one | run => exact not_congr hslash
  | except l _ h => exact h.takes_iff c

theorem Anchor.term_takes_iff (a : Anchor) (c : Char) : a.term.Takes c ↔ a.Takes c := by
  cases a with
  | char | escaped => exact Iff.rfl
  | among l _ h => exact h.takes_iff c

theorem Anchor.takes_sample (a : Anchor) : a.Takes a.sample := by
  cases a with
  | char | escaped => rfl
  | among l => exact l.has_sample

namespace Piece

def IsRead : Piece → Prop
  | misread l _ => ServerRule.ReadsList l.text l.term
  | _ => True

def repeats : Piece → Bool
  | loose l => l.repeats
  | _ => false

variable {p : Piece}

theorem isRead_of_isShared (h : p.isShared = true) : p.IsRead := by
  cases p with
  | loose | anchor => trivial
  | misread | opening | closing => cases h

theorem isBrace_of_isShared (h : p.isShared = true) : p.isBrace = false := by
  cases p with
  | loose | anchor | misread => rfl
  | opening | closing => cases h

theorem repeats_term (h : p.IsRead) : p.term.repeats = p.repeats := by
  cases p with
  | loose l =>
    cases l with
    | one | run => rfl
    | except l _ hl => exact hl.serves.repeats_eq_false
  | anchor a =>
    cases a with
    | char | escaped => rfl
    | among l _ hl => exact hl.serves.repeats_eq_false
  | misread l => exact h.repeats_eq_false
  | opening | closing => rfl

theorem not_mem_special {c : Char} (h : c ∉ ['*', '?', '[', '\\', '\x7b', '\x7d']) :
    c ∉ ['*', '?', '[', '\\'] := by
  simp only [List.mem_cons, List.not_mem_nil, or_false, not_or] at h ⊢
  exact ⟨h.1, h.2.1, h.2.2.1, h.2.2.2.1⟩

theorem reads_text_append {cs : List Char} {ts : List ServerRule.Term} (hp : p.IsRead)
    (h : ServerRule.Reads cs ts) : ServerRule.Reads (p.text ++ cs) (p.term :: ts) := by
  have hlist : ∀ l : Listing, ServerRule.ReadsList l.text l.term →
      ServerRule.Reads (l.spelled ++ cs) (l.term :: ts) := by
    intro l hl
    rw [l.spelled_append]
    exact hl.reads h
  cases p with
  | loose l =>
    cases l with
    | one => exact .one h
    | run => exact .run h
    | except l _ hl => exact hlist l hl.serves
  | anchor a =>
    cases a with
    | char c hc => exact .plain (not_mem_special hc) h
    | escaped c => exact .escaped h
    | among l _ hl => exact hlist l hl.serves
  | misread l => exact hlist l hp
  | opening | closing => exact .plain (by decide) h

/-- What follows a piece can be read if all can. -/
theorem exists_reads_of_append {cs : List Char} {ts : List ServerRule.Term} (hp : p.IsRead)
    (h : ServerRule.Reads (p.text ++ cs) ts) : ∃ ts', ServerRule.Reads cs ts' := by
  have hlist : ∀ l : Listing, ServerRule.ReadsList l.text l.term →
      ServerRule.Reads (l.spelled ++ cs) ts → ∃ ts', ServerRule.Reads cs ts' := by
    intro l hl hreads
    rw [l.spelled_append] at hreads
    exact hl.exists_reads hreads
  have hplain : ∀ c ∉ ['*', '?', '[', '\\'], ServerRule.Reads (c :: cs) ts →
      ∃ ts', ServerRule.Reads cs ts' := by
    intro c hc hreads
    cases hreads with
    | plain _ hcs => exact ⟨_, hcs⟩
    | run | one | listed | unlisted | escaped => exact absurd (by decide) hc
  cases p with
  | loose l =>
    cases l with
    | one =>
      cases h with
      | one h => exact ⟨_, h⟩
      | plain hc => exact absurd (by decide) hc
    | run =>
      cases h with
      | run h => exact ⟨_, h⟩
      | plain hc => exact absurd (by decide) hc
    | except l _ hl => exact hlist l hl.serves h
  | anchor a =>
    cases a with
    | char c hc => exact hplain c (not_mem_special hc) h
    | escaped c =>
      cases h with
      | escaped h => exact ⟨_, h⟩
      | plain hc => exact absurd (by decide) hc
    | among l _ hl => exact hlist l hl.serves h
  | misread l => exact hlist l hp h
  | opening | closing => exact hplain _ (by decide) h

end Piece

variable {ps : List Piece}

theorem reads_spell (h : ∀ p ∈ ps, p.IsRead) :
    ServerRule.Reads (spell ps) (ps.map Piece.term) := by
  induction ps with
  | nil => exact .done
  | cons p ps ih =>
    obtain ⟨hp, hps⟩ := List.forall_mem_cons.1 h
    exact Piece.reads_text_append hp (ih hps)

theorem isRead_of_reads_spell {ts : List ServerRule.Term} (h : ServerRule.Reads (spell ps) ts) :
    ∀ p ∈ ps, p.IsRead := by
  induction ps generalizing ts with
  | nil => exact nofun
  | cons p ps ih =>
    have hp : p.IsRead := by
      cases p with
      | loose | anchor | opening | closing => trivial
      | misread l hl =>
        rcases hl with hl | hl
        · change ServerRule.Reads (l.spelled ++ spell ps) ts at h
          rw [l.spelled_append] at h
          exact absurd h (hl _ _)
        · exact hl.1
    obtain ⟨ts', hts'⟩ := Piece.exists_reads_of_append hp h
    exact List.forall_mem_cons.2 ⟨hp, ih hts'⟩

def Serves (ps : List Piece) (cs : List Char) : Prop :=
  (∀ p ∈ ps, p.IsRead) ∧ ServerRule.Matches (ps.map Piece.term) cs

theorem accepts_keyOf_iff {topic : String} :
    ServerRule.Accepts (keyOf ps) topic ↔ Serves ps topic.toList := by
  rw [ServerRule.Accepts, keyOf, String.toList_ofList]
  constructor
  · rintro ⟨ts, hts, hmatches⟩
    have hread := isRead_of_reads_spell hts
    rw [hts.unique (reads_spell hread)] at hmatches
    exact ⟨hread, hmatches⟩
  · rintro ⟨hread, hmatches⟩
    exact ⟨_, reads_spell hread, hmatches⟩

end TopicClient.Glob
