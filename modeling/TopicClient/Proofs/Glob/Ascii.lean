import TopicClient.Proofs.Glob.Reception
import TopicClient.Proofs.Url.Reading

/-!
# Patterns of ASCII text

A pattern of ASCII text consists of items: characters, the wildcards `*` and `?`, and lists of
letters, digits and ranges of them. It matches the texts that fall into one part for each item in
turn: `Concatenates`. On ASCII topics, where a byte is a character, this is what the bytes of the
pattern match: `words_iff_concatenates`. The registry delivers such a key to those topics and to
the topic that the key itself is: `delivers_concatenations`.
-/

namespace TopicClient.Glob

open Regex

/-- A member of a list: a letter or digit, or a range between two of them. -/
inductive Member where
  | single (c : Char) (h : c.isAlphanum = true)
  | range (lo hi : Char) (hlo : lo.isAlphanum = true) (hhi : hi.isAlphanum = true) (hle : lo ≤ hi)

namespace Member

def text : Member → List Char
  | single c _ => [c]
  | range lo hi _ _ _ => [lo, '-', hi]

def bounds : Member → Char × Char
  | single c _ => (c, c)
  | range lo hi _ _ _ => (lo, hi)

def Lists : Member → Char → Prop
  | single d _, c => c = d
  | range lo hi _ _ _, c => lo ≤ c ∧ c ≤ hi

end Member

inductive Item where
  | char (c : Char) (hascii : c.toNat < 128) (h : c ∉ ['*', '?', '[', ']', '\x7b', '\x7d', '\\'])
  | one
  | run
  | among (first : Member) (rest : List Member)

namespace Item

def text : Item → List Char
  | char c _ _ => [c]
  | one => ['?']
  | run => ['*']
  | among first rest => '[' :: ((first :: rest).flatMap Member.text ++ [']'])

def isChar : Item → Bool
  | char _ _ _ => true
  | _ => false

def Takes : Item → List Char → Prop
  | char c _ _, part => part = [c]
  | one, part => ∃ c, c ≠ '/' ∧ part = [c]
  | run, part => '/' ∉ part
  | among first rest, part => ∃ c, (∃ m ∈ first :: rest, m.Lists c) ∧ part = [c]

end Item

def keyOfItems (items : List Item) : String := String.ofList (items.flatMap Item.text)

/-- The text consists of one part for each item, in their order. -/
def Concatenates (items : List Item) (cs : List Char) : Prop :=
  ∃ parts, List.Forall₂ Item.Takes items parts ∧ cs = parts.flatten

theorem concatenates_nil_iff {cs : List Char} : Concatenates [] cs ↔ cs = [] := by
  simp [Concatenates, List.forall₂_nil_left_iff]

theorem concatenates_cons_iff {i : Item} {items : List Item} {cs : List Char} :
    Concatenates (i :: items) cs ↔
      ∃ part rest, cs = part ++ rest ∧ i.Takes part ∧ Concatenates items rest := by
  constructor
  · rintro ⟨parts, hparts, rfl⟩
    obtain ⟨part, parts, hpart, hrest, rfl⟩ := List.forall₂_cons_left_iff.1 hparts
    exact ⟨part, parts.flatten, List.flatten_cons, hpart, parts, hrest, rfl⟩
  · rintro ⟨part, _, rfl, hpart, parts, hparts, rfl⟩
    exact ⟨part :: parts, .cons hpart hparts, List.flatten_cons.symm⟩

/-! ## Lists of letters and digits -/

theorem not_mem_of_isAlphanum {c : Char} (h : c.isAlphanum = true) :
    c ∉ ['\\', '-', ']', '!', '^'] := by
  intro hmem
  simp only [List.mem_cons, List.not_mem_nil, or_false] at hmem
  rcases hmem with rfl | rfl | rfl | rfl | rfl <;> cases h

theorem readMembers_cons {c : Char} (h : c.isAlphanum = true) (s : SetState) (cs : List Char) :
    readMembers s (c :: cs) = (s.add c).bind fun s => readMembers s cs := by
  have hmem := not_mem_of_isAlphanum h
  simp only [List.mem_cons, List.not_mem_nil, or_false, not_or] at hmem
  rw [readMembers, if_neg fun hdash => hmem.2.1 hdash.1]
  · rfl
  · exact hmem.2.2.1

namespace Member

variable (m : Member)

theorem readMembers_text (rs : List (Char × Char)) (cs : List Char) :
    readMembers ⟨rs, false⟩ (m.text ++ cs) = readMembers ⟨m.bounds :: rs, false⟩ cs := by
  cases m with
  | single c h => exact readMembers_cons h _ cs
  | range lo hi hlo hhi hle =>
    have hnot : ¬ hi < lo := Char.not_lt.2 hle
    have hadd : SetState.add ⟨(lo, lo) :: rs, true⟩ hi = .ok ⟨(lo, hi) :: rs, false⟩ := if_neg hnot
    calc readMembers ⟨rs, false⟩ (lo :: '-' :: hi :: cs)
        = readMembers ⟨(lo, lo) :: rs, false⟩ ('-' :: hi :: cs) := readMembers_cons hlo _ _
      _ = readMembers ⟨(lo, lo) :: rs, true⟩ (hi :: cs) := rfl
      _ = readMembers ⟨(lo, hi) :: rs, false⟩ cs := by rw [readMembers_cons hhi, hadd]; rfl

theorem readMembers_texts (ms : List Member) (rs : List (Char × Char)) (cs : List Char) :
    readMembers ⟨rs, false⟩ (ms.flatMap text ++ ']' :: cs) =
      .ok (rs.reverse ++ ms.map bounds, cs) := by
  induction ms generalizing rs with
  | nil => rw [List.map_nil, List.append_nil]; rfl
  | cons m ms ih =>
    rw [List.flatMap_cons, List.append_assoc, m.readMembers_text, ih, List.reverse_cons,
      List.append_assoc]
    rfl

/-- The first member of a list is read as all others are. -/
theorem readSet_text (cs : List Char) :
    readSet (m.text ++ cs) = readMembers ⟨[m.bounds], false⟩ cs := by
  cases m with
  | single c h => rfl
  | range lo hi hlo hhi hle =>
    have hread := (range lo hi hlo hhi hle).readMembers_text [] cs
    rw [← hread]
    exact (readMembers_cons hlo ⟨[], false⟩ ('-' :: hi :: cs)).symm

theorem isAlphanum_bounds : m.bounds.1.isAlphanum = true ∧ m.bounds.2.isAlphanum = true := by
  cases m with
  | single c h => exact ⟨h, h⟩
  | range lo hi hlo hhi => exact ⟨hlo, hhi⟩

theorem exists_text_append (cs : List Char) : ∃ ds, m.text ++ cs = m.bounds.1 :: ds := by
  cases m with
  | single => exact ⟨cs, rfl⟩
  | range lo hi => exact ⟨'-' :: hi :: cs, rfl⟩

theorem negation_text (cs : List Char) : negation (m.text ++ cs) = (false, m.text ++ cs) := by
  have hmem := not_mem_of_isAlphanum m.isAlphanum_bounds.1
  simp only [List.mem_cons, List.not_mem_nil, or_false, not_or] at hmem
  obtain ⟨ds, hds⟩ := m.exists_text_append cs
  simp [hds, negation, hmem.2.2.2.1, hmem.2.2.2.2]

theorem bounds_le : m.bounds.1 ≤ m.bounds.2 := by
  cases m with
  | single c => exact Char.le_refl c
  | range lo hi _ _ hle => exact hle

theorem lists_iff (c : Char) : m.Lists c ↔ m.bounds.1 ≤ c ∧ c ≤ m.bounds.2 := by
  cases m with
  | single d =>
    change c = d ↔ d ≤ c ∧ c ≤ d
    constructor
    · intro heq
      rw [heq]
      exact ⟨Char.le_refl d, Char.le_refl d⟩
    · rintro ⟨hlow, hhigh⟩
      exact Char.le_antisymm hhigh hlow
  | range => exact Iff.rfl

theorem readsRanges_text {cs rest : List Char} {ranges : List (Char × Char)}
    (h : ServerRule.ReadsRanges cs ranges rest) :
    ServerRule.ReadsRanges (m.text ++ cs) (m.bounds :: ranges) rest := by
  have hplain : ∀ {c : Char}, c.isAlphanum = true → c ∉ ['\\', '-', ']'] := by
    intro c hc hmem
    refine not_mem_of_isAlphanum hc ?_
    simp only [List.mem_cons, List.not_mem_nil, or_false] at hmem ⊢
    tauto
  cases m with
  | single c hc => exact .single (.plain (hplain hc)) h
  | range lo hi hlo hhi => exact .range (.plain (hplain hlo)) (.plain (hplain hhi)) h

theorem readsRanges_texts (ms : List Member) :
    ServerRule.ReadsRanges (ms.flatMap text ++ [']']) (ms.map bounds) [] := by
  induction ms with
  | nil => exact .close
  | cons m ms ih =>
    rw [List.flatMap_cons, List.append_assoc]
    exact m.readsRanges_text ih

theorem has_bounds_iff (ms : List Member) (c : Char) :
    Has (ms.map bounds) c.toNat ↔ ∃ m ∈ ms, m.Lists c := by
  constructor
  · rintro ⟨_, hr, hc⟩
    obtain ⟨m, hm, rfl⟩ := List.mem_map.1 hr
    exact ⟨m, hm, (m.lists_iff c).2 hc⟩
  · rintro ⟨m, hm, hc⟩
    exact ⟨m.bounds, List.mem_map_of_mem hm, (m.lists_iff c).1 hc⟩

def listing (rest : List Member) : Listing where
  text := (m :: rest).flatMap text
  ranges := (m :: rest).map bounds
  term := .set false ((m :: rest).map bounds)
  sample := m.bounds.1
  reads := by
    rw [List.flatMap_cons, List.append_assoc, m.negation_text, m.readSet_text, readMembers_texts]
    rfl
  ascii := by
    intro r hr
    obtain ⟨m', _, rfl⟩ := List.mem_map.1 hr
    obtain ⟨hlo, hhi⟩ := m'.isAlphanum_bounds
    have hlow := (Url.toNat_of_isAlphanum hlo).2
    have hhigh := (Url.toNat_of_isAlphanum hhi).2
    omega
  sample_ascii := Nat.lt_of_le_of_lt (Url.toNat_of_isAlphanum m.isAlphanum_bounds.1).2 (by decide)
  has_sample := by
    have hhas : Has ((m :: rest).map bounds) m.bounds.1.toNat :=
      (has_bounds_iff _ _).2 ⟨m, List.mem_cons_self, (m.lists_iff _).2 ⟨Char.le_refl _, m.bounds_le⟩⟩
    rw [List.flatMap_cons, m.negation_text]
    exact iff_of_true hhas rfl

theorem negated_listing (rest : List Member) : (m.listing rest).negated = false := by
  change (negation ((m :: rest).flatMap text)).1 = false
  rw [List.flatMap_cons, m.negation_text]

theorem takes_listing_iff (rest : List Member) (c : Char) :
    (m.listing rest).Takes c.toNat ↔ ∃ m' ∈ m :: rest, m'.Lists c := by
  rw [Listing.Takes, m.negated_listing, ← has_bounds_iff]
  exact iff_true_right rfl

theorem readAlike_listing (rest : List Member) : (m.listing rest).ReadAlike where
  serves := by
    refine .listed ?_ (readsRanges_texts (m :: rest)) (List.cons_ne_nil _ _)
    obtain ⟨ds, hds⟩ := m.exists_text_append (rest.flatMap text)
    change ((m :: rest).flatMap text).head? ≠ some '^'
    rw [List.flatMap_cons, hds, List.head?_cons]
    intro hcaret
    refine not_mem_of_isAlphanum m.isAlphanum_bounds.1 ?_
    rw [Option.some.inj hcaret]
    decide
  takes_iff := by
    intro c
    rw [takes_listing_iff, ← has_bounds_iff]
    exact Iff.rfl

end Member

/-! ## What the items match -/

namespace Item

variable {i : Item} {items : List Item}

theorem not_mem_special {c : Char} (h : c ∉ ['*', '?', '[', ']', '\x7b', '\x7d', '\\']) :
    c ∉ ['*', '?', '[', '\\', '\x7b', '\x7d'] := by
  simp only [List.mem_cons, List.not_mem_nil, or_false, not_or] at h ⊢
  exact ⟨h.1, h.2.1, h.2.2.1, h.2.2.2.2.2.2, h.2.2.2.2.1, h.2.2.2.2.2.1⟩

def piece : Item → Piece
  | char c _ h => .anchor (.char c (not_mem_special h))
  | one => .loose .one
  | run => .loose .run
  | among first rest =>
    .anchor (.among (first.listing rest) (first.negated_listing rest) (first.readAlike_listing rest))

theorem text_piece (i : Item) : i.piece.text = i.text := by
  cases i <;> rfl

theorem isBrace_piece (i : Item) : i.piece.isBrace = false := by
  cases i <;> rfl

theorem piece_eq_run_iff : i.piece = .loose .run ↔ i = .run := by
  cases i <;> simp [piece]

end Item

theorem keyOf_pieces (items : List Item) : keyOf (items.map Item.piece) = keyOfItems items := by
  rw [keyOf, keyOfItems, spell, List.flatMap_map]
  simp only [Item.text_piece]

/-- Every byte of an ASCII text is a character of it. -/
theorem encode_of_ascii {cs : List Char} (h : ∀ c ∈ cs, c.toNat < 128) :
    encode cs = cs.map fun c => UInt8.ofNat c.toNat := by
  induction cs with
  | nil => rfl
  | cons c cs ih =>
    obtain ⟨hc, hcs⟩ := List.forall_mem_cons.1 h
    rw [encode_cons, bytes_of_ascii hc, ih hcs]
    rfl

theorem exists_split_of_ascii {cs : List Char} (h : ∀ c ∈ cs, c.toNat < 128) {u v : List UInt8}
    (huv : encode cs = u ++ v) : ∃ x y, cs = x ++ y ∧ u = encode x ∧ v = encode y := by
  rw [encode_of_ascii h] at huv
  obtain ⟨x, y, rfl, rfl, rfl⟩ := List.map_eq_append_iff.1 huv
  obtain ⟨hx, hy⟩ := List.forall_mem_append.1 h
  exact ⟨x, y, rfl, (encode_of_ascii hx).symm, (encode_of_ascii hy).symm⟩

theorem encode_eq_bytes_iff {cs : List Char} {c : Char} : encode cs = bytes c ↔ cs = [c] := by
  have hsingle : encode [c] = bytes c := List.append_nil _
  rw [← hsingle]
  exact ⟨encode_injective, fun h => h ▸ rfl⟩

theorem encode_eq_singleton_iff {cs : List Char} (h : ∀ c ∈ cs, c.toNat < 128) :
    (∃ b : UInt8, b.toNat ≠ 47 ∧ encode cs = [b]) ↔ ∃ c, c ≠ '/' ∧ cs = [c] := by
  constructor
  · rintro ⟨b, hb, hcs⟩
    rw [encode_of_ascii h] at hcs
    obtain ⟨c, rfl, rfl⟩ := List.map_eq_singleton_iff.1 hcs
    rw [toNat_byte (h c List.mem_cons_self), ne_eq, toNat_eq_slash_iff] at hb
    exact ⟨c, hb, rfl⟩
  · rintro ⟨c, hc, rfl⟩
    have hascii := h c List.mem_cons_self
    refine ⟨UInt8.ofNat c.toNat, ?_, ?_⟩
    · rw [toNat_byte hascii, ne_eq, toNat_eq_slash_iff]
      exact hc
    · rw [encode_of_ascii h, List.map_singleton]

theorem Item.matches_iff (i : Item) {cs : List Char} (h : ∀ c ∈ cs, c.toNat < 128) :
    Matches (concat i.piece.token.parts) (encode cs) ↔ i.Takes cs := by
  cases i with
  | char => exact matches_literal_iff.trans encode_eq_bytes_iff
  | one => exact matches_one_iff.trans (encode_eq_singleton_iff h)
  | run => exact matches_run_iff.trans forall_mem_encode_ne_slash_iff
  | among first rest =>
    let a : Anchor :=
      .among (first.listing rest) (first.negated_listing rest) (first.readAlike_listing rest)
    refine (matches_anchor_iff a _).trans (exists_congr fun c => ?_)
    exact and_congr (first.takes_listing_iff rest c) encode_eq_bytes_iff

/-- The items match the ASCII texts that fall into one part for each of them. -/
theorem words_iff_concatenates (items : List Item) {cs : List Char}
    (h : ∀ c ∈ cs, c.toNat < 128) :
    Words ((items.map Item.piece).map Piece.token) (encode cs) ↔ Concatenates items cs := by
  induction items generalizing cs with
  | nil => rw [concatenates_nil_iff, ← encode_eq_nil_iff]; exact words_nil_iff
  | cons i items ih =>
    rw [concatenates_cons_iff]
    refine words_cons_iff.trans ?_
    constructor
    · rintro ⟨u, v, huv, hu, hv⟩
      obtain ⟨x, y, rfl, rfl, rfl⟩ := exists_split_of_ascii h huv
      obtain ⟨hx, hy⟩ := List.forall_mem_append.1 h
      exact ⟨x, y, rfl, (i.matches_iff hx).1 hu, (ih hy).1 hv⟩
    · rintro ⟨x, y, rfl, hx', hy'⟩
      obtain ⟨hx, hy⟩ := List.forall_mem_append.1 h
      exact ⟨encode x, encode y, encode_append x y, (i.matches_iff hx).2 hx', (ih hy).2 hy'⟩

/-! ## Delivery -/

theorem isGlob_keyOfItems {items : List Item} (h : ∃ i ∈ items, i.isChar = false) :
    isGlob (keyOfItems items) = true := by
  obtain ⟨i, hi, hwild⟩ := h
  have hmem : ∃ c ∈ i.text, (c = '*' || c = '?' || c = '[') = true := by
    cases i with
    | char => cases hwild
    | one => exact ⟨'?', List.mem_cons_self, rfl⟩
    | run => exact ⟨'*', List.mem_cons_self, rfl⟩
    | among => exact ⟨'[', List.mem_cons_self, rfl⟩
  obtain ⟨c, hc, hspecial⟩ := hmem
  rw [isGlob, keyOfItems, String.toList_ofList, List.any_eq_true]
  exact ⟨c, List.mem_flatMap.2 ⟨i, hi, hc⟩, hspecial⟩

theorem exists_compile_keyOfItems {items : List Item}
    (hchain : items.IsChain fun i j => ¬ (i = .run ∧ j = .run))
    (hwild : ∃ i ∈ items, i.isChar = false) :
    ∃ pattern, compile (keyOfItems items) = .glob pattern ∧
      ∀ cs : List Char, (∀ c ∈ cs, c.toNat < 128) →
        (Matches pattern.regex (encode cs) ↔ Concatenates items cs) := by
  have hapart : (items.map Item.piece).IsChain Apart := by
    refine List.isChain_map_of_isChain Item.piece (fun i j hij hi hj => ?_) hchain
    exact hij ⟨Item.piece_eq_run_iff.1 hi, Item.piece_eq_run_iff.1 hj⟩
  have hbrace : ∀ p ∈ items.map Item.piece, p.isBrace = false := by
    intro p hp
    obtain ⟨i, _, rfl⟩ := List.mem_map.1 hp
    exact i.isBrace_piece
  have hglob := isGlob_keyOfItems hwild
  rw [← keyOf_pieces] at hglob ⊢
  obtain ⟨pattern, hcompile, hpattern⟩ := exists_matches_keyOf hbrace hapart hglob
  refine ⟨pattern, hcompile, fun cs hascii => ?_⟩
  rw [hpattern, words_iff_concatenates items hascii]

/-- The key of items with no two stars side by side and one item that is no character is a pattern.
Its handlers receive, of the ASCII topics, the key itself and those that consist of one part for
each item. -/
theorem delivers_concatenations {H : Type} {l : Ledger H} {r : Registry H}
    (hb : Registry.Built l r) {items : List Item} {h : H} (hmem : (keyOfItems items, h) ∈ l)
    (honly : ∀ e ∈ l, e.2 = h → e.1 = keyOfItems items)
    (hstar : keyOfItems items ≠ Registry.wildcard)
    (hchain : items.IsChain fun i j => ¬ (i = .run ∧ j = .run))
    (hwild : ∃ i ∈ items, i.isChar = false) :
    (∃ pattern, compile (keyOfItems items) = .glob pattern) ∧
      ∀ topic : String, (∀ c ∈ topic.toList, c.toNat < 128) →
        (h ∈ r.order topic ↔ topic = keyOfItems items ∨ Concatenates items topic.toList) := by
  obtain ⟨pattern, hcompile, hpattern⟩ := exists_compile_keyOfItems hchain hwild
  refine ⟨⟨pattern, hcompile⟩, fun topic hascii => ?_⟩
  rw [hb.mem_order_iff hmem honly, receives_iff_of_compile hcompile hstar,
    hpattern topic.toList hascii, eq_comm]

theorem delivers_concatenations_two_stars :
    ∃ items, keyOfItems items = "*[0-9x]*/?" ∧
      ∃ r : Registry ℕ, Registry.Built [("*[0-9x]*/?", 0)] r ∧
        (∀ topic : String, (∀ c ∈ topic.toList, c.toNat < 128) →
          (0 ∈ r.order topic ↔ topic = "*[0-9x]*/?" ∨ Concatenates items topic.toList)) ∧
        0 ∈ r.order "a1b2/c" := by
  let items : List Item := [.run, .among (.range '0' '9' rfl rfl (by decide)) [.single 'x' rfl],
    .run, .char '/' (by decide) (by decide), .one]
  have hkey : keyOfItems items = "*[0-9x]*/?" := by decide +kernel
  have hchain : items.IsChain fun i j => ¬ (i = .run ∧ j = .run) := by simp [items]
  have hwild : ∃ i ∈ items, i.isChar = false := ⟨.run, List.mem_cons_self, rfl⟩
  obtain ⟨pattern, hcompile, _⟩ := exists_compile_keyOfItems hchain hwild
  obtain ⟨r, _, hb⟩ := Registry.Built.empty.exists_registered (keyOfItems items)
    (.inr (by rw [hcompile]; exact nofun)) 0
  obtain ⟨_, hdelivers⟩ := delivers_concatenations hb List.mem_cons_self (by simp)
    (by rw [hkey]; decide) hchain hwild
  rw [hkey] at hb hdelivers
  refine ⟨items, hkey, r, hb, hdelivers, (hdelivers "a1b2/c" (by simp)).2 (.inr ?_)⟩
  refine ⟨[['a'], ['1'], ['b', '2'], ['/'], ['c']], ?_, by decide⟩
  refine .cons (by decide : '/' ∉ ['a'])
    (.cons ?_ (.cons (by decide : '/' ∉ ['b', '2']) (.cons rfl (.cons ?_ .nil))))
  · exact ⟨'1', ⟨_, List.mem_cons_self, (by decide : '0' ≤ '1' ∧ '1' ≤ '9')⟩, rfl⟩
  · exact ⟨'c', by decide, rfl⟩

/-- A key is a topic as well, and its handlers receive that topic even if no parts make it up. -/
theorem delivers_key_not_concatenated :
    ∃ items, keyOfItems items = "[ab]" ∧ ¬ Concatenates items "[ab]".toList ∧
      ∃ r : Registry ℕ, Registry.Built [("[ab]", 0)] r ∧ 0 ∈ r.order "[ab]" := by
  obtain ⟨r, _, hb⟩ := Registry.Built.empty.exists_registered "[ab]" (.inr nofun) 0
  refine ⟨[.among (.single 'a' rfl) [.single 'b' rfl]], by decide +kernel, ?_, r, hb, ?_⟩
  · rintro ⟨parts, hparts, htext⟩
    obtain ⟨part, _, ⟨c, _, rfl⟩, hnil, rfl⟩ := List.forall₂_cons_left_iff.1 hparts
    rw [List.forall₂_nil_left_iff.1 hnil] at htext
    have hlength : "[ab]".toList.length = 1 := congrArg List.length htext
    exact absurd hlength (by decide)
  · exact (hb.mem_order_iff List.mem_cons_self (by simp) _).2 (.inl rfl)

end TopicClient.Glob
