import Mathlib.Data.List.Induction
import TopicClient.Proofs.Registry.Order
import TopicClient.Proofs.Text.ByteOrder

/-!
# What a registry holds

A registry built by a ledger holds nothing but what follows from the ledger. `Represents` says how:
the keys are numbered from zero in the order of their first registrations, each has the handlers
registered under it in their order, and a pattern exactly if it is a readable one. Further
registrations change nothing of this but add their handlers: `Built.mem_entries_append`.
-/

namespace TopicClient

namespace Glob

def Readable (key : String) : Prop :=
  isGlob key = true ∧ ∃ tokens, parse key.toList = .ok tokens

def Unreadable (key : String) : Prop :=
  isGlob key = true ∧ ∃ cause, parse key.toList = .error cause

theorem compile_eq_invalid_iff {key : String} {cause : SyntaxError} :
    compile key = .invalid cause ↔ isGlob key = true ∧ parse key.toList = .error cause := by
  unfold compile
  cases hglob : isGlob key with
  | false => simp
  | true =>
    cases hparse : parse key.toList with
    | error cause' => simp
    | ok tokens =>
      simp only [if_true]
      split <;> simp

/-- A pattern that can be used is compiled exactly if it can be read. -/
theorem pattern?_isSome_iff {key : String} (hc : compile key ≠ .tooDeep) :
    (compile key).pattern?.isSome = true ↔ Readable key := by
  unfold compile at hc ⊢
  cases hglob : isGlob key with
  | false => simp [Readable, hglob, Compiled.pattern?]
  | true =>
    cases hparse : parse key.toList with
    | error cause => simp [Readable, hglob, hparse, Compiled.pattern?]
    | ok tokens =>
      have hdepth : patternDepth tokens ≤ depthLimit := by
        by_contra hdepth
        simp only [hglob, hparse, if_true, if_neg hdepth] at hc
        exact hc rfl
      simp [Readable, hglob, hparse, hdepth, Compiled.pattern?]

end Glob

namespace Ledger

variable {H : Type}

theorem mem_keys_iff {l : Ledger H} {key : String} : key ∈ l.keys ↔ ∃ h, (key, h) ∈ l := by
  rw [mem_keys]
  constructor
  · rintro ⟨e, he, rfl⟩
    exact ⟨e.2, he⟩
  · rintro ⟨h, he⟩
    exact ⟨(key, h), he, rfl⟩

def firstIndex (l : Ledger H) (key : String) : ℕ := (l.map Prod.fst).idxOf key

theorem firstIndex_append_of_mem {l : Ledger H} {key : String} (hk : key ∈ l.keys) (l' : Ledger H) :
    firstIndex (l ++ l') key = l.firstIndex key := by
  have hmem : key ∈ l.map Prod.fst := by
    obtain ⟨h, he⟩ := mem_keys_iff.1 hk
    exact List.mem_map_of_mem he
  rw [firstIndex, firstIndex, List.map_append, List.idxOf_append_of_mem hmem]

theorem firstIndex_lt_of_mem {l : Ledger H} {key : String} (hk : key ∈ l.keys) :
    l.firstIndex key < l.length := by
  obtain ⟨h, he⟩ := mem_keys_iff.1 hk
  rw [firstIndex, ← List.length_map Prod.fst]
  exact List.idxOf_lt_length_of_mem (List.mem_map_of_mem he)

theorem le_firstIndex_append_of_notMem {l : Ledger H} {key : String} (hk : key ∉ l.keys)
    (l' : Ledger H) : l.length ≤ firstIndex (l ++ l') key := by
  have hnot : key ∉ l.map Prod.fst := by
    intro hm
    obtain ⟨e, he, rfl⟩ := List.mem_map.1 hm
    exact hk (mem_keys_iff.2 ⟨e.2, he⟩)
  rw [firstIndex, List.map_append, List.idxOf_append_of_notMem hnot, List.length_map]
  exact Nat.le_add_right _ _

/-- The newest key comes first. -/
theorem pairwise_firstIndex_keys (l : Ledger H) :
    l.keys.Pairwise fun a b => l.firstIndex b < l.firstIndex a := by
  induction l using List.reverseRecOn with
  | nil => exact .nil
  | append_singleton l e ih =>
    obtain ⟨key, h⟩ := e
    have hold : (keys l).Pairwise fun a b =>
        firstIndex (l ++ [(key, h)]) b < firstIndex (l ++ [(key, h)]) a := by
      refine ih.imp_of_mem ?_
      intro a b ha hb hlt
      rwa [firstIndex_append_of_mem ha, firstIndex_append_of_mem hb]
    rw [keys_concat]
    by_cases hk : key ∈ keys l
    · rwa [if_pos hk]
    · rw [if_neg hk]
      refine .cons ?_ hold
      intro a ha
      rw [firstIndex_append_of_mem ha]
      exact Nat.lt_of_lt_of_le (firstIndex_lt_of_mem ha) (le_firstIndex_append_of_notMem hk _)

theorem map_snd_ranked (keys : List String) :
    (ranked keys).map Prod.snd = (List.range keys.length).reverse := by
  induction keys with
  | nil => rfl
  | cons key keys ih =>
    rw [ranked, List.map_cons, ih, List.length_cons, List.range_succ, List.reverse_append]
    rfl

theorem map_rank_entries (l : Ledger H) :
    l.entries.map (·.rank) = (List.range l.entries.length).reverse := by
  have hlength : l.entries.length = l.keys.length := by
    rw [entries, List.length_map, length_ranked]
  rw [hlength, ← map_snd_ranked, entries, List.map_map]
  rfl

/-- The numbers of the entries tell which of two keys came first. -/
theorem rank_lt_iff {l : Ledger H} {e f : Registry.Entry H} (he : e ∈ l.entries)
    (hf : f ∈ l.entries) : e.rank < f.rank ↔ l.firstIndex e.key < l.firstIndex f.key := by
  have hfirst : l.entries.Pairwise fun e f => l.firstIndex f.key < l.firstIndex e.key := by
    have hkeys := l.pairwise_firstIndex_keys
    rw [← map_key_entries] at hkeys
    exact List.pairwise_map.1 hkeys
  have hboth := List.pairwise_iff_getElem.1 (l.pairwise_entries.and hfirst)
  obtain ⟨i, hi, rfl⟩ := List.getElem_of_mem he
  obtain ⟨j, hj, rfl⟩ := List.getElem_of_mem hf
  rcases Nat.lt_trichotomy i j with hij | rfl | hij
  · have hlt := hboth i j hi hj hij
    omega
  · simp
  · have hlt := hboth j i hj hi hij
    omega

/-- An entry stays, with its number and its pattern, and gets the handlers of further
registrations. -/
theorem mem_entries_append {l : Ledger H} {e : Registry.Entry H} (he : e ∈ l.entries)
    (l' : Ledger H) :
    { e with handlers := e.handlers ++ l'.handlers e.key } ∈ entries (l ++ l') := by
  induction l' using List.reverseRecOn with
  | nil => simpa [handlers] using he
  | append_singleton l' r ih =>
    obtain ⟨key, h⟩ := r
    rw [← List.append_assoc]
    by_cases hk : key ∈ keys (l ++ l')
    · rw [entries_concat_of_mem hk]
      refine List.mem_map.2 ⟨_, ih, ?_⟩
      by_cases hkey : e.key = key
      · simp [hkey, handlers_concat]
      · simp [hkey, handlers_concat]
    · have hne : e.key ≠ key := by
        rintro rfl
        exact hk (mem_entries ih).1
      rw [entries_concat_of_notMem hk, handlers_concat, if_neg hne]
      exact List.mem_cons_of_mem _ ih

end Ledger

namespace Registry

variable {H : Type}

structure Represents (l : Ledger H) (r : Registry H) : Prop where
  nodup_keys : (r.entries.map (·.key)).Nodup
  mem_keys_entries_iff : ∀ key, key ∈ r.entries.map (·.key) ↔ ∃ h, (key, h) ∈ l
  ranks_perm : (r.entries.map (·.rank)).Perm (List.range r.entries.length)
  rank_lt_iff : ∀ e ∈ r.entries, ∀ f ∈ r.entries,
    e.rank < f.rank ↔ l.firstIndex e.key < l.firstIndex f.key
  handlers_eq : ∀ e ∈ r.entries, e.handlers = l.handlers e.key
  pattern_eq : ∀ e ∈ r.entries, e.pattern = (Glob.compile e.key).pattern?
  pattern_isSome_iff : ∀ e ∈ r.entries, e.pattern.isSome = true ↔ Glob.Readable e.key
  count_eq : ∀ key, r.count key = (l.handlers key).length
  contains_iff : ∀ key, r.contains key = true ↔ ∃ h, (key, h) ∈ l
  mem_keys_iff : ∀ key, key ∈ r.keys ↔ ∃ h, (key, h) ∈ l
  keys_sorted : r.keys.Pairwise fun a b => a.toUTF8.toList < b.toUTF8.toList

theorem keys_perm (r : Registry H) : r.keys.Perm (r.entries.map (·.key)) :=
  List.mergeSort_perm _ _

theorem keys_sorted_of_nodup {r : Registry H} (h : (r.entries.map (·.key)).Nodup) :
    r.keys.Pairwise fun a b => a.toUTF8.toList < b.toUTF8.toList := by
  have hsorted : r.keys.Pairwise fun a b => decide (a ≤ b) := by
    refine List.pairwise_mergeSort ?_ ?_ _
    · intro a b c hab hbc
      exact decide_eq_true (String.le_trans (of_decide_eq_true hab) (of_decide_eq_true hbc))
    · intro a b
      simpa using String.le_total a b
  have hnodup : r.keys.Nodup := (keys_perm r).nodup_iff.2 h
  refine (hsorted.and hnodup).imp ?_
  rintro a b ⟨hle, hne⟩
  apply Text.toUTF8_lt_toUTF8
  by_contra hlt
  exact hne (String.le_antisymm (of_decide_eq_true hle) (String.not_lt.1 hlt))

namespace Built

variable {l : Ledger H} {r : Registry H}

theorem compile_ne_tooDeep (hb : Built l r) {key : String} (hk : key ∈ l.keys) :
    Glob.compile key ≠ .tooDeep := by
  induction hb with
  | empty => cases hk
  | @registered l r r' key' h hb hr ih =>
    rw [Ledger.keys_concat] at hk
    by_cases hmem : key' ∈ l.keys
    · rw [if_pos hmem] at hk
      exact ih hk
    · rw [if_neg hmem] at hk
      rcases List.mem_cons.1 hk with rfl | hk
      · intro hc
        have hnot : key ∉ r.entries.map (·.key) := fun hm => hmem (hb.mem_map_key_iff.1 hm)
        rw [result?_register_eq_none_iff.2 ⟨hnot, hc⟩] at hr
        cases hr
      · exact ih hk
  | rehashed _ _ ih => exact ih hk

/-- A registration fails exactly if its key cannot be used, whatever is registered already. -/
theorem result?_register_eq_none_iff_tooDeep (hb : Built l r) {key : String} {h : H} :
    (r.register key h).result? = none ↔ Glob.compile key = .tooDeep := by
  rw [result?_register_eq_none_iff, hb.mem_map_key_iff]
  exact ⟨And.right, fun hc => ⟨fun hk => hb.compile_ne_tooDeep hk hc, hc⟩⟩

theorem represents (hb : Built l r) : Represents l r := by
  have hnodup : (r.entries.map (·.key)).Nodup := by
    rw [(hb.entries_perm.map _).nodup_iff, Ledger.map_key_entries]
    exact l.nodup_keys
  have hmem : ∀ e ∈ r.entries, e ∈ l.entries := fun e he => hb.entries_perm.mem_iff.1 he
  have hkeys : ∀ key, key ∈ r.entries.map (·.key) ↔ ∃ h, (key, h) ∈ l := by
    intro key
    rw [hb.mem_map_key_iff, Ledger.mem_keys_iff]
  refine ⟨hnodup, hkeys, ?_, ?_, ?_, ?_, ?_, ?_, ?_, ?_, keys_sorted_of_nodup hnodup⟩
  · have hperm := hb.entries_perm.map (·.rank)
    rw [Ledger.map_rank_entries, ← hb.entries_perm.length_eq] at hperm
    exact hperm.trans (List.reverse_perm _)
  · exact fun e he f hf => Ledger.rank_lt_iff (hmem e he) (hmem f hf)
  · exact fun e he => (Ledger.mem_entries (hmem e he)).2.2
  · exact fun e he => (Ledger.mem_entries (hmem e he)).2.1
  · intro e he
    obtain ⟨hk, hpattern, _⟩ := Ledger.mem_entries (hmem e he)
    rw [hpattern]
    exact Glob.pattern?_isSome_iff (hb.compile_ne_tooDeep hk)
  · intro key
    rw [count, hb.handlers_eq]
  · intro key
    rw [contains, decide_eq_true_eq, count, hb.handlers_eq, List.length_pos_iff, ne_eq,
      Ledger.handlers_eq_nil_iff, not_not, Ledger.mem_keys_iff]
  · intro key
    rw [(keys_perm r).mem_iff, hkeys]

theorem mem_entries_append {l' : Ledger H} {r' : Registry H} (hb : Built l r)
    (hb' : Built (l ++ l') r') {e : Entry H} (he : e ∈ r.entries) :
    { e with handlers := e.handlers ++ l'.handlers e.key } ∈ r'.entries :=
  hb'.entries_perm.mem_iff.2 (Ledger.mem_entries_append (hb.entries_perm.mem_iff.1 he) l')

end Built

end Registry

end TopicClient
