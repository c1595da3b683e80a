import Mathlib.Data.List.Dedup
import TopicClient.Proofs.Glob.Residuals
import TopicClient.Registry.Basic

/-!
# Registries as ledgers of registrations

A ledger lists registrations in the order in which they were made. `Registry.Built` relates a
ledger to every registry that its registrations can lead to, with the entries in whatever order a
hash map may keep them. The entries of such a registry are those of `Ledger.entries`, and so its
order of delivery is a function of the ledger: `Registry.Built.order_eq`.
-/

namespace TopicClient

namespace Glob

/-- Whether a key delivers by its pattern: it is the wildcard, or a readable pattern to which the
bytes of the topic belong. -/
def Receives (key topic : String) : Prop :=
  key = Registry.wildcard ∨
    ∃ pattern, compile key = .glob pattern ∧ pattern.regex.Matches topic.toUTF8.toList

def Compiled.pattern? : Compiled → Option Glob
  | .glob pattern => some pattern
  | _ => none

theorem Compiled.pattern?_eq_some_iff {c : Compiled} {g : Glob} :
    c.pattern? = some g ↔ c = .glob g := by
  cases c <;> simp [pattern?]

theorem receives_iff {key topic : String} :
    (key = Registry.wildcard || (compile key).pattern?.any (·.accepts topic)) = true ↔
      Receives key topic := by
  simp only [Bool.or_eq_true, decide_eq_true_eq, Option.any_eq_true, Receives,
    Compiled.pattern?_eq_some_iff, accepts, Regex.accepts_iff_matches]

instance (key topic : String) : Decidable (Receives key topic) :=
  decidable_of_iff _ receives_iff

end Glob

/-- Registrations, a key with a handler each, in the order in which they were made. -/
abbrev Ledger (H : Type) := List (String × H)

namespace Ledger

variable {H : Type}

/-- The keys in the reverse order of their first registrations. Of the occurrences of a key only
the earliest counts, which is the last one here. -/
def keys (l : Ledger H) : List String := (l.map Prod.fst).reverse.dedup

def handlers (l : Ledger H) (key : String) : List H :=
  (l.filter fun e => e.1 = key).map Prod.snd

/-- The handlers for an event of a topic in the order of their calls: those of the topic itself,
newest first, then those of every other key that receives the topic, newest key first and under
one key newest handler first. -/
def order (l : Ledger H) (topic : String) : List H :=
  (l.handlers topic).reverse ++
    (l.keys.filter fun key => key ≠ topic ∧ Glob.Receives key topic).flatMap
      fun key => (l.handlers key).reverse

def ranked : List String → List (String × ℕ)
  | [] => []
  | key :: keys => (key, keys.length) :: ranked keys

def entries (l : Ledger H) : List (Registry.Entry H) :=
  (ranked l.keys).map fun p => ⟨p.1, p.2, (Glob.compile p.1).pattern?, l.handlers p.1⟩

theorem mem_keys {l : Ledger H} {key : String} : key ∈ l.keys ↔ ∃ e ∈ l, e.1 = key := by
  simp [keys]

theorem nodup_keys (l : Ledger H) : l.keys.Nodup := List.nodup_dedup _

theorem keys_concat (l : Ledger H) (key : String) (h : H) :
    keys (l ++ [(key, h)]) = if key ∈ l.keys then l.keys else key :: l.keys := by
  simp only [keys, List.map_append, List.map_cons, List.map_nil, List.reverse_append,
    List.reverse_cons, List.reverse_nil, List.nil_append, List.singleton_append, List.mem_dedup,
    List.dedup_cons]

theorem handlers_append (l l' : Ledger H) (key : String) :
    handlers (l ++ l') key = l.handlers key ++ handlers l' key := by
  simp only [handlers, List.filter_append, List.map_append]

theorem handlers_concat (l : Ledger H) (key key' : String) (h : H) :
    handlers (l ++ [(key, h)]) key' =
      if key' = key then l.handlers key' ++ [h] else l.handlers key' := by
  rw [handlers_append]
  by_cases hk : key' = key
  · simp [handlers, hk]
  · simp [handlers, hk, Ne.symm hk]

theorem handlers_eq_nil_iff {l : Ledger H} {key : String} : l.handlers key = [] ↔ key ∉ l.keys := by
  simp only [handlers, List.map_eq_nil_iff, List.filter_eq_nil_iff, mem_keys, decide_eq_true_eq,
    not_exists, not_and]

@[simp] theorem map_fst_ranked (keys : List String) : (ranked keys).map Prod.fst = keys := by
  induction keys with
  | nil => rfl
  | cons key keys ih => simp only [ranked, List.map_cons, ih]

@[simp] theorem length_ranked (keys : List String) : (ranked keys).length = keys.length := by
  rw [← List.length_map Prod.fst, map_fst_ranked]

theorem snd_lt_of_mem_ranked {keys : List String} {p : String × ℕ} (hp : p ∈ ranked keys) :
    p.2 < keys.length := by
  induction keys with
  | nil => cases hp
  | cons key keys ih =>
    rcases List.mem_cons.1 hp with rfl | hp
    · exact Nat.lt_succ_self _
    · exact Nat.lt_succ_of_lt (ih hp)

theorem pairwise_ranked (keys : List String) : (ranked keys).Pairwise fun p q => q.2 < p.2 := by
  induction keys with
  | nil => exact .nil
  | cons key keys ih => exact .cons (fun _ hq => snd_lt_of_mem_ranked hq) ih

theorem map_key_entries (l : Ledger H) : l.entries.map (·.key) = l.keys := by
  simp only [entries, List.map_map, Function.comp_def]
  exact map_fst_ranked _

theorem pairwise_entries (l : Ledger H) : l.entries.Pairwise fun e f => f.rank < e.rank :=
  List.pairwise_map.2 (pairwise_ranked l.keys)

theorem mem_entries {l : Ledger H} {e : Registry.Entry H} (he : e ∈ l.entries) :
    e.key ∈ l.keys ∧ e.pattern = (Glob.compile e.key).pattern? ∧ e.handlers = l.handlers e.key := by
  refine ⟨map_key_entries l ▸ List.mem_map_of_mem he, ?_⟩
  obtain ⟨p, _, rfl⟩ := List.mem_map.1 he
  exact ⟨rfl, rfl⟩

theorem eq_of_rank_eq {l : Ledger H} {e f : Registry.Entry H} (he : e ∈ l.entries)
    (hf : f ∈ l.entries) (h : e.rank = f.rank) : e = f := by
  have hnodup : (l.entries.map (·.rank)).Nodup :=
    List.pairwise_map.2 ((pairwise_entries l).imp fun hlt => Nat.ne_of_gt hlt)
  exact List.inj_on_of_nodup_map hnodup he hf h

/-- A further handler under a key that is present joins the entry of the key. -/
theorem entries_concat_of_mem {l : Ledger H} {key : String} (hk : key ∈ l.keys) (h : H) :
    entries (l ++ [(key, h)]) = l.entries.map fun e =>
      if e.key = key then { e with handlers := e.handlers ++ [h] } else e := by
  simp only [entries, keys_concat, if_pos hk, List.map_map]
  apply List.map_congr_left
  intro p _
  by_cases hp : p.1 = key
  · simp only [Function.comp_apply, handlers_concat, if_pos hp]
  · simp only [Function.comp_apply, handlers_concat, if_neg hp]

/-- The entry of a new key gets the next number and leaves the others as they are. -/
theorem entries_concat_of_notMem {l : Ledger H} {key : String} (hk : key ∉ l.keys) (h : H) :
    entries (l ++ [(key, h)]) =
      ⟨key, l.entries.length, (Glob.compile key).pattern?, [h]⟩ :: l.entries := by
  have hnil : l.handlers key = [] := handlers_eq_nil_iff.2 hk
  simp only [entries, keys_concat, if_neg hk, ranked, List.map_cons, handlers_concat, if_true,
    hnil, List.nil_append, List.length_map, length_ranked, List.cons.injEq, true_and]
  apply List.map_congr_left
  intro p hp
  have hne : p.1 ≠ key := by
    rintro rfl
    exact hk (map_fst_ranked l.keys ▸ List.mem_map_of_mem hp)
  rw [if_neg hne]

/-- Handlers under distinct keys, all keys taken together, are those registered under one of
them. -/
theorem flatMap_handlers_perm (l : Ledger H) {keys : List String} (hk : keys.Nodup) :
    (keys.flatMap fun key => (l.handlers key).reverse).Perm
      ((l.filter fun e => e.1 ∈ keys).map Prod.snd) := by
  induction keys with
  | nil => simp
  | cons key keys ih =>
    obtain ⟨hnotMem, hnodup⟩ := List.nodup_cons.1 hk
    have hsplit : ((l.filter fun e => e.1 = key) ++ l.filter fun e => e.1 ∈ keys).Perm
        (l.filter fun e => e.1 ∈ key :: keys) := by
      have hp := List.filter_append_perm (fun e : String × H => e.1 = key)
        (l.filter fun e => e.1 ∈ key :: keys)
      rw [List.filter_filter, List.filter_filter] at hp
      convert hp using 2
      · apply List.filter_congr
        intro e _
        by_cases he : e.1 = key <;> simp [he]
      · apply List.filter_congr
        intro e _
        by_cases he : e.1 = key
        · simp [he, hnotMem]
        · simp [he]
    rw [List.flatMap_cons]
    refine List.Perm.trans ?_ (hsplit.map Prod.snd)
    rw [List.map_append]
    exact (List.reverse_perm _).append (ih hnodup)

/-- An event is delivered once to each registration whose key is its topic or receives it, and
to no other. -/
theorem order_perm (l : Ledger H) (topic : String) :
    (l.order topic).Perm
      ((l.filter fun e => e.1 = topic ∨ Glob.Receives e.1 topic).map Prod.snd) := by
  let others := l.keys.filter fun key => key ≠ topic ∧ Glob.Receives key topic
  have hnodup : (topic :: others).Nodup :=
    List.nodup_cons.2 ⟨by simp [others], (nodup_keys l).filter _⟩
  have heq : l.order topic = (topic :: others).flatMap fun key => (l.handlers key).reverse := rfl
  have hfilter : (l.filter fun e => e.1 ∈ topic :: others) =
      l.filter fun e => e.1 = topic ∨ Glob.Receives e.1 topic := by
    apply List.filter_congr
    intro e he
    have hmem : e.1 ∈ l.keys := mem_keys.2 ⟨e, he, rfl⟩
    by_cases ht : e.1 = topic <;> simp [others, ht, hmem]
  rw [heq, ← hfilter]
  exact flatMap_handlers_perm l hnodup

theorem mem_order {l : Ledger H} {topic : String} {h : H} :
    h ∈ l.order topic ↔ ∃ e ∈ l, e.2 = h ∧ (e.1 = topic ∨ Glob.Receives e.1 topic) := by
  rw [(order_perm l topic).mem_iff]
  simp only [List.mem_map, List.mem_filter, decide_eq_true_eq]
  constructor
  · rintro ⟨e, ⟨he, hr⟩, hh⟩
    exact ⟨e, he, hh, hr⟩
  · rintro ⟨e, he, hh, hr⟩
    exact ⟨e, ⟨he, hr⟩, hh⟩

end Ledger

end TopicClient
