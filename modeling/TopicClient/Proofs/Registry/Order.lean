import TopicClient.Proofs.Registry.Ledger

/-!
# The order of delivery

A registry is built by registrations, and its entries may come in any order at any time, as those
of a hash map do. Whatever happened, its entries are a permutation of `Ledger.entries`. The number
of an entry tells when its key was first registered, so sorting by it recovers the order of the
ledger.
-/

namespace TopicClient.Registry

variable {H : Type}

def Registration.result? : Registration H → Option (Registry H)
  | .done r => some r
  | .literal r _ => some r
  | .refused => none

/-- The registries that successful registrations lead to. Between two of them the entries may
change their places. -/
inductive Built : Ledger H → Registry H → Prop
  | empty : Built [] .empty
  | registered {l : Ledger H} {r r' : Registry H} {key : String} {h : H} (hb : Built l r)
      (hr : (r.register key h).result? = some r') : Built (l ++ [(key, h)]) r'
  | rehashed {l : Ledger H} {r r' : Registry H} (hb : Built l r)
      (hp : r'.entries.Perm r.entries) : Built l r'

theorem find?_isSome_iff {r : Registry H} {key : String} :
    (r.find? key).isSome = true ↔ key ∈ r.entries.map (·.key) := by
  simp [find?, List.find?_isSome]

theorem result?_register_of_mem {r : Registry H} {key : String}
    (hk : key ∈ r.entries.map (·.key)) (h : H) :
    (r.register key h).result? = some (r.append key h) := by
  obtain ⟨e, he⟩ := Option.isSome_iff_exists.1 (find?_isSome_iff.2 hk)
  simp only [register, he, Registration.result?]

theorem result?_register_of_notMem {r : Registry H} {key : String}
    (hk : key ∉ r.entries.map (·.key)) (hc : Glob.compile key ≠ .tooDeep) (h : H) :
    (r.register key h).result? = some (r.add key (Glob.compile key).pattern? h) := by
  have hnone : r.find? key = none :=
    Option.not_isSome_iff_eq_none.1 fun hs => hk (find?_isSome_iff.1 hs)
  simp only [register, hnone]
  cases hcompile : Glob.compile key with
  | literal => rfl
  | glob pattern => rfl
  | invalid cause => rfl
  | tooDeep => exact absurd hcompile hc

/-- Only a new key can be refused, and only for the nesting of its pattern. -/
theorem result?_register_eq_none_iff {r : Registry H} {key : String} {h : H} :
    (r.register key h).result? = none ↔
      key ∉ r.entries.map (·.key) ∧ Glob.compile key = .tooDeep := by
  by_cases hk : key ∈ r.entries.map (·.key)
  · simp [result?_register_of_mem hk, hk]
  · by_cases hc : Glob.compile key = .tooDeep
    · have hnone : r.find? key = none :=
        Option.not_isSome_iff_eq_none.1 fun hs => hk (find?_isSome_iff.1 hs)
      simp only [register, hnone, hc, Registration.result?, hk, not_false_eq_true, and_self]
    · simp [result?_register_of_notMem hk hc, hc]

namespace Built

variable {l : Ledger H} {r : Registry H}

theorem entries_perm (hb : Built l r) : r.entries.Perm l.entries := by
  induction hb with
  | empty => exact .nil
  | @registered l r r' key h hb hr ih =>
    have hkeys : key ∈ r.entries.map (·.key) ↔ key ∈ l.keys := by
      rw [(ih.map _).mem_iff, Ledger.map_key_entries]
    by_cases hk : key ∈ l.keys
    · rw [result?_register_of_mem (hkeys.2 hk)] at hr
      obtain rfl := Option.some.inj hr
      rw [Ledger.entries_concat_of_mem hk]
      exact ih.map _
    · have hnot : key ∉ r.entries.map (·.key) := fun hm => hk (hkeys.1 hm)
      have hc : Glob.compile key ≠ .tooDeep := by
        intro hc
        rw [result?_register_eq_none_iff.2 ⟨hnot, hc⟩] at hr
        cases hr
      rw [result?_register_of_notMem hnot hc] at hr
      obtain rfl := Option.some.inj hr
      rw [Ledger.entries_concat_of_notMem hk, ← ih.length_eq]
      exact (List.perm_append_singleton _ _).trans (ih.cons _)
  | rehashed _ hp ih => exact hp.trans ih

theorem mem_map_key_iff (hb : Built l r) {key : String} :
    key ∈ r.entries.map (·.key) ↔ key ∈ l.keys := by
  rw [(hb.entries_perm.map _).mem_iff, Ledger.map_key_entries]

theorem exists_registered (hb : Built l r) (key : String)
    (hc : key ∈ l.keys ∨ Glob.compile key ≠ .tooDeep) (h : H) :
    ∃ r', (r.register key h).result? = some r' ∧ Built (l ++ [(key, h)]) r' := by
  cases hr : (r.register key h).result? with
  | some r' => exact ⟨r', rfl, hb.registered hr⟩
  | none =>
    obtain ⟨hnot, htoo⟩ := result?_register_eq_none_iff.1 hr
    rcases hc with hk | hc
    · exact absurd (hb.mem_map_key_iff.2 hk) hnot
    · exact absurd htoo hc

theorem handlers_eq (hb : Built l r) (key : String) : r.handlers key = l.handlers key := by
  rw [handlers]
  cases hf : r.find? key with
  | none =>
    have hnot : key ∉ r.entries.map (·.key) := by
      rw [← find?_isSome_iff, hf]
      exact Bool.false_ne_true
    exact (Ledger.handlers_eq_nil_iff.2 fun hk => hnot (hb.mem_map_key_iff.2 hk)).symm
  | some e =>
    have hmem : e ∈ l.entries := hb.entries_perm.mem_iff.1 (List.mem_of_find?_eq_some hf)
    have hkey : e.key = key := by simpa using List.find?_some hf
    exact hkey ▸ (Ledger.mem_entries hmem).2.2

/-- Sorting by number undoes any permutation of the entries. -/
theorem covering_eq (hb : Built l r) (topic : String) :
    r.covering topic = l.entries.filter (·.covers topic) := by
  have hperm : (r.covering topic).Perm (l.entries.filter (·.covers topic)) :=
    (List.mergeSort_perm _ _).trans (hb.entries_perm.filter _)
  have hsorted : (r.covering topic).Pairwise fun e f => f.rank ≤ e.rank := by
    have hs : (r.covering topic).Pairwise fun e f => decide (f.rank ≤ e.rank) := by
      refine List.pairwise_mergeSort ?_ ?_ _
      · intro e f g hef hfg
        exact decide_eq_true (Nat.le_trans (of_decide_eq_true hfg) (of_decide_eq_true hef))
      · intro e f
        simpa using Nat.le_total f.rank e.rank
    exact hs.imp of_decide_eq_true
  have hentries : (l.entries.filter (·.covers topic)).Pairwise fun e f => f.rank ≤ e.rank :=
    ((Ledger.pairwise_entries l).filter _).imp Nat.le_of_lt
  refine List.Perm.eq_of_pairwise ?_ hsorted hentries hperm
  intro e f he hf hfe hef
  have he' : e ∈ l.entries := (List.mem_filter.1 (hperm.mem_iff.1 he)).1
  have hf' : f ∈ l.entries := (List.mem_filter.1 hf).1
  exact Ledger.eq_of_rank_eq he' hf' (Nat.le_antisymm hef hfe)

theorem order_eq (hb : Built l r) (topic : String) : r.order topic = l.order topic := by
  have hcovers : ∀ p : String × ℕ, Entry.covers (H := H)
      ⟨p.1, p.2, (Glob.compile p.1).pattern?, l.handlers p.1⟩ topic =
      decide (p.1 ≠ topic ∧ Glob.Receives p.1 topic) := by
    intro p
    rw [Bool.eq_iff_iff, Entry.covers, Bool.and_eq_true, Glob.receives_iff, decide_eq_true_eq,
      decide_eq_true_eq]
  have hfilter : l.keys.filter (fun key => key ≠ topic ∧ Glob.Receives key topic) =
      ((Ledger.ranked l.keys).filter fun p =>
        p.1 ≠ topic ∧ Glob.Receives p.1 topic).map Prod.fst := by
    have hmap := Ledger.map_fst_ranked l.keys
    generalize Ledger.ranked l.keys = ranks at hmap
    rw [← hmap, List.filter_map]
    rfl
  rw [order, Ledger.order, hb.handlers_eq, hb.covering_eq, Ledger.entries, List.filter_map,
    hfilter, List.flatMap_map, List.flatMap_map]
  simp only [Function.comp_def, hcovers]

/-- A handler that stands under one key alone receives the events of that key. -/
theorem mem_order_iff (hb : Built l r) {key : String} {h : H} (hmem : (key, h) ∈ l)
    (honly : ∀ e ∈ l, e.2 = h → e.1 = key) (topic : String) :
    h ∈ r.order topic ↔ key = topic ∨ Glob.Receives key topic := by
  rw [hb.order_eq, Ledger.mem_order]
  constructor
  · rintro ⟨e, he, heh, hreceives⟩
    rw [← honly e he heh]
    exact hreceives
  · intro hreceives
    exact ⟨_, hmem, rfl, hreceives⟩

end Built

/-- The wildcard is a readable pattern, so a key that is none can only be its own topic's. -/
theorem not_receives_of_unreadable {key : String}
    (hk : Glob.isGlob key = false ∨ ∃ cause, Glob.compile key = .invalid cause) (topic : String) :
    ¬ Glob.Receives key topic := by
  have hnone : ∀ pattern, Glob.compile key ≠ .glob pattern := by
    rintro pattern hp
    rcases hk with hk | ⟨cause, hk⟩
    · rw [Glob.compile, hk] at hp
      cases hp
    · rw [hk] at hp
      cases hp
  rintro (rfl | ⟨pattern, hp, _⟩)
  · exact hnone _ rfl
  · exact hnone pattern hp

/-- Whatever registrations built a registry, and in whatever order its entries stand, an event goes
first to the handlers of its topic and then to those of the other keys that receive it, newest key
first and newest handler first. So every registration is reached at most once, one under the topic
itself always, and one under another key only by a readable pattern. -/
theorem delivery_order_of_built {l : Ledger H} {r : Registry H} (hb : Built l r)
    (topic : String) :
    r.order topic = (l.handlers topic).reverse ++
        (l.keys.filter fun key => key ≠ topic ∧ Glob.Receives key topic).flatMap
          (fun key => (l.handlers key).reverse) ∧
      (r.order topic).Perm
        ((l.filter fun e => e.1 = topic ∨ Glob.Receives e.1 topic).map Prod.snd) ∧
      (∀ h, (topic, h) ∈ l → h ∈ r.order topic) ∧
      ∀ key, Glob.isGlob key = false ∨ (∃ cause, Glob.compile key = .invalid cause) →
        ¬ Glob.Receives key topic := by
  rw [hb.order_eq]
  refine ⟨rfl, l.order_perm topic, ?_, fun key hk => not_receives_of_unreadable hk topic⟩
  intro h hmem
  exact Ledger.mem_order.2 ⟨(topic, h), hmem, rfl, .inl rfl⟩

/-- A second handler under an old key comes before the first one, and does not move the key. -/
theorem delivery_order_of_four_registrations :
    ∃ r : Registry ℕ, Built [("a?", 0), ("*", 1), ("[a", 2), ("a?", 3)] r ∧
      r.order "ab" = [1, 3, 0] ∧ r.order "[a" = [2, 1] := by
  obtain ⟨r₁, _, h₁⟩ := Built.empty.exists_registered "a?" (.inr nofun) 0
  obtain ⟨r₂, _, h₂⟩ := h₁.exists_registered "*" (.inr nofun) 1
  obtain ⟨r₃, _, h₃⟩ := h₂.exists_registered "[a" (.inr nofun) 2
  obtain ⟨r₄, _, h₄⟩ := h₃.exists_registered "a?" (.inr nofun) 3
  refine ⟨r₄, h₄, ?_, ?_⟩
  · rw [(delivery_order_of_built h₄ "ab").1]
    decide +kernel
  · rw [(delivery_order_of_built h₄ "[a").1]
    decide +kernel

end TopicClient.Registry
