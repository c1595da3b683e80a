import Mathlib.Data.List.Chain
import TopicClient.Proofs.Glob.Agreement

/-!
# What a key without trees receives

A key of pieces without braces can be read as a pattern. When no two stars of it stand side by
side, no double star is a tree, and the pattern matches what its pieces do one after another:
`exists_matches_keyOf`.
-/

namespace TopicClient.Glob

open Regex

theorem toNat_eq_slash_iff {c : Char} : c.toNat = 47 ↔ c = '/' := by
  constructor
  · intro h
    exact Char.toNat_inj.1 h
  · rintro rfl
    rfl

theorem forall_mem_encode_ne_slash_iff {cs : List Char} :
    (∀ b ∈ encode cs, b.toNat ≠ 47) ↔ '/' ∉ cs := by
  simp only [forall_mem_encode_ne_slash, ne_eq, toNat_eq_slash_iff]
  exact List.forall_mem_ne'

def Apart (p q : Piece) : Prop := p = .loose .run → q ≠ .loose .run

variable {ps : List Piece}

theorem beginsTree_eq_false {p : Piece} (h : (p :: ps).IsChain Apart) :
    beginsTree (p :: ps) = false := by
  unfold beginsTree
  split
  · rename_i heq
    obtain ⟨rfl, rfl⟩ := List.cons_eq_cons.1 heq
    exact absurd rfl ((List.isChain_cons_cons.1 h).1 rfl)
  · rfl

theorem hasTree_eq_false (h : ps.IsChain Apart) (start : Bool) : hasTree start ps = false := by
  induction ps generalizing start with
  | nil => rfl
  | cons p ps ih => rw [hasTree, beginsTree_eq_false h, ih h.tail, Bool.and_false, Bool.or_false]

/-- A key of pieces is a pattern, and its pieces match one after another. -/
theorem exists_matches_keyOf (hbrace : ∀ p ∈ ps, p.isBrace = false) (h : ps.IsChain Apart)
    (hglob : isGlob (keyOf ps) = true) :
    ∃ pattern, compile (keyOf ps) = .glob pattern ∧
      ∀ w, Matches pattern.regex w ↔ Words (ps.map Piece.token) w := by
  obtain ⟨pattern, hcompile⟩ := exists_compile_keyOf hbrace hglob
  obtain ⟨_, ts, hparse, rfl⟩ := exists_parse_of_compile hcompile
  rw [keyOf, String.toList_ofList] at hparse
  obtain ⟨ts', hparse', hts⟩ := exists_parse_spell hbrace
  obtain rfl := Except.ok.inj (hparse.symm.trans hparse')
  exact ⟨_, hcompile, regexOf_eq_of_no_tree hts (hasTree_eq_false h true)⟩

end TopicClient.Glob
