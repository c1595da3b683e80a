import Mathlib.Data.Nat.Notation
import Mathlib.Tactic.SplitIfs
import TopicClient.Glob.Pattern

/-!
# The bytes of a topic

A topic is matched by its UTF-8 bytes. A byte that begins a character never continues one, so the
bytes of a character stand in a text only where the character does: `exists_split_of_bytes`. The
bytes of a character outside ASCII are all at least 128: `le_of_mem_bytes`.
-/

namespace TopicClient.Glob

def encode (cs : List Char) : List UInt8 := cs.flatMap bytes

@[simp] theorem encode_cons (c : Char) (cs : List Char) : encode (c :: cs) = bytes c ++ encode cs :=
  rfl

@[simp] theorem encode_append (cs ds : List Char) : encode (cs ++ ds) = encode cs ++ encode ds :=
  List.flatMap_append

theorem toList_loop_eq (bs : ByteArray) (i : ℕ) (r : List UInt8) :
    ByteArray.toList.loop bs i r = r.reverse ++ bs.data.toList.drop i := by
  fun_induction ByteArray.toList.loop bs i r with
  | case1 i r h ih =>
    have hi : i < bs.data.toList.length := by
      rw [Array.length_toList]
      exact h
    have hget : bs.get! i = bs.data.toList[i] := by
      rw [Array.getElem_toList]
      exact getElem!_pos bs.data i h
    rw [ih, List.reverse_cons, List.append_assoc, List.drop_eq_getElem_cons hi, hget]
    rfl
  | case2 i r h =>
    have hi : bs.data.toList.length ≤ i := by
      rw [Array.length_toList]
      exact Nat.le_of_not_lt h
    rw [List.drop_eq_nil_of_le hi, List.append_nil]

theorem toList_toUTF8 (s : String) : s.toUTF8.toList = encode s.toList := by
  have hdata : s.toByteArray.data.toList = encode s.toList := by
    rw [← String.utf8Encode_toList, List.utf8Encode, List.toList_data_toByteArray]
    rfl
  rw [← hdata, ByteArray.toList, toList_loop_eq]
  rfl

/-- The byte stands inside a character. -/
def Continues (b : UInt8) : Prop := 128 ≤ b.toNat ∧ b.toNat < 192

theorem bytes_of_ascii {c : Char} (h : c.toNat < 128) : bytes c = [UInt8.ofNat c.toNat] := by
  rw [bytes, String.utf8EncodeChar]
  exact if_pos (Nat.le_of_lt_succ h)

theorem toNat_byte {c : Char} (h : c.toNat < 128) : (UInt8.ofNat c.toNat).toNat = c.toNat := by
  rw [UInt8.toNat_ofNat']
  omega

theorem exists_bytes_eq_cons (c : Char) :
    ∃ b bs, bytes c = b :: bs ∧ ¬ Continues b ∧ (∀ a ∈ bs, Continues a) ∧
      (128 ≤ c.toNat → 128 ≤ b.toNat ∧ bs ≠ []) := by
  have hval : c.val.toNat = c.toNat := rfl
  rw [bytes, String.utf8EncodeChar, hval]
  split_ifs with h₁ h₂ h₃
  · refine ⟨_, _, rfl, ?_, nofun, fun h => ?_⟩
    · simp only [Continues, UInt8.toNat_ofNat']
      omega
    · omega
  all_goals
    refine ⟨_, _, rfl, ?_, ?_, fun _ => ⟨?_, List.cons_ne_nil _ _⟩⟩
    · simp only [Continues, UInt8.toNat_ofNat']
      omega
    · simp only [Continues, List.mem_cons, List.not_mem_nil, or_false, forall_eq_or_imp, forall_eq,
        UInt8.toNat_ofNat']
      omega
    · simp only [UInt8.toNat_ofNat']
      omega

theorem bytes_ne_nil (c : Char) : bytes c ≠ [] := by
  obtain ⟨b, bs, h, _⟩ := exists_bytes_eq_cons c
  rw [h]
  exact List.cons_ne_nil b bs

theorem le_of_mem_bytes {c : Char} (h : 128 ≤ c.toNat) {b : UInt8} (hb : b ∈ bytes c) :
    128 ≤ b.toNat := by
  obtain ⟨a, bs, hbytes, _, hbs, ha⟩ := exists_bytes_eq_cons c
  rw [hbytes] at hb
  rcases List.mem_cons.1 hb with rfl | hb
  · exact (ha h).1
  · exact (hbs b hb).1

theorem bytes_append_inj {c d : Char} {u v : List UInt8} (h : bytes c ++ u = bytes d ++ v) :
    c = d := by
  have hdecode : ∀ (c : Char) (u : List UInt8),
      ByteArray.utf8DecodeChar? (bytes c ++ u).toByteArray 0 = some c := by
    intro c u
    rw [List.toByteArray_append]
    exact ByteArray.utf8DecodeChar?_utf8EncodeChar_append
  have hc := hdecode c u
  rw [h, hdecode d v] at hc
  exact (Option.some.inj hc).symm

theorem encode_injective {cs ds : List Char} (h : encode cs = encode ds) : cs = ds := by
  induction cs generalizing ds with
  | nil =>
    cases ds with
    | nil => rfl
    | cons d ds => exact absurd (List.append_eq_nil_iff.1 h.symm).1 (bytes_ne_nil d)
  | cons c cs ih =>
    cases ds with
    | nil => exact absurd (List.append_eq_nil_iff.1 h).1 (bytes_ne_nil c)
    | cons d ds =>
      obtain rfl := bytes_append_inj h
      rw [ih (List.append_cancel_left h)]

theorem exists_char_of_encode_eq {cs : List Char} {u v : List UInt8} {b : UInt8}
    (h : encode cs = u ++ b :: v) :
    ∃ x c y p q, cs = x ++ c :: y ∧ bytes c = p ++ b :: q ∧ u = encode x ++ p ∧
      v = q ++ encode y := by
  induction cs generalizing u with
  | nil => exact absurd h.symm (List.append_ne_nil_of_right_ne_nil u (List.cons_ne_nil b v))
  | cons c cs ih =>
    rw [encode_cons] at h
    rcases List.append_eq_append_iff.1 h with ⟨u', rfl, h'⟩ | ⟨w, hc, hw⟩
    · obtain ⟨x, d, y, p, q, rfl, hd, rfl, rfl⟩ := ih h'
      exact ⟨c :: x, d, y, p, q, rfl, hd, (List.append_assoc _ _ _).symm, rfl⟩
    · cases w with
      | nil =>
        obtain ⟨x, d, y, p, q, rfl, hd, hp, rfl⟩ := ih (u := []) hw.symm
        refine ⟨c :: x, d, y, p, q, rfl, hd, ?_, rfl⟩
        rw [encode_cons, List.append_assoc, ← hp, hc, List.append_nil, List.append_nil]
      | cons a w =>
        obtain ⟨rfl, rfl⟩ := List.cons_eq_cons.1 hw
        exact ⟨[], c, cs, u, w, rfl, hc, rfl, rfl⟩

theorem exists_char_of_not_continues {cs : List Char} {u v : List UInt8} {b : UInt8}
    (hb : ¬ Continues b) (h : encode cs = u ++ b :: v) :
    ∃ x c y q, cs = x ++ c :: y ∧ bytes c = b :: q ∧ u = encode x ∧ v = q ++ encode y := by
  obtain ⟨x, c, y, p, q, rfl, hc, rfl, rfl⟩ := exists_char_of_encode_eq h
  obtain ⟨a, bs, hbytes, _, hbs, _⟩ := exists_bytes_eq_cons c
  cases p with
  | nil => exact ⟨x, c, y, q, rfl, hc, List.append_nil _, rfl⟩
  | cons a' p =>
    rw [hbytes] at hc
    have hmem : b ∈ bs := by
      rw [(List.cons_eq_cons.1 hc).2]
      exact List.mem_append_right p List.mem_cons_self
    exact absurd (hbs b hmem) hb

/-- Where the bytes of a character stand in a text, the character stands. -/
theorem exists_split_of_bytes {cs : List Char} {u v : List UInt8} {c : Char}
    (h : encode cs = u ++ (bytes c ++ v)) :
    ∃ x y, cs = x ++ c :: y ∧ u = encode x ∧ v = encode y := by
  obtain ⟨b, bs, hbytes, hb, _⟩ := exists_bytes_eq_cons c
  have h' := h
  rw [hbytes] at h'
  obtain ⟨x, d, y, q, rfl, hd, rfl, hv⟩ := exists_char_of_not_continues hb h'
  rw [encode_append, encode_cons] at h
  have htail := List.append_cancel_left h
  obtain rfl := bytes_append_inj htail
  exact ⟨x, y, rfl, rfl, (List.append_cancel_left htail).symm⟩

end TopicClient.Glob
