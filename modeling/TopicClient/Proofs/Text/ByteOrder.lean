import TopicClient.Proofs.Glob.Encoding

/-!
# The order of texts by their bytes

Texts are compared character by character. The UTF-8 bytes of a greater character are greater, and
those of one character never begin those of another, so comparing the bytes of two texts comes to
the same: `toUTF8_lt_toUTF8`.
-/

namespace TopicClient.Text

open Glob

theorem append_lt_append {bs cs : List UInt8} (h : bs < cs) (hp : ¬ bs <+: cs)
    (us vs : List UInt8) : bs ++ us < cs ++ vs := by
  induction bs generalizing cs with
  | nil => exact absurd List.nil_prefix hp
  | cons b bs ih =>
    cases cs with
    | nil => exact absurd h (List.not_lt_nil _)
    | cons c cs =>
      rw [List.cons_prefix_cons] at hp
      rw [List.cons_append, List.cons_append, List.cons_lt_cons_iff]
      rcases List.cons_lt_cons_iff.1 h with hlt | ⟨rfl, hlt⟩
      · exact .inl hlt
      · exact .inr ⟨rfl, ih hlt fun hpre => hp ⟨rfl, hpre⟩⟩

theorem toNat_lt_bound (c : Char) : c.toNat < 1114112 := by
  have hvalid : c.toNat.isValidChar := c.valid
  unfold Nat.isValidChar at hvalid
  omega

/-- The bytes of a character hold its digits to the base 64, the highest first, and their number
grows with the character. -/
theorem bytes_lt_bytes {c d : Char} (h : c < d) : bytes c < bytes d := by
  have hlt : c.toNat < d.toNat := h
  have hbound : d.toNat < 1114112 := toNat_lt_bound d
  have hc : c.val.toNat = c.toNat := rfl
  have hd : d.val.toNat = d.toNat := rfl
  have hthird (n : ℕ) : n / 4096 = n / 64 / 64 := by omega
  have hfourth (n : ℕ) : n / 262144 = n / 64 / 64 / 64 := by omega
  rw [bytes, bytes, String.utf8EncodeChar, String.utf8EncodeChar, hc, hd]
  split_ifs <;>
    simp only [List.cons_lt_cons_iff, List.not_lt_nil, and_false, or_false,
      UInt8.lt_iff_toNat_lt, ← UInt8.toNat_inj, UInt8.toNat_ofNat', hthird, hfourth] <;>
    omega

theorem not_prefix_bytes {c d : Char} (h : c ≠ d) : ¬ bytes c <+: bytes d := by
  rintro ⟨us, hus⟩
  exact h (bytes_append_inj (hus.trans (List.append_nil _).symm))

theorem encode_lt_encode {cs ds : List Char} (h : cs < ds) : encode cs < encode ds := by
  induction cs generalizing ds with
  | nil =>
    cases ds with
    | nil => exact absurd h (List.not_lt_nil _)
    | cons d ds =>
      obtain ⟨b, bs, hb⟩ := List.exists_cons_of_ne_nil (bytes_ne_nil d)
      rw [encode_cons, hb]
      exact List.nil_lt_cons _ _
  | cons c cs ih =>
    cases ds with
    | nil => exact absurd h (List.not_lt_nil _)
    | cons d ds =>
      rw [encode_cons, encode_cons]
      rcases List.cons_lt_cons_iff.1 h with hlt | ⟨rfl, hlt⟩
      · have hne : c ≠ d := by
          rintro rfl
          exact Nat.lt_irrefl _ hlt
        exact append_lt_append (bytes_lt_bytes hlt) (not_prefix_bytes hne) _ _
      · exact List.append_left_lt (ih hlt)

theorem toUTF8_lt_toUTF8 {s t : String} (h : s < t) : s.toUTF8.toList < t.toUTF8.toList := by
  rw [toList_toUTF8, toList_toUTF8]
  exact encode_lt_encode h

end TopicClient.Text
