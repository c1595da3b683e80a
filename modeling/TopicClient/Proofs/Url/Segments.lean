import TopicClient.Proofs.Text.Splitting
import TopicClient.Proofs.Url.Authority

/-!
# Paths put behind paths

Segments that others follow come to the same, whatever these are (`descend`). A path of plain words
that is put behind another path therefore stands at the end of the whole, as it is; what stands
before it may still differ from the other path alone, by the slashes at its end.
-/

namespace TopicClient.Url

/-! ## Segments -/

section Segments

variable {s : Scheme}

/-- What segments come to that others follow. -/
def descend (s : Scheme) : List String → List (List Char) → List String
  | done, [] => done
  | done, c :: cs =>
    if isDoubleDot c then descend s (shorten s done) cs
    else if isDot c then descend s done cs
    else descend s (done ++ [segmentText s done c]) cs

theorem descend_append (done : List String) (xs ys : List (List Char)) :
    descend s done (xs ++ ys) = descend s (descend s done xs) ys := by
  induction xs generalizing done with
  | nil => rfl
  | cons x xs ih =>
    rw [List.cons_append, descend, descend]
    split_ifs <;> exact ih _

theorem appendSegments_append (done : List String) (xs : List (List Char)) {ys : List (List Char)}
    (hne : ys ≠ []) : appendSegments s done (xs ++ ys) = appendSegments s (descend s done xs) ys := by
  induction xs generalizing done with
  | nil => rfl
  | cons x xs ih =>
    have hlast : (xs ++ ys).isEmpty = false := by
      rw [List.isEmpty_eq_false_iff]
      exact List.append_ne_nil_of_right_ne_nil xs hne
    rw [List.cons_append, appendSegments, descend]
    simp only [hlast, Bool.false_eq_true, if_false, List.append_nil]
    split_ifs <;> exact ih _

/-- Segments at the end come to the same as before others, and maybe to an empty one more. -/
theorem appendSegments_eq_or (done : List String) {xs : List (List Char)} (hne : xs ≠ []) :
    appendSegments s done xs = descend s done xs ∨
      appendSegments s done xs = descend s done xs ++ [""] := by
  obtain ⟨xs, x, rfl⟩ := List.eq_nil_or_concat xs |>.resolve_left hne
  rw [List.concat_eq_append, appendSegments_append done xs (List.cons_ne_nil x []), descend_append,
    appendSegments, descend]
  simp only [List.isEmpty_nil, if_true]
  split_ifs
  · exact .inr rfl
  · exact .inr rfl
  · exact .inl rfl

theorem toList_render_rooted (segments : List String) :
    (Path.rooted segments).render.toList = segments.flatMap fun t => '/' :: t.toList := by
  rw [Path.render, String.toList_join, List.flatMap_map]
  congr 1
  funext t
  rw [String.toList_append]
  rfl

theorem toList_render_append (xs ys : List String) :
    (Path.rooted (xs ++ ys)).render.toList =
      (Path.rooted xs).render.toList ++ (Path.rooted ys).render.toList := by
  simp only [toList_render_rooted, List.flatMap_append]

def IsPlain (w : List Char) : Prop := ∀ c ∈ w, c = '/' ∨ c.isLower = true

theorem toNat_of_isLower {c : Char} (h : c.isLower = true) : 97 ≤ c.toNat ∧ c.toNat ≤ 122 :=
  ⟨of_decide_eq_true (Bool.and_eq_true_iff.1 h).1, of_decide_eq_true (Bool.and_eq_true_iff.1 h).2⟩

theorem encodes_eq_false_of_isLower {c : Char} (h : c.isLower = true) :
    EncodeSet.path.encodes c = false := by
  have hset : (EncodeSet.path.all fun d => !d.isLower) = true := by decide
  have hmem : EncodeSet.path.contains c = false := by
    rw [List.contains_eq_mem, decide_eq_false_iff_not]
    intro hc
    have hother := List.all_eq_true.1 hset c hc
    rw [h] at hother
    cases hother
  obtain ⟨hlow, hhigh⟩ := toNat_of_isLower h
  simp only [EncodeSet.encodes, hmem, Bool.or_false, Bool.or_eq_false_iff, decide_eq_false_iff_not]
  omega

theorem percentEncode_ne_nil {set : EncodeSet} {cs : List Char} (h : cs ≠ []) :
    percentEncode set cs ≠ [] := by
  obtain ⟨c, cs, rfl⟩ := List.exists_cons_of_ne_nil h
  refine List.append_ne_nil_of_left_ne_nil ?_ _
  rw [encodeChar]
  split_ifs
  · obtain ⟨b, bs, hbytes⟩ := List.exists_cons_of_ne_nil (Glob.bytes_ne_nil c)
    rw [Glob.bytes] at hbytes
    rw [hbytes, List.flatMap_cons]
    exact List.cons_ne_nil _ _
  · exact List.cons_ne_nil c []

theorem percentEncode_of_forall_isLower {cs : List Char} (h : ∀ c ∈ cs, c.isLower = true) :
    percentEncode .path cs = cs := by
  induction cs with
  | nil => rfl
  | cons c cs ih =>
    obtain ⟨hc, hcs⟩ := List.forall_mem_cons.1 h
    have hchar : encodeChar .path c = [c] := by
      rw [encodeChar, encodes_eq_false_of_isLower hc]
      rfl
    rw [percentEncode, List.flatMap_cons, hchar, ← percentEncode, ih hcs]
    rfl

def dots : List String := [".", "%2e", "..", ".%2e", "%2e.", "%2e%2e"]

theorem exists_dots {cs : List Char} (h : isDot cs = true ∨ isDoubleDot cs = true) :
    ∃ t ∈ dots, cs.map Char.toLower = t.toList := by
  rcases h with h | h
  · simp only [isDot, Bool.or_eq_true, decide_eq_true_eq] at h
    rcases h with rfl | h
    · exact ⟨".", by decide, rfl⟩
    · exact ⟨"%2e", by decide, h⟩
  · simp only [isDoubleDot, List.any_eq_true, decide_eq_true_eq] at h
    obtain ⟨t, ht, heq⟩ := h
    have hsub : ∀ t ∈ ["..", ".%2e", "%2e.", "%2e%2e"], t ∈ dots := by decide
    exact ⟨t, hsub t ht, heq⟩

theorem eq_false_of_not_dots {cs : List Char}
    (h : ∀ t ∈ dots, cs.map Char.toLower ≠ t.toList) :
    isDot cs = false ∧ isDoubleDot cs = false := by
  rw [← Bool.not_eq_true, ← Bool.not_eq_true, ← not_or]
  intro hdots
  obtain ⟨t, ht, heq⟩ := exists_dots hdots
  exact h t ht heq

theorem not_dots_of_isLower {cs : List Char} (h : ∀ c ∈ cs, c.isLower = true) :
    isDot cs = false ∧ isDoubleDot cs = false := by
  refine eq_false_of_not_dots fun t ht heq => ?_
  have hother : (dots.all fun t => t.toList.any fun d => !d.isLower) = true := by decide
  obtain ⟨d, hd, hlower⟩ := List.any_eq_true.1 (List.all_eq_true.1 hother t ht)
  rw [← heq] at hd
  obtain ⟨c, hc, rfl⟩ := List.mem_map.1 hd
  have hlow := (toNat_of_isLower (h c hc)).1
  have hupper : c.isUpper = false := isUpper_eq_false (.inr (by omega))
  rw [toLower_eq hupper, h c hc] at hlower
  cases hlower

theorem not_dots_of_isEdge {cs : List Char} {c : Char} (hc : c ∈ cs) (h : isEdge c = true) :
    isDot cs = false ∧ isDoubleDot cs = false := by
  refine eq_false_of_not_dots fun t ht heq => ?_
  have hother : (dots.all fun t => t.toList.all fun d => !isEdge d) = true := by decide
  have hedge : c.toNat ≤ 32 := of_decide_eq_true h
  have hmem : c.toLower ∈ t.toList := heq ▸ List.mem_map_of_mem hc
  have hfalse := List.all_eq_true.1 (List.all_eq_true.1 hother t ht) _ hmem
  rw [toLower_eq (isUpper_eq_false (.inl (by omega))), h] at hfalse
  cases hfalse

def pathSegments (s : Scheme) (p : List Char) : List String :=
  appendSegments s [] (Text.splitOn (isSlash s) p.tail)

/-- The segments of a path that another path follows. -/
def above (s : Scheme) : List Char → List String
  | [] => []
  | _ :: p => descend s [] (Text.splitOn (isSlash s) p)

section NotFile

variable (hf : s ≠ .file)

include hf

theorem segmentText_eq (done : List String) (cs : List Char) :
    segmentText s done cs = String.ofList (percentEncode .path cs) := by
  unfold segmentText
  split
  · exact absurd rfl hf
  · rfl

theorem shorten_eq (done : List String) : shorten s done = done.dropLast := by
  unfold shorten
  split
  · exact absurd rfl hf
  · rfl

theorem appendSegments_of_isLower (done : List String) {ws : List (List Char)}
    (h : ∀ w ∈ ws, ∀ c ∈ w, c.isLower = true) :
    appendSegments s done ws = done ++ ws.map String.ofList := by
  induction ws generalizing done with
  | nil => exact (List.append_nil done).symm
  | cons w ws ih =>
    obtain ⟨hw, hws⟩ := List.forall_mem_cons.1 h
    obtain ⟨hdot, hdouble⟩ := not_dots_of_isLower hw
    rw [appendSegments, hdot, hdouble, segmentText_eq hf, percentEncode_of_forall_isLower hw]
    simp only [Bool.false_eq_true, if_false]
    rw [ih _ hws, List.append_assoc, List.map_cons, List.singleton_append]

theorem render_appendSegments_of_isPlain (done : List String) {w : List Char} (hw : IsPlain w) :
    (Path.rooted (appendSegments s done (Text.splitOn (isSlash s) w))).render.toList =
      (Path.rooted done).render.toList ++ '/' :: w := by
  have hslash : ∀ c ∈ w, isSlash s c = true → c = '/' := by
    intro c hc hsep
    rcases hw c hc with rfl | hlower
    · rfl
    · simp only [isSlash, Bool.or_eq_true, Bool.and_eq_true, decide_eq_true_eq] at hsep
      rcases hsep with rfl | ⟨_, rfl⟩
      · rfl
      · cases hlower
  have hwords : ∀ t ∈ Text.splitOn (isSlash s) w, ∀ c ∈ t, c.isLower = true := by
    intro t ht
    refine Text.all_of_mem_splitOn (fun c hc hsep => (hw c hc).resolve_left ?_) ht
    rintro rfl
    simp [isSlash] at hsep
  rw [appendSegments_of_isLower hf done hwords, toList_render_append, ← Text.flatMap_splitOn hslash,
    toList_render_rooted (List.map _ _), List.flatMap_map]
  simp only [String.toList_ofList]

/-- A plain path stands at the end of what it is put behind. -/
theorem render_pathSegments_append (p : List Char) {w : List Char} (hw : IsPlain w) :
    (Path.rooted (pathSegments s (p ++ '/' :: w))).render.toList =
      (Path.rooted (above s p)).render.toList ++ '/' :: w := by
  cases p with
  | nil => exact render_appendSegments_of_isPlain hf [] hw
  | cons c p =>
    have hslash : isSlash s '/' = true := rfl
    rw [pathSegments, List.cons_append, List.tail_cons, Text.splitOn_append hslash,
      appendSegments_append _ _ (Text.splitOn_ne_nil _ w), render_appendSegments_of_isPlain hf _ hw,
      above]

theorem pathSegments_eq_or (p : List Char) :
    pathSegments s p = above s p ∨ pathSegments s p = above s p ++ [""] := by
  cases p with
  | nil => exact .inr (appendSegments_of_isLower hf [] (List.forall_mem_singleton.2 nofun))
  | cons c p => exact appendSegments_eq_or [] (Text.splitOn_ne_nil _ p)

/-- At its end a path has no more than a slash more than before another path. -/
theorem rdropWhile_render_pathSegments (p : List Char) :
    (Path.rooted (pathSegments s p)).render.toList.rdropWhile (· = '/') =
      (Path.rooted (above s p)).render.toList.rdropWhile (· = '/') := by
  rcases pathSegments_eq_or hf p with h | h
  · rw [h]
  · rw [h, toList_render_append]
    exact Text.rdropWhile_append_of_pos _ (List.forall_mem_singleton.2 rfl)

/-- A segment at the end adds no more than its text and a slash. -/
theorem length_appendSegments_singleton (done : List String) (l : List Char) :
    (Path.rooted (appendSegments s done [l])).render.toList.length ≤
      (Path.rooted done).render.toList.length + (percentEncode .path l).length + 1 := by
  rw [appendSegments]
  simp only [List.isEmpty_nil, if_true]
  split_ifs
  · rw [shorten_eq hf, appendSegments, toList_render_append, List.length_append]
    obtain ⟨last, hdone⟩ := List.dropLast_prefix done
    have hshorter := toList_render_append done.dropLast last
    rw [hdone] at hshorter
    rw [hshorter, List.length_append]
    have hone : (Path.rooted [""]).render.toList.length = 1 := rfl
    omega
  · rw [appendSegments, toList_render_append, List.length_append]
    have hone : (Path.rooted [""]).render.toList.length = 1 := rfl
    omega
  · rw [appendSegments, toList_render_append, segmentText_eq hf, toList_render_rooted [_]]
    simp only [List.flatMap_cons, List.flatMap_nil, List.append_nil, String.toList_ofList,
      List.length_append, List.length_cons]
    omega

/-- Blanks at the end of a path make it longer once another path follows. -/
theorem length_pathSegments_lt {p z : List Char} (hp : p ≠ []) (hz : z ≠ [])
    (hedge : ∀ c ∈ z, isEdge c = true) :
    (Path.rooted (pathSegments s p)).render.toList.length <
      (Path.rooted (above s (p ++ z))).render.toList.length := by
  obtain ⟨c, p, rfl⟩ := List.exists_cons_of_ne_nil hp
  obtain ⟨d, z, rfl⟩ := List.exists_cons_of_ne_nil hz
  obtain ⟨ps, l, hsplit, hlonger⟩ :=
    Text.exists_splitOn_append (fun c hc => isSlash_eq_false_of_isEdge (hedge c hc)) p
  have hd : d ∈ l ++ d :: z := List.mem_append_right l List.mem_cons_self
  obtain ⟨hdot, hdouble⟩ := not_dots_of_isEdge hd (hedge d List.mem_cons_self)
  have hblank : 0 < (percentEncode .path (d :: z)).length :=
    List.length_pos_of_ne_nil (percentEncode_ne_nil (List.cons_ne_nil d z))
  have hlast := length_appendSegments_singleton hf (descend s [] ps) l
  rw [pathSegments, List.tail_cons, List.cons_append, above, hsplit, hlonger, descend_append,
    appendSegments_append _ _ (List.cons_ne_nil l []), descend, hdot, hdouble, segmentText_eq hf]
  simp only [Bool.false_eq_true, if_false, descend, toList_render_append, percentEncode,
    List.flatMap_append, List.length_append, toList_render_rooted [_], List.flatMap_cons,
    List.flatMap_nil, List.append_nil, String.toList_ofList, List.length_cons] at hlast hblank ⊢
  omega

end NotFile

end Segments

end TopicClient.Url
