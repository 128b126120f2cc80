import Mathlib.Data.List.DropRight
import Mathlib.Data.List.TakeWhile

/-!
# Lists written with a separator

Values are written one behind the other with a separator between them, and some padding behind the
separator. Read at the separator the text gives the padded values back, and trimming gives the values. The
first section is about runs at the two ends of a list, which is what trimming looks at.
-/

namespace List

variable {α : Type*} {p : α → Bool}

/-! ### Runs at the ends -/

theorem forall_decide_ne [DecidableEq α] {a : α} {l : List α} (h : a ∉ l) :
    ∀ b ∈ l, decide (b ≠ a) = true := by
  intro b hb
  exact decide_eq_true fun heq => h (heq ▸ hb)

theorem takeWhile_append_of_head (l : List α) {m : List α} (h : ∀ a ∈ m.head?, p a = false) :
    (l ++ m).takeWhile p = l.takeWhile p := by
  have hm : m.takeWhile p = [] := by
    cases m with
    | nil => rfl
    | cons a m => exact takeWhile_cons_of_neg (by simp [h a rfl])
  rw [takeWhile_append, hm, append_nil, ite_eq_right_iff]
  intro hlength
  exact (IsPrefix.eq_of_length (List.takeWhile_prefix p) hlength).symm

theorem dropWhile_of_head {l : List α} (h : ∀ a ∈ l.head?, p a = false) : l.dropWhile p = l := by
  cases l with
  | nil => rfl
  | cons a l => exact dropWhile_cons_of_neg (by simp [h a rfl])

theorem dropWhile_append_of_head (l : List α) {m : List α} (h : ∀ a ∈ m.head?, p a = false) :
    (l ++ m).dropWhile p = l.dropWhile p ++ m := by
  rw [dropWhile_append, dropWhile_of_head h]
  split
  · rename_i hempty
    rw [isEmpty_iff.mp hempty, nil_append]
  · rfl

theorem dropWhile_append_of_forall {l : List α} (m : List α) (h : ∀ a ∈ l, p a = true) :
    (l ++ m).dropWhile p = m.dropWhile p := by
  induction l with
  | nil => rfl
  | cons a l ih =>
      rw [cons_append, dropWhile_cons_of_pos (h a (by simp)), ih fun b hb => h b (by simp [hb])]

theorem forall_or_exists_false (p : α → Bool) (l : List α) :
    (∀ a ∈ l, p a = true) ∨ ∃ a ∈ l, p a = false := by
  by_cases h : l.all p = true
  · exact .inl (all_eq_true.mp h)
  · exact .inr (by simpa using h)

theorem exists_mem_dropWhile {l : List α} (h : ∃ a ∈ l, p a = false) :
    ∃ a ∈ l.dropWhile p, p a = false := by
  have hne : l.dropWhile p ≠ [] := by
    obtain ⟨a, ha, hp⟩ := h
    rw [ne_eq, dropWhile_eq_nil_iff]
    intro hall
    rw [hall a ha] at hp
    cases hp
  exact ⟨_, head_mem hne, by simpa using head_dropWhile_not p hne⟩

theorem rdropWhile_append_of_forall (l : List α) {m : List α} (h : ∀ a ∈ m, p a = true) :
    (l ++ m).rdropWhile p = l.rdropWhile p := by
  induction m using reverseRecOn with
  | nil => rw [append_nil]
  | append_singleton m a ih =>
      rw [← append_assoc, rdropWhile_concat_pos _ _ _ (h a (by simp)), ih fun b hb => h b (by simp [hb])]

theorem rdropWhile_of_last {l : List α} (h : ∀ a ∈ l.getLast?, p a = false) : l.rdropWhile p = l := by
  rw [rdropWhile_eq_self_iff]
  intro hne
  simp [h _ (getLast?_eq_getLast_of_ne_nil hne)]

theorem rdropWhile_append_of_exists (l : List α) {m : List α} (h : ∃ a ∈ m, p a = false) :
    (l ++ m).rdropWhile p = l ++ m.rdropWhile p := by
  induction m using reverseRecOn with
  | nil => simp at h
  | append_singleton m a ih =>
      rw [← append_assoc]
      by_cases ha : p a = true
      · rw [rdropWhile_concat_pos _ _ _ ha, rdropWhile_concat_pos _ _ _ ha]
        obtain ⟨b, hb, hp⟩ := h
        rcases mem_append.mp hb with hb | hb
        · exact ih ⟨b, hb, hp⟩
        · obtain rfl := mem_singleton.mp hb
          exact absurd ha (by simp [hp])
      · rw [rdropWhile_concat_neg _ _ _ ha, rdropWhile_concat_neg _ _ _ ha, append_assoc]

end List

namespace Separated

open List

variable {α : Type*} {p : α → Bool}

def trim (p : α → Bool) (s : List α) : List α := (s.dropWhile p).rdropWhile p

theorem trim_of_forall {s : List α} (h : ∀ a ∈ s, p a = true) : trim p s = [] := by
  rw [trim, dropWhile_eq_nil_iff.mpr h, rdropWhile_nil]

theorem trim_append_of_forall {pad : List α} (h : ∀ a ∈ pad, p a = true) (s : List α) :
    trim p (pad ++ s) = trim p s := by
  rw [trim, dropWhile_append_of_forall _ h, trim]

theorem trim_of_ends {s : List α} (hhead : ∀ a ∈ s.head?, p a = false)
    (hlast : ∀ a ∈ s.getLast?, p a = false) : trim p s = s := by
  rw [trim, dropWhile_of_head hhead, rdropWhile_of_last hlast]

/-! The three ways in which less than a whole trim is enough. -/

theorem trim_eq_rdropWhile_iff {s : List α} (h : ∃ a ∈ s, p a = false) :
    s.rdropWhile p = trim p s ↔ ∀ a ∈ s.head?, p a = false := by
  have hsplit : s.rdropWhile p = s.takeWhile p ++ trim p s := by
    conv_lhs => rw [← takeWhile_append_dropWhile (p := p) (l := s)]
    exact rdropWhile_append_of_exists _ (exists_mem_dropWhile h)
  rw [hsplit, append_left_eq_self]
  cases s with
  | nil => simp
  | cons a s => simp [takeWhile_cons]

theorem trim_eq_dropWhile_iff {s : List α} :
    s.dropWhile p = trim p s ↔ (∀ a ∈ s, p a = true) ∨ ∀ a ∈ s.getLast?, p a = false := by
  rw [trim, eq_comm, rdropWhile_eq_self_iff]
  rcases forall_or_exists_false p s with hall | hexists
  · rw [dropWhile_eq_nil_iff.mpr hall]
    exact ⟨fun _ => .inl hall, fun _ hne => absurd rfl hne⟩
  · have hne : s.dropWhile p ≠ [] := by
      obtain ⟨a, ha, -⟩ := exists_mem_dropWhile hexists
      exact ne_nil_of_mem ha
    have hlast : s.getLast? = some ((s.dropWhile p).getLast hne) := by
      conv_lhs => rw [← takeWhile_append_dropWhile (p := p) (l := s)]
      rw [getLast?_append, getLast?_eq_getLast_of_ne_nil hne, Option.some_or]
    have hnot : ¬ ∀ a ∈ s, p a = true := by
      obtain ⟨a, ha, hp⟩ := hexists
      exact fun hall => absurd (hall a ha) (by simp [hp])
    simp [hne, hlast, hnot]

theorem trim_eq_self_iff {s : List α} :
    s = trim p s ↔ (∀ a ∈ s.head?, p a = false) ∧ ∀ a ∈ s.getLast?, p a = false := by
  refine ⟨fun h => ?_, fun h => (trim_of_ends h.1 h.2).symm⟩
  have hlength : (trim p s).length ≤ (s.dropWhile p).length := (List.rdropWhile_prefix p _).length_le
  have hdrop : s.dropWhile p = s :=
    (dropWhile_suffix p).eq_of_length_le (by rw [← h] at hlength; exact hlength)
  refine ⟨?_, ?_⟩
  · cases s with
    | nil => simp
    | cons a s =>
        have ha : ¬ p a = true := dropWhile_eq_self_iff.mp hdrop (by simp)
        simp [ha]
  · rcases trim_eq_dropWhile_iff.mp (hdrop.trans h) with hall | hlast
    · rw [trim_of_forall hall] at h
      simp [h]
    · exact hlast

/-! ### At a separator -/

variable {sep : α}

theorem intercalate_cons_cons_eq (s t : List α) (rest : List (List α)) :
    [sep].intercalate (s :: t :: rest) = s ++ sep :: [sep].intercalate (t :: rest) := by
  rw [intercalate_cons_cons, append_assoc, singleton_append]

theorem exists_intercalate (sep : α) (rest : List (List α)) :
    ∃ m, (∀ t, [sep].intercalate (t :: rest) = t ++ m) ∧ ∀ a ∈ m.head?, a = sep := by
  cases rest with
  | nil => exact ⟨[], by simp, by simp⟩
  | cons u rest =>
      exact ⟨sep :: [sep].intercalate (u :: rest), fun t => intercalate_cons_cons_eq t u rest, by simp⟩

theorem of_mem_intercalate {join : List α} {ls : List (List α)} {a : α} (h : a ∈ join.intercalate ls) :
    a ∈ join ∨ ∃ l ∈ ls, a ∈ l := by
  induction ls with
  | nil => simp at h
  | cons l ls ih =>
      cases ls with
      | nil => exact .inr ⟨l, by simp, by simpa using h⟩
      | cons m ls =>
          rw [intercalate_cons_cons, mem_append, mem_append] at h
          rcases h with (h | h) | h
          · exact .inr ⟨l, by simp, h⟩
          · exact .inl h
          · exact (ih h).imp id fun ⟨k, hk, hmem⟩ => ⟨k, mem_cons_of_mem _ hk, hmem⟩

theorem intercalate_padded (pad s : List α) (rest : List (List α)) :
    (sep :: pad).intercalate (s :: rest) = [sep].intercalate (s :: rest.map (pad ++ ·)) := by
  induction rest generalizing s with
  | nil => simp
  | cons t rest ih =>
      have htail := ih t
      cases rest with
      | nil => simp [intercalate_cons_cons]
      | cons u rest =>
          rw [intercalate_cons_cons, htail, map_cons, map_cons, intercalate_cons_cons_eq,
            intercalate_cons_cons_eq, map_cons, intercalate_cons_cons_eq]
          simp

theorem splitOn_intercalate_padded [DecidableEq α] {pad s : List α} {rest : List (List α)}
    (hpad : sep ∉ pad) (hs : ∀ t ∈ s :: rest, sep ∉ t) :
    ((sep :: pad).intercalate (s :: rest)).splitOn sep = s :: rest.map (pad ++ ·) := by
  rw [intercalate_padded]
  refine splitOn_intercalate sep ?_ (by simp)
  intro t ht
  rcases mem_cons.mp ht with rfl | ht
  · exact hs t (by simp)
  · obtain ⟨u, hu, rfl⟩ := mem_map.mp ht
    rw [mem_append, not_or]
    exact ⟨hpad, hs u (by simp [hu])⟩

theorem splitOn_append_of_notMem [DecidableEq α] {front : List α} (h : sep ∉ front) (text : List α) :
    (front ++ text).splitOn sep = (text.splitOn sep).modifyHead (front ++ ·) := by
  obtain ⟨s, rest, hsplit⟩ := exists_cons_of_ne_nil (splitOn_ne_nil sep text)
  rw [hsplit, modifyHead_cons]
  induction front with
  | nil => exact hsplit
  | cons a front ih =>
      obtain ⟨ha, hfront⟩ := not_or.mp (mem_cons.not.mp h)
      rw [cons_append, splitOn_cons_eq_if_modifyHead, if_neg (by simpa using Ne.symm ha), ih hfront]
      rfl

theorem splitOn_intercalate_flatMap [DecidableEq α] {texts : List (List α)} (hne : texts ≠ []) :
    ([sep].intercalate texts).splitOn sep = texts.flatMap (·.splitOn sep) := by
  induction texts with
  | nil => exact absurd rfl hne
  | cons s texts ih =>
      cases texts with
      | nil => simp
      | cons t texts =>
          rw [intercalate_cons_cons_eq, splitOn_append_cons_self, ih (by simp)]
          rfl

theorem length_flatMap_eq {β : Type*} {f : α → List β} (hf : ∀ a, f a ≠ []) (l : List α) :
    l.length ≤ (l.flatMap f).length ∧
      ((l.flatMap f).length = l.length → ∀ a ∈ l, (f a).length = 1) := by
  induction l with
  | nil => simp
  | cons a l ih =>
      have hpos := length_pos_of_ne_nil (hf a)
      rw [flatMap_cons, length_append, length_cons]
      refine ⟨by have := ih.1; omega, fun h => ?_⟩
      have hle := ih.1
      rw [forall_mem_cons]
      exact ⟨by omega, ih.2 (by omega)⟩

theorem flatMap_splitOn [DecidableEq α] (text : List α) :
    (text.splitOn sep).flatMap (· ++ [sep]) = text ++ [sep] := by
  have hjoin : ∀ (s : List α) (rest : List (List α)),
      (s :: rest).flatMap (· ++ [sep]) = [sep].intercalate (s :: rest) ++ [sep] := by
    intro s rest
    induction rest generalizing s with
    | nil => simp
    | cons t rest ih => simp [flatMap_cons, ih, intercalate_cons_cons]
  obtain ⟨s, rest, hsplit⟩ := exists_cons_of_ne_nil (splitOn_ne_nil sep text)
  rw [hsplit, hjoin, ← hsplit, intercalate_splitOn]

theorem notMem_of_mem_splitOn [DecidableEq α] {text s : List α} (h : s ∈ text.splitOn sep) : sep ∉ s := by
  induction text generalizing s with
  | nil => simp_all
  | cons a text ih =>
      rw [splitOn_cons_eq_if_modifyHead] at h
      obtain ⟨first, rest, hsplit⟩ := exists_cons_of_ne_nil (splitOn_ne_nil sep text)
      split at h
      · rcases mem_cons.mp h with rfl | h
        · simp
        · exact ih h
      · rename_i hne
        rw [hsplit, modifyHead_cons] at h
        rcases mem_cons.mp h with rfl | h
        · rw [mem_cons, not_or]
          exact ⟨fun h => hne (by simp [h]), ih (hsplit ▸ mem_cons_self)⟩
        · exact ih (hsplit ▸ mem_cons_of_mem _ h)

theorem notMem_of_length_splitOn [DecidableEq α] {text : List α} (h : (text.splitOn sep).length = 1) :
    sep ∉ text := by
  obtain ⟨s, hs⟩ := length_eq_one_iff.mp h
  have htext : [sep].intercalate (text.splitOn sep) = text := intercalate_splitOn sep
  rw [hs, intercalate_singleton] at htext
  exact htext ▸ notMem_of_mem_splitOn (hs ▸ mem_singleton_self s)

/-- **A joined text has as many segments as texts** only if no text holds the separator. -/
theorem notMem_of_length_intercalate [DecidableEq α] {texts : List (List α)} (hne : texts ≠ [])
    (h : (([sep].intercalate texts).splitOn sep).length = texts.length) : ∀ text ∈ texts, sep ∉ text := by
  rw [splitOn_intercalate_flatMap hne] at h
  exact fun text htext =>
    notMem_of_length_splitOn ((length_flatMap_eq (splitOn_ne_nil sep) texts).2 h text htext)

end Separated
