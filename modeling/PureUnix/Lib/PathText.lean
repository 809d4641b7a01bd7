import Mathlib.Data.List.Basic
import Mathlib.Data.List.Induction

/-!
# Path text

Text in which a separator sets off fields, as `a/b//c/`. `split` keeps every field; a scanner that stops
at the end of the text does not see an empty last field, which is what `fields` leaves out. A list of
names is written as text by `render`; `append` and `parent` are its operations on the text.
-/
namespace PureUnix.Lib.PathText

open List

variable {α : Type} (sep : α) {n f : List α}

/-- The absolute path of a list of names. -/
def render (names : List (List α)) : List α := if names = [] then [sep] else names.flatMap (sep :: ·)

/-- Names: not empty, no separator. -/
def Good (names : List (List α)) : Prop := ∀ n ∈ names, n ≠ [] ∧ sep ∉ n

section
variable {sep} {names : List (List α)}

theorem Good.concat (h : Good sep names) (h0 : n ≠ []) (hs : sep ∉ n) : Good sep (names ++ [n]) := by
  intro m hm
  rcases mem_append.1 hm with hm | hm
  · exact h m hm
  · rw [mem_singleton.1 hm]; exact ⟨h0, hs⟩

theorem Good.dropLast (h : Good sep names) : Good sep names.dropLast := fun n hn => h n (dropLast_subset _ hn)

theorem good_nil : Good sep ([] : List (List α)) := by simp [Good]

@[simp] theorem render_nil : render sep ([] : List (List α)) = [sep] := rfl

theorem render_of_ne_nil (h : names ≠ []) : render sep names = names.flatMap (sep :: ·) := if_neg h

theorem render_concat (names : List (List α)) (n : List α) : render sep (names ++ [n]) = names.flatMap (sep :: ·) ++ sep :: n := by
  rw [render_of_ne_nil (by simp)]
  simp

theorem render_eq_root (h : Good sep names) : render sep names = [sep] ↔ names = [] := by
  refine ⟨fun he => ?_, fun he => by rw [he]; rfl⟩
  cases names with
  | nil => rfl
  | cons n ns =>
    rw [render_of_ne_nil (by simp)] at he
    have := (h n (by simp)).1
    simp at he
    exact absurd he.1 this

theorem render_head (names : List (List α)) : (render sep names).head? = some sep := by
  cases names with
  | nil => rfl
  | cons n ns => rfl

end

variable [DecidableEq α] {s : List α} {names : List (List α)}

/-- All fields, empty ones included. -/
def split : List α → List (List α)
  | [] => [[]]
  | c :: cs =>
    if c = sep then [] :: split cs
    else
      match split cs with
      | [] => [[c]]
      | f :: fs => (c :: f) :: fs

/-- The fields a scanner meets: one trailing separator ends the last field. -/
def fields (s : List α) : List (List α) :=
  if (split sep s).getLast? = some [] then (split sep s).dropLast else split sep s

/-- The first field, and what follows its separator. -/
def first (s : List α) : List α := s.takeWhile (· ≠ sep)

def rest (s : List α) : List α := (s.dropWhile (· ≠ sep)).drop 1

def append (s name : List α) : List α := (if s = [sep] then s else s ++ [sep]) ++ name

/-- The text up to the last separator, which stays if it is the first symbol. -/
def parent (s : List α) : List α :=
  match s.reverse.dropWhile (· ≠ sep) with
  | [] => [sep]
  | [_] => [sep]
  | _ :: r => r.reverse

variable {sep}

/-! ## Splitting -/

theorem split_ne_nil (s : List α) : split sep s ≠ [] := by
  cases s with
  | nil => simp [split]
  | cons c cs =>
    rw [split]
    split
    · simp
    · split <;> simp

theorem split_of_notMem (h : sep ∉ s) : split sep s = [s] := by
  induction s with
  | nil => rfl
  | cons c cs ih =>
    simp only [mem_cons, not_or] at h
    rw [split, if_neg (fun e => h.1 e.symm), ih h.2]

theorem split_append_sep (s t : List α) : split sep (s ++ sep :: t) = split sep s ++ split sep t := by
  induction s with
  | nil => simp [split]
  | cons c cs ih =>
    rw [cons_append, split, split, ih]
    split
    · simp
    · cases hs : split sep cs with
      | nil => exact absurd hs (split_ne_nil cs)
      | cons f fs => simp

theorem notMem_of_mem_split (hf : f ∈ split sep s) : sep ∉ f := by
  induction s generalizing f with
  | nil => simp only [split, mem_singleton] at hf; simp [hf]
  | cons c cs ih =>
    rw [split] at hf
    split at hf
    · rcases mem_cons.1 hf with rfl | hf
      · simp
      · exact ih hf
    rename_i hc
    cases hs : split sep cs with
    | nil => exact absurd hs (split_ne_nil cs)
    | cons g gs =>
      rw [hs] at hf ih
      rcases mem_cons.1 hf with rfl | hf
      · simp only [mem_cons, not_or]
        exact ⟨fun e => hc e.symm, ih (by simp)⟩
      · exact ih (by simp [hf])

theorem split_flatMap (s : List α) : (split sep s).flatMap (sep :: ·) = sep :: s := by
  induction s with
  | nil => rfl
  | cons c s ih =>
    rw [split]
    split
    · rename_i hc
      rw [flatMap_cons, ih, hc]
      rfl
    cases hs : split sep s with
    | nil => exact absurd hs (split_ne_nil s)
    | cons f fs =>
      rw [hs, flatMap_cons, cons_append, cons.injEq] at ih
      simp only [flatMap_cons, cons_append, ih.2]

theorem length_le_of_mem_split (hf : f ∈ split sep s) : f.length ≤ s.length := by
  have hsub := sublist_flatten_of_mem (mem_map_of_mem hf : sep :: f ∈ _)
  rw [← flatMap_def, split_flatMap] at hsub
  exact Nat.le_of_succ_le_succ hsub.length_le

theorem split_flatMap_good (h : Good sep names) : split sep (names.flatMap (sep :: ·)) = [] :: names := by
  induction names using reverseRecOn with
  | nil => rfl
  | append_singleton ns n ih =>
    have hns := ih fun m hm => h m (by simp [hm])
    rw [flatMap_append, flatMap_singleton, split_append_sep, hns, split_of_notMem (h n (by simp)).2]
    rfl

@[simp] theorem fields_nil : fields sep ([] : List α) = [] := rfl

theorem fields_append_sep (s t : List α) : fields sep (s ++ sep :: t) = split sep s ++ fields sep t := by
  unfold fields
  rw [split_append_sep, getLast?_append_of_ne_nil _ (split_ne_nil t), dropLast_append_of_ne_nil (split_ne_nil t)]
  split <;> rfl

theorem fields_of_notMem (h : sep ∉ s) (h0 : s ≠ []) : fields sep s = [s] := by
  unfold fields
  rw [split_of_notMem h]
  simp [h0]

/-- The text is its first field, alone or followed by a separator and the rest. -/
theorem first_rest (sep : α) (s : List α) : (sep ∉ s ∧ first sep s = s ∧ rest sep s = []) ∨ s = first sep s ++ sep :: rest sep s := by
  induction s with
  | nil => exact .inl ⟨by simp, rfl, rfl⟩
  | cons c cs ih =>
    by_cases hc : c = sep
    · subst hc
      exact .inr (by simp [first, rest])
    have e1 : first sep (c :: cs) = c :: first sep cs := by simp [first, hc]
    have e2 : rest sep (c :: cs) = rest sep cs := by simp [rest, hc]
    rw [e1, e2]
    rcases ih with ⟨h1, h2, h3⟩ | h
    · exact .inl ⟨by simp [h1, Ne.symm hc], by rw [h2], h3⟩
    · exact .inr (by rw [cons_append, ← h])

theorem first_notMem (s : List α) : sep ∉ first sep s := by
  induction s with
  | nil => simp [first]
  | cons c cs ih =>
    by_cases hc : c = sep
    · simp [first, hc]
    · rw [show first sep (c :: cs) = c :: first sep cs by simp [first, hc]]
      simp [ih, Ne.symm hc]

theorem fields_eq (h : s ≠ []) : fields sep s = first sep s :: fields sep (rest sep s) := by
  rcases first_rest sep s with ⟨h1, h2, h3⟩ | he
  · rw [h2, h3, fields_of_notMem h1 h]; rfl
  · conv_lhs => rw [he, fields_append_sep, split_of_notMem (first_notMem s)]
    rfl

theorem length_rest (sep : α) (s : List α) : (rest sep s).length = s.length - ((first sep s).length + 1) := by
  rcases first_rest sep s with ⟨-, h2, h3⟩ | he
  · rw [h2, h3, length_nil]
    omega
  · have hlen := congrArg length he
    rw [length_append, length_cons] at hlen
    omega

theorem rest_length (sep : α) (h : s ≠ []) : (rest sep s).length < s.length := by
  have hpos := length_pos_of_ne_nil h
  rw [length_rest]
  omega

theorem fields_eq_nil : fields sep s = [] ↔ s = [] := by
  refine ⟨fun h => ?_, fun h => by rw [h]; rfl⟩
  by_contra h0
  rw [fields_eq h0] at h
  cases h

theorem notMem_of_mem_fields (hf : f ∈ fields sep s) : sep ∉ f := by
  unfold fields at hf
  split at hf
  · exact notMem_of_mem_split (dropLast_subset _ hf)
  · exact notMem_of_mem_split hf

/-! ## Names and their text -/

theorem append_render (h : Good sep names) (n : List α) : append sep (render sep names) n = render sep (names ++ [n]) := by
  unfold append
  rw [render_concat]
  by_cases h0 : names = []
  · subst h0; simp
  · rw [if_neg (mt (render_eq_root h).1 h0), render_of_ne_nil h0, append_assoc]
    rfl

theorem parent_append (s : List α) (hs : sep ∉ n) : parent sep (s ++ sep :: n) = if s = [] then [sep] else s := by
  have hd : (s ++ sep :: n).reverse.dropWhile (· ≠ sep) = sep :: s.reverse := by
    rw [reverse_append, reverse_cons, append_assoc]
    rw [dropWhile_append_of_pos (fun a ha => ?_)]
    · simp
    · simp only [ne_eq, decide_not, Bool.not_eq_true', decide_eq_false_iff_not]
      rintro rfl
      exact hs (mem_reverse.1 ha)
  unfold parent
  rw [hd]
  cases hr : s.reverse with
  | nil => rw [if_pos (reverse_eq_nil_iff.1 hr)]
  | cons c cs =>
    obtain rfl := reverse_eq_iff.1 hr
    rw [if_neg (by simp)]

theorem parent_render_concat (hs : sep ∉ n) : parent sep (render sep (names ++ [n])) = render sep names := by
  rw [render_concat, parent_append _ hs]
  cases names with
  | nil => rfl
  | cons m ms => rfl

theorem parent_render (h : Good sep names) : parent sep (render sep names) = render sep names.dropLast := by
  rcases eq_nil_or_concat names with rfl | ⟨init, n, rfl⟩
  · simp [parent, render]
  · rw [concat_eq_append] at h ⊢
    rw [parent_render_concat (h n (by simp)).2, dropLast_concat]

theorem split_render (h : Good sep names) (h0 : names ≠ []) : split sep ((render sep names).drop 1) = names := by
  have hsplit := split_flatMap_good h
  obtain ⟨n, ns, rfl⟩ := exists_cons_of_ne_nil h0
  rw [flatMap_cons, cons_append, split, if_pos rfl] at hsplit
  exact (cons.inj hsplit).2

theorem fields_render (h : Good sep names) : fields sep ((render sep names).drop 1) = names := by
  by_cases h0 : names = []
  · subst h0
    rfl
  · rw [fields, split_render h h0, if_neg fun hlast => (h _ (mem_of_getLast? hlast)).1 rfl]

theorem render_injective {names' : List (List α)} (h : Good sep names) (h' : Good sep names')
    (he : render sep names = render sep names') : names = names' := by
  rw [← fields_render h, he, fields_render h']

end PureUnix.Lib.PathText
