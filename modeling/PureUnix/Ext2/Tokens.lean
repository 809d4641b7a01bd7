import PureUnix.Ext2.Dir
import PureUnix.Lib.PathText

/-!
# The components of a path

`strtok_r` over a path, and the last slash of one: what is looked up of "dir/name" is what is looked up of "dir", and then
the name.
-/
namespace PureUnix.Ext2

open Lib List
open PathText

variable {name dir : Text}

theorem tokensFrom_eq (cur s : Text) (hcur : slash ∉ cur.reverse) :
    tokensFrom cur s = (split slash (cur.reverse ++ s)).filter (· ≠ []) := by
  induction s generalizing cur with
  | nil =>
    rw [append_nil, split_of_notMem hcur]
    cases cur <;> simp [tokensFrom]
  | cons c s ih =>
    by_cases hc : c = slash
    · have hrest := ih [] (by simp)
      rw [hc, split_append_sep, split_of_notMem hcur, filter_append]
      cases cur <;> simpa [tokensFrom] using hrest
    · have hnext := ih (c :: cur) (by simpa [Ne.symm hc] using hcur)
      cases cur <;> simpa [tokensFrom, hc] using hnext

/-- **The tokens are the fields that are not empty.** -/
theorem tokens_eq_split (s : Text) : tokensFrom [] s = (split slash s).filter (· ≠ []) := tokensFrom_eq [] s (by simp)

theorem tokens_append_slash (s t : Text) : tokensFrom [] (s ++ slash :: t) = tokensFrom [] s ++ tokensFrom [] t := by
  simp only [tokens_eq_split, split_append_sep, filter_append]

theorem tokens_of_notMem {s : Text} (hs : slash ∉ s) (hne : s ≠ []) : tokensFrom [] s = [s] := by
  rw [tokens_eq_split, split_of_notMem hs, filter_cons_of_pos (by simpa using hne)]
  rfl

theorem pathTokens_snoc (hs : slash ∉ name) (hne : name ≠ []) (hlen : (slash :: dir ++ slash :: name).length < PUREUNIX_MAX_PATH) :
    pathTokens (slash :: dir ++ slash :: name) = pathTokens (slash :: dir) ++ [name] := by
  have hfit : ∀ {s : Text}, s.length ≤ dir.length + name.length + 1 → s.take (PUREUNIX_MAX_PATH - 1) = s := by
    intro s hs'
    refine take_of_length_le ?_
    simp only [cons_append, length_cons, length_append] at hlen
    omega
  rw [pathTokens, pathTokens, cons_append, drop_one, drop_one, tail_cons, tail_cons,
    hfit (by simp; omega), hfit (by omega), tokens_append_slash, tokens_of_notMem hs hne]

theorem pathTokens_single (hs : slash ∉ name) (hne : name ≠ []) (hlen : (slash :: name).length < PUREUNIX_MAX_PATH) :
    pathTokens (slash :: name) = [name] := by
  rw [pathTokens, drop_one, tail_cons, take_of_length_le (by simp only [length_cons] at hlen; omega),
    tokens_of_notMem hs hne]

theorem behind_last {sep : UInt8} {s t : Text} (hs : sep ∉ t) :
    ((s ++ sep :: t).reverse.takeWhile (· ≠ sep)).reverse = t ∧ (s ++ sep :: t).take ((s ++ sep :: t).length - t.length - 1) = s := by
  constructor
  · rw [reverse_append, reverse_cons, append_assoc, takeWhile_append_of_pos]
    · simp
    · intro c hc
      simpa using fun he : c = sep => hs (he ▸ mem_reverse.1 hc)
  · have hlen : (s ++ sep :: t).length - t.length - 1 = s.length := by
      simp only [length_append, length_cons]
      omega
    rw [hlen, take_left]

end PureUnix.Ext2
