import PureUnix.Ext2.Names
import PureUnix.Ext2.Tokens

/-!
# Paths in the graph

What a path names when the graph of nodes changes: a path is its parent and a last component, a walk that succeeds keeps
succeeding when entries are only added, and an entry that goes in where lookup does not reach is not found.
-/
namespace PureUnix.Ext2
open Lib List

/-! ## A parent and a last component -/

theorem splitParentLeaf_cases {path parent leaf : Text} (h : splitParentLeaf path = some (parent, leaf)) :
    slash ∉ leaf ∧ leaf ≠ [] ∧ ((parent = [slash] ∧ path = slash :: leaf) ∨
      ∃ dir, dir.length + 1 < PUREUNIX_MAX_PATH ∧ parent = slash :: dir ∧ path = slash :: dir ++ slash :: leaf) := by
  unfold splitParentLeaf at h
  split at h
  · cases h
  rename_i hhead
  rw [not_or, not_not] at hhead
  -- the last slash
  have hmem : slash ∈ path.reverse := mem_reverse.2 (mem_of_mem_head? hhead.1)
  obtain ⟨post, pre, hrev, hpost⟩ := eq_append_cons_of_mem hmem
  have hpath : path = pre.reverse ++ slash :: post.reverse := by
    rw [← reverse_reverse path, hrev]
    simp
  have hs : slash ∉ post.reverse := fun hm => hpost (mem_reverse.1 hm)
  obtain ⟨hleaf, hdir⟩ := behind_last hs
  rw [← hpath] at hleaf hdir
  simp only [hleaf, hdir] at h
  split at h
  · cases h
  rename_i hlen
  have hne : post.reverse ≠ [] := fun he => hlen (.inl (by rw [he]; rfl))
  split at h
  · obtain ⟨rfl, rfl⟩ := Prod.mk.inj (Option.some.inj h)
    have hpre : pre.reverse = [] := by
      have := congrArg length hpath
      simp only [length_append, length_cons] at this
      exact length_eq_zero_iff.1 (by omega)
    exact ⟨hs, hne, .inl ⟨rfl, by rw [hpath, hpre]; rfl⟩⟩
  · split at h
    · cases h
    rename_i hzero hfit
    obtain ⟨rfl, rfl⟩ := Prod.mk.inj (Option.some.inj h)
    refine ⟨hs, hne, .inr ?_⟩
    cases hpre : pre.reverse with
    | nil =>
      rw [hpre] at hpath
      rw [hpath] at hzero
      simp at hzero
    | cons c dir =>
      rw [hpath, hpre] at hhead
      obtain rfl : c = slash := by simpa using hhead.1
      refine ⟨dir, ?_, rfl, by rw [hpath, hpre]⟩
      rw [hpath, hpre] at hfit
      simp only [cons_append, length_cons, length_append] at hfit
      omega

theorem walkNodes_append (g : Graph) (cur : Nat) (toks toks' : List Text) :
    walkNodes g cur (toks ++ toks') = (walkNodes g cur toks).bind fun n => walkNodes g n toks' := by
  induction toks generalizing cur with
  | nil => rfl
  | cons tok toks ih =>
    rw [cons_append, walkNodes, walkNodes]
    cases (g cur).find tok with
    | none => rfl
    | some next => exact ih next

/-- The root needs no case of its own. -/
theorem pathNode_eq_walk {g : Graph} {path : Text} (h : path.head? = some slash) :
    pathNode g path = walkNodes g EXT2_ROOT_INODE (pathTokens path) := by
  rw [pathNode, if_neg (not_not.2 h)]
  split
  · rename_i hroot
    rw [hroot]
    rfl
  · rfl

/-- What the 255 bytes of `ext2_path_to_inode`'s buffer keep of the last component. -/
def keptLeaf (path leaf : Text) : Text := leaf.take (PUREUNIX_MAX_PATH - (path.length - leaf.length))

theorem keptLeaf_eq {path leaf : Text} (hle : leaf.length ≤ path.length) (hlen : path.length ≤ PUREUNIX_MAX_PATH) :
    keptLeaf path leaf = leaf := take_of_length_le (by omega)

/-- **A path is looked up component by component**, as far as the buffer holds it. -/
theorem pathNode_kept {path parent leaf : Text} (h : splitParentLeaf path = some (parent, leaf)) (g : Graph) :
    pathNode g path = (pathNode g parent).bind fun p => walkNodes g p (tokensFrom [] (keptLeaf path leaf)) := by
  obtain ⟨hs, hne, ⟨rfl, rfl⟩ | ⟨dir, hfit, rfl, rfl⟩⟩ := splitParentLeaf_cases h
  · have hkept : keptLeaf (slash :: leaf) leaf = leaf.take (PUREUNIX_MAX_PATH - 1) := by
      rw [keptLeaf, length_cons, Nat.add_sub_cancel_left]
    rw [pathNode_eq_walk rfl, hkept]
    rfl
  · have hkept : keptLeaf (slash :: dir ++ slash :: leaf) leaf = leaf.take (PUREUNIX_MAX_PATH - 2 - dir.length) := by
      simp only [keptLeaf, cons_append, length_cons, length_append]
      congr 1
      omega
    have htoks : pathTokens (slash :: dir ++ slash :: leaf) =
        pathTokens (slash :: dir) ++ tokensFrom [] (leaf.take (PUREUNIX_MAX_PATH - 2 - dir.length)) := by
      have hcut : PUREUNIX_MAX_PATH - 1 - dir.length = PUREUNIX_MAX_PATH - 2 - dir.length + 1 := by omega
      rw [pathTokens, pathTokens, cons_append, drop_one, drop_one, tail_cons, tail_cons, take_append, hcut, take_succ_cons,
        tokens_append_slash]
    rw [pathNode_eq_walk rfl, pathNode_eq_walk rfl, htoks, walkNodes_append, hkept]

theorem walkNodes_single (g : Graph) (p : Nat) (name : Text) : walkNodes g p [name] = (g p).find name := by
  rw [walkNodes]
  cases (g p).find name <;> rfl

theorem pathNode_split {path parent leaf : Text} (h : splitParentLeaf path = some (parent, leaf))
    (hlen : path.length ≤ PUREUNIX_MAX_PATH) (g : Graph) : pathNode g path = (pathNode g parent).bind fun p => (g p).find leaf := by
  obtain ⟨hs, hne, hcases⟩ := splitParentLeaf_cases h
  have hle : leaf.length ≤ path.length := by
    rcases hcases with ⟨-, rfl⟩ | ⟨dir, -, -, rfl⟩
    · simp
    · simp only [cons_append, length_cons, length_append]
      omega
  rw [pathNode_kept h, keptLeaf_eq hle hlen, tokens_of_notMem hs hne]
  simp only [walkNodes_single]

/-! ## Graphs that gain entries -/

def Graph.Finds (g g' : Graph) : Prop := ∀ j name m, (g j).find name = some m → (g' j).find name = some m

namespace Graph.Finds
variable {g g' g'' : Graph}

theorem walk (h : g.Finds g') : ∀ {toks : List Text} {cur n : Nat}, walkNodes g cur toks = some n → walkNodes g' cur toks = some n
  | [], _, _, hw => hw
  | tok :: toks, cur, n, hw => by
    rw [walkNodes] at hw ⊢
    cases hf : (g cur).find tok with
    | none => rw [hf] at hw; cases hw
    | some next =>
      rw [hf] at hw
      rw [h cur tok next hf]
      exact h.walk hw

theorem path (h : g.Finds g') {path : Text} {n : Nat} (hp : pathNode g path = some n) : pathNode g' path = some n := by
  unfold pathNode at hp ⊢
  split at hp
  · cases hp
  rw [if_neg ‹_›]
  split at hp
  · rw [if_pos ‹_›]; exact hp
  · rw [if_neg ‹_›]; exact h.walk hp

end Graph.Finds

end PureUnix.Ext2
