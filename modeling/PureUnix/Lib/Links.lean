import Mathlib.Data.List.Nodup
import Mathlib.Logic.Function.Basic

/-!
# Chains in a table of links

Each element of a table holds the next element of its chain, or a mark that ends it. `Chain ok last next c cs`:
from `c` the links lead through `cs`, all of them `ok`, up to an end mark. A chain determines its elements, so it
cannot come back to one of them (`Chain.nodup`). `follow` computes it with fuel.
-/
namespace PureUnix.Lib

open List

variable {α : Type} {ok last : α → Prop} {next next' : α → α} {c : α} {cs : List α} {x : α} {ns : List α}

inductive Chain (ok last : α → Prop) (next : α → α) : α → List α → Prop
  | last {c : α} : ok c → last (next c) → Chain ok last next c [c]
  | link {c : α} {cs : List α} : ok c → ¬ last (next c) → Chain ok last next (next c) cs → Chain ok last next c (c :: cs)

/-- The links from `c` on, `n` elements at most. -/
def follow (last : α → Prop) [DecidablePred last] (next : α → α) : Nat → α → List α
  | 0, _ => []
  | n + 1, c => c :: if last (next c) then [] else follow last next n (next c)

namespace Chain

section
variable (h : Chain ok last next c cs)
include h

theorem ne_nil : cs ≠ [] := by
  cases h <;> simp

theorem head? : cs.head? = some c := by
  cases h <;> rfl

theorem start_mem : c ∈ cs := by
  cases h <;> simp

theorem ok_of_mem (hx : x ∈ cs) : ok x := by
  induction h with
  | last hok _ => rw [mem_singleton.1 hx]; exact hok
  | link hok _ _ ih =>
    rcases mem_cons.1 hx with rfl | hx
    · exact hok
    · exact ih hx

theorem det {ds : List α} (h' : Chain ok last next c ds) : cs = ds := by
  induction h generalizing ds with
  | last _ hl =>
    cases h' with
    | last => rfl
    | link _ hn _ => exact absurd hl hn
  | link _ hn _ ih =>
    cases h' with
    | last _ hl => exact absurd hl hn
    | link _ _ ht => rw [ih ht]

theorem suffix (hx : x ∈ cs) : ∃ ds, Chain ok last next x ds ∧ ds <:+ cs := by
  induction h with
  | last hok hl =>
    rw [mem_singleton.1 hx]
    exact ⟨_, .last hok hl, suffix_rfl⟩
  | link hok hn ht ih =>
    rcases mem_cons.1 hx with rfl | hx
    · exact ⟨_, .link hok hn ht, suffix_rfl⟩
    · obtain ⟨ds, hds, hsuf⟩ := ih hx
      exact ⟨ds, hds, hsuf.trans (suffix_cons _ _)⟩

theorem nodup : cs.Nodup := by
  induction h with
  | last => exact nodup_singleton _
  | link hok hn ht ih =>
    refine nodup_cons.2 ⟨fun hmem => ?_, ih⟩
    -- a chain that comes back to its start would be longer than itself
    obtain ⟨ds, hds, hsuf⟩ := ht.suffix hmem
    have hlen := hsuf.length_le
    rw [← (Chain.link hok hn ht).det hds] at hlen
    exact absurd hlen (by simp)

theorem congr (he : ∀ x ∈ cs, next' x = next x) : Chain ok last next' c cs := by
  induction h with
  | last hok hl => exact .last hok (by rw [he _ (mem_singleton_self _)]; exact hl)
  | link hok hn _ ih =>
    have hhead := he _ mem_cons_self
    refine .link hok (by rw [hhead]; exact hn) ?_
    rw [hhead]
    exact ih fun x hx => he x (mem_cons_of_mem _ hx)

/-- The last element links elsewhere. -/
theorem relink (he : ∀ x ∈ cs, x ≠ cs.getLast h.ne_nil → next' x = next x)
    (ht : Chain ok last next' (cs.getLast h.ne_nil) (cs.getLast h.ne_nil :: ns)) : Chain ok last next' c (cs ++ ns) := by
  induction h with
  | last => exact ht
  | @link c cs hok hnl hrest ih =>
    have hlast : (c :: cs).getLast (cons_ne_nil _ _) = cs.getLast hrest.ne_nil := getLast_cons hrest.ne_nil
    have hhead : next' c = next c := by
      refine he c mem_cons_self fun hc => ?_
      rw [hlast] at hc
      exact (nodup_cons.1 (Chain.link hok hnl hrest).nodup).1 (hc ▸ getLast_mem _)
    refine .link hok (by rw [hhead]; exact hnl) ?_
    rw [hhead]
    exact ih (fun x hx hne => he x (mem_cons_of_mem _ hx) (by rw [hlast]; exact hne)) (by rw [← hlast]; exact ht)

theorem remark (he : ∀ x ∈ cs, x ≠ cs.getLast h.ne_nil → next' x = next x)
    (hl : last (next' (cs.getLast h.ne_nil))) : Chain ok last next' c cs := by
  have hr := h.relink he (.last (h.ok_of_mem (getLast_mem _)) hl)
  rwa [append_nil] at hr

/-- A second chain is hung behind the last element. -/
theorem append {n : α} (he : ∀ x ∈ cs, x ≠ cs.getLast h.ne_nil → next' x = next x)
    (hl : next' (cs.getLast h.ne_nil) = n) (hn : ¬ last n) (ht : Chain ok last next' n ns) : Chain ok last next' c (cs ++ ns) := by
  subst hl
  exact h.relink he (.link (h.ok_of_mem (getLast_mem _)) hn ht)

theorem follow_eq [DecidablePred last] {n : Nat} (hn : cs.length ≤ n) : follow last next n c = cs := by
  induction h generalizing n with
  | last _ hl =>
    obtain _ | n := n
    · exact absurd hn (by simp)
    · rw [follow, if_pos hl]
  | link _ hnl _ ih =>
    obtain _ | n := n
    · exact absurd hn (by simp)
    · rw [follow, if_neg hnl, ih (Nat.le_of_succ_le_succ hn)]

end

end Chain
end PureUnix.Lib
