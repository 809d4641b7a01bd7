import Mathlib.Data.List.Destutter
import Mathlib.Data.List.Induction
import Mathlib.Logic.Function.Basic
import PureUnix.Lib.CStr

/-!
# The command history (`shell/line.c`)

A static array of 64 rows. `history_recent`: it holds the last 64 lines that were recorded.
-/
namespace PureUnix.Shell

open List Lib.CStr Function

def HISTORY_MAX : Nat := 64
def LINE_MAX : Nat := 256

structure History where
  history : Nat → Text := fun _ => replicate LINE_MAX 0
  historyLen : Nat := 0

def shellHistoryGet (h : History) (index : Nat) : Text := if index < h.historyLen then h.history index else [0]

/-- `shell_history_add` of a text. The `memmove` shifts whole rows. -/
def shellHistoryAdd (h : History) (line : Text) : History :=
  if line = [] then h
  else if h.historyLen ≠ 0 ∧ cstr (h.history (h.historyLen - 1)) = some line then h
  else
    let h := if h.historyLen = HISTORY_MAX then
        { history := fun i => if i < HISTORY_MAX - 1 then h.history (i + 1) else h.history i, historyLen := h.historyLen - 1 }
      else h
    { history := update h.history h.historyLen (strncpy (h.history h.historyLen) line (LINE_MAX - 1))
      historyLen := h.historyLen + 1 }

/-- The lines that are recorded: no empty line, and none twice in a row. -/
def recorded (lines : List Text) : List Text := (lines.filter (· ≠ [])).destutter (· ≠ ·)

def recent (lines : List Text) : List Text := (recorded lines).drop ((recorded lines).length - 64)

theorem destutter'_snoc {α : Type} [DecidableEq α] (l : List α) (a b : α) : (l ++ [b]).destutter' (· ≠ ·) a =
    l.destutter' (· ≠ ·) a ++ if (l.destutter' (· ≠ ·) a).getLast? = some b then [] else [b] := by
  induction l generalizing a with
  | nil => by_cases h : a = b <;> simp [h]
  | cons c l ih =>
    rw [cons_append, destutter'_cons, destutter'_cons]
    split
    · obtain ⟨x, s, hs⟩ := exists_cons_of_ne_nil (destutter'_ne_nil l (· ≠ ·))
      rw [ih, hs, getLast?_cons_cons]
      rfl
    · exact ih a

theorem recorded_snoc (lines : List Text) (line : Text) : recorded (lines ++ [line]) =
    if line = [] ∨ (recorded lines).getLast? = some line then recorded lines else recorded lines ++ [line] := by
  unfold recorded
  by_cases h : line = []
  · simp [h]
  have hline : [line].filter (· ≠ []) = [line] := by simp [h]
  rw [filter_append, hline]
  cases lines.filter (· ≠ []) with
  | nil => simp [h]
  | cons a l =>
    rw [cons_append, destutter_cons', destutter_cons', destutter'_snoc]
    split <;> simp [*]

/-- The rows hold the lines `r`, and every row has its zero byte. -/
def History.Holds (h : History) (r : List Text) : Prop :=
  ∃ texts, h.history = (fun i => field 255 (texts i)) ∧ (range h.historyLen).map texts = r

theorem History.Holds.put {h : History} {r : List Text} (hr : h.Holds r) (line : Text) :
    History.Holds { history := update h.history h.historyLen (strncpy (h.history h.historyLen) line 255)
                    historyLen := h.historyLen + 1 } (r ++ [line]) := by
  obtain ⟨texts, hrows, rfl⟩ := hr
  refine ⟨update texts h.historyLen line, ?_, ?_⟩
  · funext i
    dsimp only
    by_cases hi : i = h.historyLen
    · rw [hi, update_self, update_self, hrows, strncpy_field]
    · rw [update_of_ne hi, update_of_ne hi, hrows]
  · rw [range_succ, map_append, map_singleton, update_self]
    congr 1
    exact map_congr_left fun i hi => update_of_ne (mem_range.1 hi).ne ..

theorem History.Holds.shift {h : History} {r : List Text} (hr : h.Holds r) (hlen : h.historyLen = 64) :
    History.Holds { history := fun i => if i < 63 then h.history (i + 1) else h.history i, historyLen := h.historyLen - 1 } r.tail := by
  obtain ⟨texts, hrows, rfl⟩ := hr
  refine ⟨fun i => if i < 63 then texts (i + 1) else texts i, ?_, ?_⟩
  · funext i
    simp only [hrows]
    split <;> rfl
  · have htail : (range 64).tail = (range 63).map (· + 1) := rfl
    rw [hlen, ← map_tail, htail, map_map]
    exact map_congr_left fun i hi => if_pos (mem_range.1 hi)

theorem holds_add {h : History} {r : List Text} (hr : h.Holds (r.drop (r.length - 64)))
    (hok : ∀ t ∈ r, 0 ∉ t ∧ t.length ≤ 255) (line : Text) : (shellHistoryAdd h line).Holds
      (let r := if line = [] ∨ r.getLast? = some line then r else r ++ [line]; r.drop (r.length - 64)) := by
  have hlen : h.historyLen = r.length - (r.length - 64) := by
    obtain ⟨texts, -, heq⟩ := hr
    simpa using congrArg length heq
  have hlast : h.historyLen ≠ 0 ∧ cstr (h.history (h.historyLen - 1)) = some line ↔ r.getLast? = some line := by
    obtain ⟨texts, hrows, heq⟩ := hr
    cases hk : h.historyLen with
    | zero =>
      obtain rfl : r = [] := length_eq_zero_iff.1 (by omega)
      simp
    | succ k =>
      have hget : r.getLast? = some (texts k) := by
        have := congrArg getLast? heq
        rw [hk, range_succ, map_append, map_singleton, getLast?_concat, getLast?_drop, if_neg (by omega)] at this
        exact this.symm
      obtain ⟨hz, hl⟩ := hok _ (mem_of_getLast? hget)
      simp [hrows, hget, cstr_field hz hl]
  simp only [shellHistoryAdd, hlast]
  by_cases hskip : line = [] ∨ r.getLast? = some line
  · rw [if_pos hskip]
    rcases hskip with h | h <;> simpa [h] using hr
  rw [if_neg hskip]
  rw [not_or] at hskip
  rw [if_neg hskip.1, if_neg hskip.2, length_append, length_singleton]
  have hmax : HISTORY_MAX = 64 := rfl
  by_cases hfull : h.historyLen = HISTORY_MAX
  · have := (hr.shift hfull).put line
    rw [tail_drop, ← drop_append_of_le_length (by omega), show r.length - 64 + 1 = r.length + 1 - 64 by omega] at this
    rw [if_pos hfull]
    exact this
  · have := hr.put line
    rw [← drop_append_of_le_length (by omega), show r.length - 64 = r.length + 1 - 64 by omega] at this
    rw [if_neg hfull]
    exact this

theorem holds_foldl (lines : List Text) (hok : ∀ t ∈ lines, 0 ∉ t ∧ t.length ≤ 255) :
    (lines.foldl shellHistoryAdd {}).Holds (recent lines) := by
  induction lines using List.reverseRecOn with
  | nil => exact ⟨fun _ => [], rfl, rfl⟩
  | append_singleton lines line ih =>
    rw [forall_mem_append] at hok
    rw [foldl_append, recent, recorded_snoc]
    refine holds_add (ih hok.1) (fun t ht => hok.1 t ?_) line
    exact (filter_sublist.subset ((destutter_sublist _ _).subset ht))

/-- **The history is the recent past.** -/
theorem history_recent (lines : List Text) (hok : ∀ t ∈ lines, 0 ∉ t ∧ t.length ≤ 255) :
    (lines.foldl shellHistoryAdd {}).historyLen = (recent lines).length ∧
    ∀ i, cstr (shellHistoryGet (lines.foldl shellHistoryAdd {}) i) = some ((recent lines).getD i []) := by
  obtain ⟨texts, hrows, heq⟩ := holds_foldl lines hok
  have hmem : ∀ t ∈ recent lines, 0 ∉ t ∧ t.length ≤ 255 := fun t ht =>
    hok t (filter_sublist.subset ((destutter_sublist _ _).subset (mem_of_mem_drop ht)))
  rw [← heq] at hmem ⊢
  refine ⟨by simp, fun i => ?_⟩
  unfold shellHistoryGet
  split
  · next hi =>
    obtain ⟨hz, hl⟩ := hmem _ (mem_map_of_mem (mem_range.2 hi))
    simp [hrows, cstr_field hz hl, hi]
  · next hi =>
    simp [hi]
    rfl

theorem history_recent_two : (recent [[97], [97], [], [97], [98]]) = [[97], [98]] ∧
    cstr (shellHistoryGet ([[97], [97], [], [97], [98]].foldl shellHistoryAdd {}) 1) = some [98] :=
  ⟨by decide, (history_recent [[97], [97], [], [97], [98]] (by decide)).2 1⟩

end PureUnix.Shell
