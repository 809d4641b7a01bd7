import Mathlib
import PureUnix.Lib.Ring

/-!
# The scheduler

`src/kernel/task.c`. Tasks are records in memory, known by their address and linked through `next`; `current` and
`task_list_head` are pointers into them. A call is given the answers of the allocator where the code asks it. `created`
is not in the source: it records which tasks there are, in the order in which they were made.
-/
namespace PureUnix.Kernel
open Lib List
open Function

variable {task stack n : Nat}

inductive TaskState
  | ready
  | running
  | sleeping
  | zombie
  deriving DecidableEq, Repr

/-- `task_t`, as far as the scheduler reads it. -/
structure TaskT where
  id : Nat
  state : TaskState
  next : Nat
  uid : Nat
  gid : Nat

def TaskT.runnable (t : TaskT) : Bool := t.state == .ready || t.state == .running

structure Sched where
  task : Nat → TaskT
  current : Nat
  taskListHead : Nat
  /-- The address of `main_task`. -/
  mainTask : Nat
  nextTaskId : Nat
  created : List Nat

namespace Sched

def next (s : Sched) (a : Nat) : Nat := (s.task a).next
def runnable (s : Sched) (a : Nat) : Bool := (s.task a).runnable

def setState (s : Sched) (a : Nat) (st : TaskState) : Sched :=
  { s with task := update s.task a { s.task a with state := st } }

/-- The loops go once around the ring at most. -/
def fuel (s : Sched) : Nat := s.created.length + 1

end Sched

/-- `memory`: what lies at the other addresses. -/
def taskingInit (mainTask : Nat) (memory : Nat → TaskT) : Sched where
  task := update memory mainTask ⟨1, .running, mainTask, 0, 0⟩
  current := mainTask
  taskListHead := mainTask
  mainTask := mainTask
  nextTaskId := 2
  created := [mainTask]

/-- `task` and `stack` are what `kcalloc` and `kmalloc` answered. The result is the pointer returned. -/
def taskCreate (task stack : Nat) (s : Sched) : Option (Nat × Sched) :=
  if task = 0 then some (0, s)
  else if stack = 0 then some (0, s)
  else do
    let filled := update s.task task ⟨s.nextTaskId, .ready, 0, (s.task s.current).uid, (s.task s.current).gid⟩
    let tail ← seekLast (fun a => (filled a).next) s.taskListHead s.fuel s.taskListHead
    let linked := update filled tail { filled tail with next := task }
    return (task, { s with
      task := update linked task { linked task with next := s.taskListHead }
      nextTaskId := (s.nextTaskId + 1) % 2 ^ 32
      created := s.created ++ [task] })

def nextReadyTask (s : Sched) : Option Nat := do
  let found ← seek s.next s.runnable (· == s.current) s.fuel (s.next s.current)
  return found.getD s.current

def taskYield (s : Sched) : Option Sched := do
  let next ← nextReadyTask s
  if next = s.current then
    return s
  let left := if (s.task s.current).state = .running then s.setState s.current .ready else s
  return { left.setState next .running with current := next }

/-- Up to the final loop of halts, which only a switch to another task leaves. -/
def taskExit (s : Sched) : Option Sched := taskYield (s.setState s.current .zombie)

def taskKill (id : Nat) (s : Sched) : Option (Int × Sched) :=
  let wanted := fun a => (s.task a).id == id && a != s.mainTask
  if wanted s.taskListHead then some (0, s.setState s.taskListHead .zombie)
  else do
    match ← seek s.next wanted (fun a => a == 0 || a == s.taskListHead) s.fuel (s.next s.taskListHead) with
    | some a => return (0, s.setState a .zombie)
    | none => return (-1, s)

inductive SchedCall
  | create (task stack : Nat)
  | yield
  | exit
  | kill (id : Nat)

def schedStep (s : Sched) : SchedCall → Option Sched
  | .create task stack => (taskCreate task stack s).map Prod.snd
  | .yield => taskYield s
  | .exit => taskExit s
  | .kill id => (taskKill id s).map Prod.snd

/-- The task a call makes: the allocator has handed out memory for it and for its stack. -/
def SchedCall.made : SchedCall → List Nat
  | .create task stack => if task = 0 ∨ stack = 0 then [] else [task]
  | _ => []

def schedRun : Sched → List SchedCall → Option Sched
  | s, [] => some s
  | s, call :: calls => (schedStep s call).bind (schedRun · calls)

/-- `current` after each of `k` yields. -/
def yields : Nat → Sched → Option (List Nat)
  | 0, _ => some []
  | k + 1, s => do
    let s' ← taskYield s
    return s'.current :: (← yields k s')

/-! ## What every state keeps -/

namespace Sched
variable {s s' : Sched} {a b n : Nat} {st : TaskState} {pre post : List Nat}

structure Sound (s : Sched) : Prop where
  ring : Ring s.next s.taskListHead s.created
  nonnull : 0 ∉ s.created
  current_mem : s.current ∈ s.created
  running : ∀ a ∈ s.created, (s.task a).state = .running → a = s.current

@[simp] theorem next_setState : (s.setState a st).next = s.next := by
  funext b
  simp only [next, setState, update_apply]
  split
  · rename_i hb
    rw [hb]
  · rfl

theorem state_setState : ((s.setState a st).task b).state = if b = a then st else (s.task b).state := by
  simp only [setState, update_apply]
  split <;> rfl

def switchTo (s : Sched) (n : Nat) : Sched :=
  let left := if (s.task s.current).state = .running then s.setState s.current .ready else s
  { left.setState n .running with current := n }

@[simp] theorem next_switchTo : (s.switchTo n).next = s.next := by
  have hleft : ∀ left : Sched, ({ left.setState n .running with current := n }).next = left.next :=
    fun left => next_setState
  rw [switchTo, hleft]
  split
  · rw [next_setState]
  · rfl

@[simp] theorem created_switchTo : (s.switchTo n).created = s.created := by
  simp only [switchTo, setState]
  split <;> rfl

@[simp] theorem head_switchTo : (s.switchTo n).taskListHead = s.taskListHead := by
  simp only [switchTo, setState]
  split <;> rfl

@[simp] theorem current_switchTo : (s.switchTo n).current = n := rfl

theorem state_switchTo : ((s.switchTo n).task b).state =
    if b = n then .running else if b = s.current ∧ (s.task b).state = .running then .ready else (s.task b).state := by
  have hleft : ∀ left : Sched, (({ left.setState n .running with current := n }).task b).state =
      if b = n then .running else (left.task b).state := fun left => state_setState
  rw [switchTo, hleft]
  by_cases hn : b = n
  · rw [if_pos hn, if_pos hn]
  rw [if_neg hn, if_neg hn]
  by_cases hb : b = s.current
  · subst hb
    by_cases hr : (s.task s.current).state = .running
    · rw [if_pos hr, state_setState, if_pos rfl, if_pos ⟨rfl, hr⟩]
    · rw [if_neg hr, if_neg (fun h => hr h.2)]
  · rw [if_neg (fun h : b = s.current ∧ _ => hb h.1)]
    split
    · rw [state_setState, if_neg hb]
    · rfl

theorem switchTo_sound (h : s.Sound) (hn : n ∈ s.created) : (s.switchTo n).Sound := by
  refine ⟨by simpa using h.ring, by simpa using h.nonnull, by simpa using hn, ?_⟩
  intro a ha hr
  rw [created_switchTo] at ha
  rw [state_switchTo] at hr
  split at hr
  · assumption
  -- the task that was running has been set back
  · split at hr
    · exact absurd hr (by decide)
    · rename_i hne
      exact absurd ⟨h.running a ha hr, hr⟩ hne

/-- `w` are the tasks that wait behind the current one, in ring order. -/
structure Waiting (s : Sched) (w : List Nat) : Prop where
  ring : Ring s.next s.current (s.current :: w)
  bound : w.length < s.fuel

theorem Sound.waiting (h : s.Sound) (hs : s.created = pre ++ s.current :: post) : s.Waiting (post ++ pre) := by
  have hring := h.ring
  rw [hs] at hring
  refine ⟨hring.rotate, ?_⟩
  simp only [fuel, hs, length_append, length_cons]
  omega

end Sched

open Sched

variable {s : Sched} {w : List Nat}

theorem nextReadyTask_eq (h : s.Waiting w) : nextReadyTask s = some ((w.find? s.runnable).getD s.current) := by
  obtain ⟨hwalk, hmem⟩ := h.ring.around
  have hstop : ∀ x ∈ w, ¬ (x == s.current) := by
    intro x hx he
    rw [beq_iff_eq] at he
    exact hmem (he ▸ hx)
  rw [nextReadyTask, seek_eq hwalk (by simp) hstop h.bound]
  rfl

/-- **A yield passes on to the first task behind the current one that can run**, if there is one. -/
theorem taskYield_eq (h : s.Waiting w) : taskYield s = some ((w.find? s.runnable).elim s s.switchTo) := by
  rw [taskYield, nextReadyTask_eq h]
  cases hf : w.find? s.runnable with
  | none => simp
  | some n =>
    have hne : n ≠ s.current := by
      rintro rfl
      exact h.ring.around.2 (mem_of_find?_eq_some hf)
    simp [hne, switchTo]

/-- A new task is ready and stands last in the ring; the others are as they were. -/
theorem taskCreate_eq (h : s.Sound) (hfresh : task ∉ s.created) (ht : task ≠ 0) (hstack : stack ≠ 0) :
    ∃ s', taskCreate task stack s = some (task, s') ∧ s'.created = s.created ++ [task] ∧ s'.current = s.current ∧
      s'.taskListHead = s.taskListHead ∧ Ring s'.next s'.taskListHead s'.created ∧ (s'.task task).state = .ready ∧
      ∀ a ∈ s.created, (s'.task a).state = (s.task a).state := by
  obtain ⟨l, t, hl⟩ : ∃ l t, s.created = l ++ [t] :=
    ⟨_, _, (dropLast_append_getLast h.ring.nonempty).symm⟩
  let filled := update s.task task ⟨s.nextTaskId, .ready, 0, (s.task s.current).uid, (s.task s.current).gid⟩
  have hold : ∀ a ∈ s.created, filled a = s.task a := by
    intro a ha
    have hat : a ≠ task := fun e => hfresh (e ▸ ha)
    exact update_of_ne hat _ _
  have hring : Ring (fun a => (filled a).next) s.taskListHead (l ++ [t]) := by
    rw [← hl]
    exact h.ring.congr fun a ha => by rw [hold a ha]; rfl
  have htail : seekLast (fun a => (filled a).next) s.taskListHead s.fuel s.taskListHead = some t := by
    refine seekLast_eq hring.closed (fun x hx => hring.next_ne hx) ?_
    simp only [fuel, hl, length_append]
    omega
  have htt : t ≠ task := by
    rintro rfl
    exact hfresh (by simp [hl])
  let linked := update filled t { filled t with next := task }
  let made : Sched := { s with
    task := update linked task { linked task with next := s.taskListHead }
    nextTaskId := (s.nextTaskId + 1) % 2 ^ 32
    created := s.created ++ [task] }
  refine ⟨made, ?_, rfl, rfl, rfl, ?_, ?_, ?_⟩
  · rw [taskCreate, if_neg ht, if_neg hstack]
    change (seekLast _ _ _ _).bind _ = _
    rw [htail]
    rfl
  · have hnew := hring.extend (hl ▸ hfresh)
    rw [← hl] at hnew
    refine hnew.congr fun a _ => ?_
    simp only [made, linked, Sched.next, update_apply]
    split_ifs <;> rfl
  · simp [made, linked, filled, update_of_ne htt.symm]
  · intro a ha
    have hat : a ≠ task := fun e => hfresh (e ▸ ha)
    rw [← hold a ha]
    simp only [made, linked, update_of_ne hat, update_apply]
    split
    · rename_i e
      rw [e]
    · rfl

/-- A kill finds its task or changes nothing. -/
theorem taskKill_eq (h : s.Sound) (id : Nat) :
    ∃ code s', taskKill id s = some (code, s') ∧ (s' = s ∨ ∃ a ∈ s.created, s' = s.setState a .zombie) := by
  obtain ⟨rest, hrest⟩ := h.ring.head
  have hring := h.ring
  rw [hrest] at hring
  obtain ⟨hwalk, hmem⟩ := hring.around
  let wanted := fun a => (s.task a).id == id && a != s.mainTask
  let stop := fun a => a == 0 || a == s.taskListHead
  have hstop : ∀ x ∈ rest, ¬ stop x := by
    intro x hx he
    simp only [stop, Bool.or_eq_true, beq_iff_eq] at he
    rcases he with rfl | rfl
    · exact h.nonnull (by simp [hrest, hx])
    · exact hmem hx
  have hseek : seek s.next wanted stop s.fuel (s.next s.taskListHead) = some (rest.find? wanted) := by
    refine seek_eq hwalk (by simp [stop]) hstop ?_
    simp only [fuel, hrest, length_cons]
    omega
  by_cases hw : wanted s.taskListHead
  · exact ⟨0, _, if_pos hw, .inr ⟨_, h.ring.start_mem, rfl⟩⟩
  have hkill : taskKill id s = (seek s.next wanted stop s.fuel (s.next s.taskListHead)).bind fun found =>
      match found with
      | some a => some (0, s.setState a .zombie)
      | none => some (-1, s) := by
    rw [taskKill, if_neg hw]
    rfl
  rw [hkill, hseek]
  cases hf : rest.find? wanted with
  | none => exact ⟨-1, s, rfl, .inl rfl⟩
  | some a =>
    refine ⟨0, _, rfl, .inr ⟨a, ?_, rfl⟩⟩
    rw [hrest]
    exact mem_cons_of_mem _ (mem_of_find?_eq_some hf)

/-! ## One call, and every run -/

namespace Sched
variable {s s' s'' : Sched} {a n : Nat} {made made' : List Nat}

/-- What a call may change of the tasks there were; `made` are the ones it adds. -/
structure Evolves (s : Sched) (made : List Nat) (s' : Sched) : Prop where
  head : s'.taskListHead = s.taskListHead
  created : s'.created = s.created ++ made
  zombie : ∀ a ∈ s.created, (s.task a).state = .zombie → (s'.task a).state = .zombie
  left : ∀ a ∈ s.created, (s.task a).state = .zombie → a ≠ s.current → a ≠ s'.current

theorem Evolves.refl (s : Sched) : s.Evolves [] s :=
  ⟨rfl, (append_nil _).symm, fun _ _ h => h, fun _ _ _ h => h⟩

theorem Evolves.mem (h : s.Evolves made s') (ha : a ∈ s.created) : a ∈ s'.created := by
  rw [h.created]
  exact mem_append_left _ ha

theorem Evolves.trans (h : s.Evolves made s') (h' : s'.Evolves made' s'') : s.Evolves (made ++ made') s'' where
  head := h'.head.trans h.head
  created := by rw [h'.created, h.created, append_assoc]
  zombie := fun a ha hz => h'.zombie a (h.mem ha) (h.zombie a ha hz)
  left := fun a ha hz hc => h'.left a (h.mem ha) (h.zombie a ha hz) (h.left a ha hz hc)

theorem zombie_sound (h : s.Sound) : (s.setState a .zombie).Sound := by
  refine ⟨next_setState (s := s) ▸ h.ring, h.nonnull, h.current_mem, ?_⟩
  intro b hb hr
  rw [state_setState] at hr
  split at hr
  · exact absurd hr (by decide)
  · exact h.running b hb hr

theorem zombie_evolves : s.Evolves [] (s.setState a .zombie) := by
  refine ⟨rfl, (append_nil _).symm, fun b _ hz => ?_, fun _ _ _ h => h⟩
  rw [state_setState]
  split
  · rfl
  · exact hz

theorem switchTo_evolves (hn : s.runnable n) : s.Evolves [] (s.switchTo n) := by
  have hlive : ∀ b, (s.task b).state = .zombie → b ≠ n := by
    rintro b hz rfl
    simp [runnable, TaskT.runnable, hz] at hn
  refine ⟨by simp, by simp, fun b _ hz => ?_, fun b _ hz _ => hlive b hz⟩
  rw [state_switchTo, if_neg (hlive b hz), if_neg (by simp [hz]), hz]

end Sched

variable {s : Sched}

theorem taskYield_spec (h : s.Sound) : ∃ s', taskYield s = some s' ∧ s'.Sound ∧ s.Evolves [] s' := by
  obtain ⟨pre, post, hs⟩ := append_of_mem h.current_mem
  rw [taskYield_eq (h.waiting hs)]
  cases hf : (post ++ pre).find? s.runnable with
  | none => exact ⟨s, rfl, h, Evolves.refl s⟩
  | some n =>
    have hn : n ∈ s.created := by
      have hmem := mem_of_find?_eq_some hf
      simp only [mem_append] at hmem
      simp only [hs, mem_append, mem_cons]
      tauto
    exact ⟨_, rfl, switchTo_sound h hn, switchTo_evolves (find?_some hf)⟩

theorem taskCreate_spec (h : s.Sound) (hfresh : ∀ a ∈ (SchedCall.create task stack).made, a ∉ s.created) :
    ∃ r, taskCreate task stack s = some r ∧ r.2.Sound ∧ s.Evolves (SchedCall.create task stack).made r.2 := by
  by_cases ht : task = 0
  · exact ⟨(0, s), if_pos ht, h, by rw [SchedCall.made, if_pos (.inl ht)]; exact Evolves.refl s⟩
  by_cases hstack : stack = 0
  · exact ⟨(0, s), by rw [taskCreate, if_neg ht, if_pos hstack], h,
      by rw [SchedCall.made, if_pos (.inr hstack)]; exact Evolves.refl s⟩
  have hmade : (SchedCall.create task stack).made = [task] := if_neg (by simp [ht, hstack])
  rw [hmade] at hfresh ⊢
  obtain ⟨s', hcreate, hcreated, hcurrent, hhead, hring, hready, hold⟩ := taskCreate_eq h (hfresh task (by simp)) ht hstack
  refine ⟨(task, s'), hcreate, ⟨hring, ?_, ?_, ?_⟩, ⟨hhead, hcreated, ?_, ?_⟩⟩
  · rw [hcreated]
    simpa [Ne.symm ht] using h.nonnull
  · rw [hcreated, hcurrent]
    exact mem_append_left _ h.current_mem
  · intro a ha hr
    rw [hcreated, mem_append, mem_singleton] at ha
    rcases ha with ha | rfl
    · rw [hcurrent]
      exact h.running a ha (hold a ha ▸ hr)
    · rw [hready] at hr
      exact absurd hr (by decide)
  · intro a ha hz
    rw [hold a ha, hz]
  · intro a _ _ hc
    rwa [hcurrent]

/-- **One call**: it returns, the ring and the one running task stay, and zombies stay what they are. -/
theorem schedStep_spec (h : s.Sound) {call : SchedCall} (hfresh : ∀ a ∈ call.made, a ∉ s.created) :
    ∃ s', schedStep s call = some s' ∧ s'.Sound ∧ s.Evolves call.made s' := by
  cases call with
  | create task stack =>
    obtain ⟨r, hr, hsound, hev⟩ := taskCreate_spec h hfresh
    exact ⟨r.2, by rw [schedStep, hr]; rfl, hsound, hev⟩
  | yield => exact taskYield_spec h
  | exit =>
    obtain ⟨s', hs', hsound, hev⟩ := taskYield_spec (zombie_sound h)
    exact ⟨s', hs', hsound, zombie_evolves.trans hev⟩
  | kill id =>
    obtain ⟨code, s', hkill, rfl | ⟨a, -, rfl⟩⟩ := taskKill_eq h id
    · exact ⟨_, by rw [schedStep, hkill]; rfl, h, Evolves.refl _⟩
    · exact ⟨_, by rw [schedStep, hkill]; rfl, zombie_sound h, zombie_evolves⟩

theorem schedRun_spec : ∀ {calls : List SchedCall} {s : Sched}, s.Sound → (s.created ++ calls.flatMap SchedCall.made).Nodup →
    ∃ s', schedRun s calls = some s' ∧ s'.Sound ∧ s.Evolves (calls.flatMap SchedCall.made) s'
  | [], s, h, _ => ⟨s, rfl, h, Evolves.refl s⟩
  | call :: calls, s, h, hfresh => by
    rw [flatMap_cons, ← append_assoc] at hfresh
    have hcall : ∀ a ∈ call.made, a ∉ s.created := by
      intro a ha hmem
      exact (nodup_append.1 (nodup_append.1 hfresh).1).2.2 a hmem a ha rfl
    obtain ⟨s', hstep, hsound, hev⟩ := schedStep_spec h hcall
    rw [← hev.created] at hfresh
    obtain ⟨s'', hrun, hsound', hev'⟩ := schedRun_spec hsound hfresh
    exact ⟨s'', by rw [schedRun, hstep]; exact hrun, hsound', hev.trans hev'⟩

theorem taskingInit_sound {mainTask : Nat} (hmain : mainTask ≠ 0) (memory : Nat → TaskT) : (taskingInit mainTask memory).Sound where
  ring := ⟨⟨rfl, by simp [taskingInit, Sched.next, Walk]⟩, nodup_singleton _, by simp [taskingInit]⟩
  nonnull := by simpa [taskingInit] using hmain.symm
  current_mem := by simp [taskingInit]
  running := fun a ha _ => mem_singleton.1 ha

/-! ## A round of yields -/

theorem Sched.runnable_switchTo (hn : s.runnable n) : (s.switchTo n).runnable = s.runnable := by
  funext b
  simp only [runnable, TaskT.runnable, state_switchTo] at hn ⊢
  split
  · rename_i hb
    rw [hb, hn]
    rfl
  split
  · rename_i hb
    rw [hb.2]
    rfl
  · rfl

/-- The next one's turn: those passed over and the one left now wait last. -/
theorem Sched.Waiting.switch {u v : List Nat} (h : s.Waiting (u ++ n :: v)) : (s.switchTo n).Waiting (v ++ s.current :: u) := by
  refine ⟨?_, ?_⟩
  · have hring := h.ring
    simpa using hring.rotate
  · have hbound := h.bound
    simp only [fuel, created_switchTo, length_append, length_cons] at hbound ⊢
    omega

/-- **Yields go round the tasks that can run.** -/
theorem yields_eq : ∀ {k : Nat} {s : Sched} {w : List Nat}, s.Waiting w → s.runnable s.current →
    k ≤ ((w ++ [s.current]).filter s.runnable).length → yields k s = some (((w ++ [s.current]).filter s.runnable).take k)
  | 0, _, _, _, _, _ => rfl
  | k + 1, s, w, h, hc, hk => by
    rw [yields, taskYield_eq h]
    cases hf : w.find? s.runnable with
    | none =>
      -- nobody else can run, so this was the only yield
      have hnone : w.filter s.runnable = [] := filter_eq_nil_iff.2 (find?_eq_none.1 hf)
      simp only [filter_append, hnone, nil_append, filter_singleton, hc] at hk ⊢
      obtain rfl : k = 0 := by simpa using hk
      rfl
    | some n =>
      obtain ⟨hn, u, v, rfl, hu⟩ := find?_eq_some_iff_append.1 hf
      have hunone : u.filter s.runnable = [] := filter_eq_nil_iff.2 fun x hx => by simpa using hu x hx
      have hround : (u ++ n :: v ++ [s.current]).filter s.runnable = n :: (v.filter s.runnable ++ [s.current]) := by
        simp [filter_append, hunone, hn, hc]
      have hnext : ((v ++ s.current :: u) ++ [n]).filter s.runnable = v.filter s.runnable ++ [s.current] ++ [n] := by
        simp [filter_append, hunone, hn, hc]
      rw [hround] at hk ⊢
      have hk' : k ≤ (v.filter s.runnable ++ [s.current]).length := by simpa using hk
      have hrest := yields_eq (k := k) h.switch
      rw [runnable_switchTo hn, current_switchTo, hnext] at hrest
      specialize hrest hn (by simp only [length_append] at hk' ⊢; omega)
      change (yields k (s.switchTo n)).bind _ = _
      rw [hrest, take_append_of_le_length hk']
      rfl

/-- **A fair round robin with one running task**, as long as the allocator hands out no task's memory again. -/
theorem fair_round_robin {mainTask : Nat} (hmain : mainTask ≠ 0) (memory : Nat → TaskT) (calls : List SchedCall)
    (hfresh : (mainTask :: calls.flatMap SchedCall.made).Nodup) :
    ∃ s, schedRun (taskingInit mainTask memory) calls = some s ∧
      s.created = mainTask :: calls.flatMap SchedCall.made ∧ Ring s.next mainTask s.created ∧
      (∀ a ∈ s.created, (s.task a).state = .running → a = s.current) ∧
      (∀ more, (s.created ++ more.flatMap SchedCall.made).Nodup → ∃ s', schedRun s more = some s' ∧ ∀ a ∈ s.created, (s.task a).state = .zombie →
        (s'.task a).state = .zombie ∧ (a ≠ s.current → a ≠ s'.current)) ∧
      (∀ pre post, s.created = pre ++ s.current :: post → s.runnable s.current →
        yields (s.created.filter s.runnable).length s = some ((post ++ pre).filter s.runnable ++ [s.current])) := by
  obtain ⟨s, hrun, hsound, hev⟩ := schedRun_spec (taskingInit_sound hmain memory) hfresh
  have hhead : s.taskListHead = mainTask := hev.head
  refine ⟨s, hrun, hev.created, hhead ▸ hsound.ring, hsound.running, ?_, ?_⟩
  · intro more hmore
    obtain ⟨s', hrun', -, hev'⟩ := schedRun_spec hsound hmore
    exact ⟨s', hrun', fun a ha hz => ⟨hev'.zombie a ha hz, hev'.left a ha hz⟩⟩
  · intro pre post hs hc
    have hround : (s.created.filter s.runnable).length = (((post ++ pre) ++ [s.current]).filter s.runnable).length := by
      simp only [hs, filter_append, filter_cons, hc, if_true, length_append, length_cons, filter_nil, length_nil]
      omega
    rw [yields_eq (hsound.waiting hs) hc (Nat.le_of_eq hround), hround, take_length]
    simp [filter_append, hc]

/-- Two tasks are made and the first is killed: the second and the kernel's own take turns. -/
theorem fair_round_robin_two : ∃ s, schedRun (taskingInit 16 fun _ => ⟨0, .sleeping, 0, 0, 0⟩)
    [.create 32 64, .create 48 80, .kill 2, .yield] = some s ∧ s.current = 48 ∧ yields 2 s = some [16, 48] := by
  obtain ⟨s, hrun, hcreated, -, -, -, hfair⟩ := fair_round_robin (show 16 ≠ 0 by decide) (fun _ => ⟨0, .sleeping, 0, 0, 0⟩)
    [.create 32 64, .create 48 80, .kill 2, .yield] (by decide)
  have hseen : (schedRun (taskingInit 16 fun _ => ⟨0, .sleeping, 0, 0, 0⟩) [.create 32 64, .create 48 80, .kill 2, .yield]).map
      (fun s => (s.current, [16, 32, 48].map s.runnable)) = some (48, [true, false, true]) := by decide
  rw [hrun, Option.map_some, Option.some_inj, Prod.mk.injEq] at hseen
  obtain ⟨hcurrent, hrunnable⟩ := hseen
  simp only [map_cons, map_nil, cons.injEq, and_true] at hrunnable
  have hround := hfair [16, 32] [] (by rw [hcreated, hcurrent]; rfl) (by rw [hcurrent]; exact hrunnable.2.2)
  rw [hcreated, hcurrent] at hround
  refine ⟨s, hrun, hcurrent, ?_⟩
  simpa [SchedCall.made, hrunnable] using hround

end PureUnix.Kernel
