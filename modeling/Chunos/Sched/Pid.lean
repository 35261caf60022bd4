import Chunos.Basic
import Chunos.Lib.Runs

/-!
# Process numbers

The map of process numbers in `kernel/sched.c`: a page of pointers to tasks. The search for a free
entry starts at a cursor, which goes forward by one with every number that is given out and never
goes back. So the entry at the cursor is always free, numbers are given out in order, and none is
given out twice. When the cursor has come to the end, no number is ever found again.
-/

namespace Chunos.Pid

open Runs Function List Option

/-- `PID_MAP_PAGE_NR`: the pages of the map. -/
def pidMapPageNr : ℤ := 1

/-- `struct pid_map`. An entry of the map is the pointer to a task, or `none` for 0. -/
structure PidMap (τ : Type*) where
  nrFree : ℤ
  current : ℤ
  nr : ℤ
  addr : ℤ → Option τ

variable {τ : Type*}

/-- `init_pid_allocater`, when there is a page for the map. -/
def initPidAllocater : PidMap τ :=
  let nr := pidMapPageNr * pageSize / 4
  { nrFree := nr, current := 0, nr := nr, addr := fun _ => none }

/-- `release_pid`, for a task with this number. -/
def releasePid (map : PidMap τ) (pid : ℤ) : PidMap τ :=
  { map with addr := update map.addr pid none }

/-- The loop of `get_new_pid`, with the number of entries left from entry `i` on. -/
def findPidLoop (addr : ℤ → Option τ) : ℕ → ℤ → Option ℤ
  | 0, _ => none
  | left + 1, i => if addr i = none then some i else findPidLoop addr left (i + 1)

/-- `get_new_pid`. -/
def getNewPid (map : PidMap τ) (t : τ) : ℤ × PidMap τ :=
  if map.nrFree = 0 then (-1, map)
  else
    match findPidLoop map.addr (map.nr - map.current).toNat map.current with
    | none => (-1, map)
    | some i =>
      (i,
        { map with
          nrFree := map.nrFree - 1
          current := map.current + 1
          addr := update map.addr i (some t) })

/-- `pid_get_task`. -/
def pidGetTask (map : PidMap τ) (pid : ℤ) : Option τ :=
  if pid < map.nr then map.addr pid else none

/-- A state of a run: the map, the field `pid` of the tasks, and the tasks that have got a number
and have not released it. -/
structure PidRun (τ : Type*) where
  map : PidMap τ
  pid : τ → ℤ
  live : List τ

/-- The calls of a run. -/
inductive PidCall (τ : Type*) where
  | get (t : τ)
  | release (t : τ)

/-- The start of a run. -/
def PidRun.boot : PidRun τ := { map := initPidAllocater, pid := fun _ => -1, live := [] }

/-- The entries of the map are the live tasks, each under its number. The entries from the cursor
on are free, and those below it whose task is not live are free as well. -/
structure PidRun.Inv (r : PidRun τ) : Prop where
  nr_eq : r.map.nr = 1024
  free_eq : r.map.nrFree = r.map.nr - r.map.current
  cursor : 0 ≤ r.map.current ∧ r.map.current ≤ r.map.nr
  free : ∀ p, r.map.current ≤ p → r.map.addr p = none
  entry : ∀ p t, r.map.addr p = some t → t ∈ r.live ∧ r.pid t = p ∧ 0 ≤ p
  live : ∀ t ∈ r.live, 0 ≤ r.pid t ∧ r.map.addr (r.pid t) = some t
  dead : ∀ t, t ∉ r.live → 0 ≤ r.pid t → r.map.addr (r.pid t) = none
  below : ∀ t, r.pid t < r.map.current
  nodup : r.live.Nodup

theorem PidRun.boot_inv : (PidRun.boot : PidRun τ).Inv where
  nr_eq := by norm_num [PidRun.boot, initPidAllocater, pidMapPageNr, pageSize]
  free_eq := rfl
  cursor := by norm_num [PidRun.boot, initPidAllocater, pidMapPageNr, pageSize]
  free := fun _ _ => rfl
  entry := by simp [PidRun.boot, initPidAllocater]
  live := by simp [PidRun.boot]
  dead := fun _ _ _ => rfl
  below := by simp [PidRun.boot, initPidAllocater]
  nodup := nodup_nil

variable {r : PidRun τ} {t : τ}

/-- `get_new_pid` gives out the number at the cursor, or fails when the cursor is at the end. -/
theorem PidRun.Inv.getNewPid (h : r.Inv) (t : τ) :
    getNewPid r.map t = if r.map.current = r.map.nr then (-1, r.map)
      else
        (r.map.current,
          { r.map with
            nrFree := r.map.nrFree - 1
            current := r.map.current + 1
            addr := update r.map.addr r.map.current (some t) }) := by
  have hfree := h.free_eq
  obtain ⟨-, hle⟩ := h.cursor
  unfold Pid.getNewPid
  by_cases hend : r.map.current = r.map.nr
  · rw [if_pos (by omega), if_pos hend]
  · obtain ⟨left, hleft⟩ : ∃ left, (r.map.nr - r.map.current).toNat = left + 1 :=
      Nat.exists_eq_succ_of_ne_zero (by omega)
    have hfind : findPidLoop r.map.addr (left + 1) r.map.current = some r.map.current := by
      rw [findPidLoop, if_pos (h.free _ le_rfl)]
    rw [if_neg (by omega), if_neg hend, hleft, hfind]

variable [DecidableEq τ]

/-- One call. The number that a new task gets is stored in the task. -/
def PidRun.step : PidCall τ → PidRun τ → Option (PidRun τ)
  | .get t, r =>
    let (pid, map) := getNewPid r.map t
    some { map := map, pid := update r.pid t pid
           live := if pid = -1 then r.live else t :: r.live }
  | .release t, r =>
    some { r with map := releasePid r.map (r.pid t), live := r.live.erase t }

/-- What the callers see to: a task that is live asks for no second number, and a task that
releases its number has got one. -/
def PidRun.Legal : PidCall τ → PidRun τ → Prop
  | .get t, r => t ∉ r.live
  | .release t, r => 0 ≤ r.pid t

instance (call : PidCall τ) (r : PidRun τ) : Decidable (r.Legal call) :=
  match call with
  | .get t => inferInstanceAs (Decidable (t ∉ r.live))
  | .release t => inferInstanceAs (Decidable (0 ≤ r.pid t))

/-- A new task gets a number. -/
theorem PidRun.Inv.get (h : r.Inv) (ht : t ∉ r.live) (hroom : r.map.current ≠ r.map.nr) :
    PidRun.Inv
      { map := { r.map with
          nrFree := r.map.nrFree - 1
          current := r.map.current + 1
          addr := update r.map.addr r.map.current (some t) }
        pid := update r.pid t r.map.current
        live := t :: r.live } := by
  obtain ⟨hnr, hfreeEq, ⟨hlo, hhi⟩, hfree, hentry, hlive, hdead, hbelow, hnodup⟩ := h
  have hne : ∀ u ∈ r.live, u ≠ t := fun u hu heq => ht (heq ▸ hu)
  constructor
  · exact hnr
  · simp only
    omega
  · simp only
    omega
  · intro p hp
    simp only at hp ⊢
    rw [update_of_ne (by omega)]
    exact hfree p (by omega)
  · intro p u hpu
    simp only at hpu ⊢
    by_cases hp : p = r.map.current
    · subst hp
      rw [update_self] at hpu
      obtain rfl := some.inj hpu
      simp [hlo]
    · rw [update_of_ne hp] at hpu
      obtain ⟨hmem, hpid, hpos⟩ := hentry p u hpu
      rw [update_of_ne (hne u hmem)]
      exact ⟨mem_cons_of_mem t hmem, hpid, hpos⟩
  · intro u hu
    simp only
    rcases mem_cons.mp hu with rfl | hu
    · simp [hlo]
    · obtain ⟨hpos, haddr⟩ := hlive u hu
      have hcur : r.pid u ≠ r.map.current := (hbelow u).ne
      rw [update_of_ne (hne u hu), update_of_ne hcur]
      exact ⟨hpos, haddr⟩
  · intro u hu hpos
    simp only [mem_cons, not_or] at hu hpos ⊢
    rw [update_of_ne hu.1] at hpos ⊢
    rw [update_of_ne (hbelow u).ne]
    exact hdead u hu.2 hpos
  · intro u
    simp only
    by_cases hu : u = t
    · subst hu
      rw [update_self]
      omega
    · rw [update_of_ne hu]
      exact (hbelow u).trans (by omega)
  · exact nodup_cons.mpr ⟨ht, hnodup⟩

/-- A task releases its number. -/
theorem PidRun.Inv.release (h : r.Inv) (ht : 0 ≤ r.pid t) :
    PidRun.Inv { r with map := releasePid r.map (r.pid t), live := r.live.erase t } := by
  obtain ⟨hnr, hfreeEq, hcursor, hfree, hentry, hlive, hdead, hbelow, hnodup⟩ := h
  have herase : ∀ u, u ∈ r.live.erase t ↔ u ≠ t ∧ u ∈ r.live := fun u => hnodup.mem_erase_iff
  -- The entry is that of the task itself, or it is free already.
  have hother : ∀ u ∈ r.live, u ≠ t → r.pid u ≠ r.pid t := by
    intro u hu hut heq
    have haddr := (hlive u hu).2
    rw [heq] at haddr
    by_cases hlt : t ∈ r.live
    · rw [(hlive t hlt).2] at haddr
      exact hut (some.inj haddr).symm
    · rw [hdead t hlt ht] at haddr
      exact some_ne_none _ haddr.symm
  constructor
  · exact hnr
  · exact hfreeEq
  · exact hcursor
  · intro p hp
    simp only [releasePid, update_apply]
    split_ifs
    · rfl
    · exact hfree p hp
  · intro p u hpu
    simp only [releasePid, update_apply] at hpu ⊢
    split_ifs at hpu with hp
    obtain ⟨hmem, hpid, hpos⟩ := hentry p u hpu
    refine ⟨(herase u).mpr ⟨?_, hmem⟩, hpid, hpos⟩
    rintro rfl
    exact hp hpid.symm
  · intro u hu
    obtain ⟨hut, hmem⟩ := (herase u).mp hu
    simp only [releasePid, update_of_ne (hother u hmem hut)]
    exact hlive u hmem
  · intro u hu hpos
    simp only [releasePid, update_apply]
    split_ifs with heq
    · rfl
    · apply hdead u _ hpos
      intro hmem
      rw [herase] at hu
      exact hu ⟨fun hut => heq (congrArg r.pid hut), hmem⟩
  · exact hbelow
  · exact hnodup.erase t

/-- A new task gets no number. -/
theorem PidRun.Inv.fail (h : r.Inv) (ht : t ∉ r.live) :
    PidRun.Inv { r with pid := update r.pid t (-1) } := by
  have hne : ∀ u ∈ r.live, u ≠ t := fun u hu heq => ht (heq ▸ hu)
  constructor
  · exact h.nr_eq
  · exact h.free_eq
  · exact h.cursor
  · exact h.free
  · intro p u hpu
    obtain ⟨hmem, hpid, hpos⟩ := h.entry p u hpu
    simp only [update_of_ne (hne u hmem)]
    exact ⟨hmem, hpid, hpos⟩
  · intro u hu
    simp only [update_of_ne (hne u hu)]
    exact h.live u hu
  · intro u hu hpos
    by_cases hut : u = t
    · subst hut
      simp at hpos
    · simp only [update_of_ne hut] at hpos ⊢
      exact h.dead u hu hpos
  · intro u
    by_cases hut : u = t
    · subst hut
      simp only [update_self]
      have := h.cursor
      omega
    · simp only [update_of_ne hut]
      exact h.below u
  · exact h.nodup

theorem PidRun.Inv.step_get (h : r.Inv) (ht : t ∉ r.live) :
    ∃ r', PidRun.step (.get t) r = some r' ∧ r'.Inv ∧
      (r.map.current = r.map.nr ∧ r'.map = r.map ∧ r'.live = r.live ∨
        r.map.current ≠ r.map.nr ∧ r'.map.current = r.map.current + 1 ∧ r'.live = t :: r.live) := by
  simp only [PidRun.step, h.getNewPid t]
  by_cases hend : r.map.current = r.map.nr
  · simp only [if_pos hend]
    exact ⟨_, rfl, h.fail ht, Or.inl ⟨hend, rfl, rfl⟩⟩
  · have hcur : r.map.current ≠ -1 := by
      have := h.cursor
      omega
    simp only [if_neg hend, if_neg hcur]
    exact ⟨_, rfl, h.get ht hend, Or.inr ⟨hend, rfl, rfl⟩⟩

theorem PidRun.Inv.step (h : r.Inv) {call : PidCall τ} (hlegal : r.Legal call) :
    ∃ r', PidRun.step call r = some r' ∧ r'.Inv := by
  cases call with
  | get t =>
    obtain ⟨r', hstep, hinv, -⟩ := h.step_get hlegal
    exact ⟨r', hstep, hinv⟩
  | release t => exact ⟨_, rfl, h.release hlegal⟩

theorem PidRun.exists_run {calls : List (PidCall τ)}
    (hlegal : Meets PidRun.step (fun call r => r.Legal call) calls PidRun.boot) :
    ∃ r, run PidRun.step calls PidRun.boot = some r ∧ r.Inv :=
  exists_run_of_meets (fun _ _ h hcall => h.step hcall) PidRun.boot_inv hlegal

/-- After every run of calls, live tasks have different process numbers in the range of the map,
and `pid_get_task` finds the live task that has a number, or none. -/
theorem pid_runs_distinct (calls : List (PidCall τ))
    (hlegal : Meets PidRun.step (fun call r => r.Legal call) calls PidRun.boot) :
    ∃ r, run PidRun.step calls PidRun.boot = some r ∧
      (∀ t ∈ r.live, 0 ≤ r.pid t ∧ r.pid t < r.map.nr) ∧
      (∀ t ∈ r.live, ∀ u ∈ r.live, r.pid t = r.pid u → t = u) ∧
      ∀ p, 0 ≤ p → p < r.map.nr → ∀ t, pidGetTask r.map p = some t ↔ t ∈ r.live ∧ r.pid t = p := by
  obtain ⟨r, hrun, h⟩ := PidRun.exists_run hlegal
  refine ⟨r, hrun, ?_, ?_, ?_⟩
  · intro t ht
    exact ⟨(h.live t ht).1, (h.below t).trans_le h.cursor.2⟩
  · intro t ht u hu heq
    have haddr := (h.live t ht).2
    rw [heq, (h.live u hu).2] at haddr
    exact (some.inj haddr).symm
  · intro p hpos hlt t
    rw [pidGetTask, if_pos hlt]
    constructor
    · intro haddr
      obtain ⟨hmem, hpid, -⟩ := h.entry p t haddr
      exact ⟨hmem, hpid⟩
    · rintro ⟨hmem, rfl⟩
      exact (h.live t hmem).2

/-- Three tasks, of which one releases its number and another one gets a new one. -/
def threeTaskCalls : List (PidCall ℕ) :=
  [.get 5, .get 6, .release 5, .get 7, .get 5, .release 6]

/-- The calls are legal, and the numbers are different after them. -/
theorem pid_runs_distinct_threeTasks :
    Meets PidRun.step (fun call r => r.Legal call) threeTaskCalls PidRun.boot ∧
      ∃ r, run PidRun.step threeTaskCalls PidRun.boot = some r ∧
        (∀ t ∈ r.live, 0 ≤ r.pid t ∧ r.pid t < r.map.nr) ∧
        (∀ t ∈ r.live, ∀ u ∈ r.live, r.pid t = r.pid u → t = u) ∧
        ∀ p, 0 ≤ p → p < r.map.nr →
          ∀ t, pidGetTask r.map p = some t ↔ t ∈ r.live ∧ r.pid t = p := by
  have hlegal : Meets PidRun.step (fun call r => r.Legal call) threeTaskCalls PidRun.boot := by
    decide +kernel
  exact ⟨hlegal, pid_runs_distinct threeTaskCalls hlegal⟩

/-- After every run, `get_new_pid` fails only with as many live tasks as there are numbers exactly
if numbers are left behind the cursor, which counts all numbers ever given out, or as many tasks
are live. -/
theorem getNewPid_fails_full_iff (calls : List (PidCall τ))
    (hlegal : Meets PidRun.step (fun call r => r.Legal call) calls PidRun.boot) :
    ∃ r, run PidRun.step calls PidRun.boot = some r ∧
      ∀ t, ((getNewPid r.map t).1 = -1 → (r.live.length : ℤ) = r.map.nr) ↔
        (r.map.current < r.map.nr ∨ (r.live.length : ℤ) = r.map.nr) := by
  obtain ⟨r, hrun, h⟩ := PidRun.exists_run hlegal
  refine ⟨r, hrun, fun t => ?_⟩
  obtain ⟨hlo, hhi⟩ := h.cursor
  rw [h.getNewPid t]
  by_cases hend : r.map.current = r.map.nr
  · simp [hend]
  · have hcur : r.map.current ≠ -1 := by omega
    simp only [if_neg hend, hcur, false_implies, true_iff]
    exact Or.inl (by omega)

/-- The same three tasks find a number. -/
theorem getNewPid_fails_full_iff_threeTasks :
    Meets PidRun.step (fun call r => r.Legal call) threeTaskCalls PidRun.boot ∧
      ∃ r, run PidRun.step threeTaskCalls PidRun.boot = some r ∧
        ∀ t, ((getNewPid r.map t).1 = -1 → (r.live.length : ℤ) = r.map.nr) ↔
          (r.map.current < r.map.nr ∨ (r.live.length : ℤ) = r.map.nr) := by
  have hlegal : Meets PidRun.step (fun call r => r.Legal call) threeTaskCalls PidRun.boot := by
    decide +kernel
  exact ⟨hlegal, getNewPid_fails_full_iff threeTaskCalls hlegal⟩

/-- A task is created and exits, again and again. -/
def cycles (t : τ) : ℕ → List (PidCall τ)
  | 0 => []
  | n + 1 => .get t :: .release t :: cycles t n

/-- Every cycle takes the cursor one entry forward. -/
theorem run_cycles (h : r.Inv) (hlive : r.live = []) (t : τ) (n : ℕ)
    (hroom : r.map.current + n ≤ r.map.nr) :
    ∃ r', run PidRun.step (cycles t n) r = some r' ∧
      Meets PidRun.step (fun call r => r.Legal call) (cycles t n) r ∧ r'.Inv ∧ r'.live = [] ∧
      r'.map.current = r.map.current + n := by
  induction n generalizing r with
  | zero => exact ⟨r, rfl, trivial, h, hlive, by simp⟩
  | succ n ih =>
    push_cast at hroom
    have hnew : t ∉ r.live := by simp [hlive]
    obtain ⟨r₁, hget, h₁, ⟨hend, -⟩ | ⟨-, hcur, hlive₁⟩⟩ := h.step_get hnew
    · omega
    · have hpid : 0 ≤ r₁.pid t := (h₁.live t (by simp [hlive₁])).1
      have h₂ := h₁.release hpid
      have hnr : r₁.map.nr = r.map.nr := h₁.nr_eq.trans h.nr_eq.symm
      have hnil : r₁.live.erase t = [] := by
        rw [hlive₁, hlive]
        simp
      obtain ⟨r', hrun, hmeets, h', hlive', hcur'⟩ := ih h₂ hnil (by
        simp only [releasePid]
        omega)
      refine ⟨r', ?_, ⟨hnew, fun r₂ hr₂ => ?_⟩, h', hlive', ?_⟩
      · exact run_cons_eq_some.mpr ⟨r₁, hget, run_cons_eq_some.mpr ⟨_, rfl, hrun⟩⟩
      · obtain rfl := some.inj (hget.symm.trans hr₂)
        refine ⟨hpid, fun r₃ hr₃ => ?_⟩
        obtain rfl := some.inj hr₃
        exact hmeets
      · simp only [releasePid] at hcur'
        push_cast
        omega

/-- After 1024 tasks have come and gone, no new task gets a number, although none is live. -/
theorem getNewPid_exhausted :
    Meets PidRun.step (fun call r => r.Legal call) (cycles 7 1024) PidRun.boot ∧
      ∃ r, run PidRun.step (cycles 7 1024) PidRun.boot = some r ∧ r.live = [] ∧ r.map.nr = 1024 ∧
        (getNewPid r.map 7).1 = -1 := by
  have hboot : (PidRun.boot : PidRun ℕ).Inv := PidRun.boot_inv
  obtain ⟨r, hrun, hmeets, h, hlive, hcur⟩ := run_cycles hboot rfl 7 1024 (by
    norm_num [PidRun.boot, initPidAllocater, pidMapPageNr, pageSize])
  have hend : r.map.current = r.map.nr := by
    rw [hcur, h.nr_eq]
    norm_num [PidRun.boot, initPidAllocater]
  refine ⟨hmeets, r, hrun, hlive, h.nr_eq, ?_⟩
  rw [h.getNewPid, if_pos hend]

end Chunos.Pid
