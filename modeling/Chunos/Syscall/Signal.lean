import Chunos.Basic
import Chunos.Lib.Chains
import Chunos.Lib.Runs

/-!
# The signal queue of a task

The functions of `syscall/sys_signal.c` for one task. `sys_kill` appends an action to the
queue that starts at `pending`, `signal_handler` passes the first action to `os_do_signal`
and `sys_sigreturn` frees it. A call that reads or writes an action that has been freed, that
follows a null pointer or leaves the table of handlers, has no result here.
-/

namespace Chunos.Signal

open Chains Runs Function List Option

/-- `sys/sig.h`, `MAX_SIGNAL`: the number of signals. -/
def maxSignal : ℤ := 64

/-- `sys/sig.h`, `SIG_DFL`: ask for the default handling. -/
def sigDfl : ℕ := 0

/-- `sys/sig.h`, `SIG_IGN`: ask to ignore the signal. -/
def sigIgn : ℕ := 1

/-- `SIG_HANDLER_IGN`: the signal is ignored. -/
def sigHandlerIgn : BitVec 32 := 1

/-- `SIG_HANDLER_DFL`: the signal is handled in the default way. -/
def sigHandlerDfl : BitVec 32 := 2

/-- `struct signal_action`: a signal in the queue. A pointer is an address or null. -/
structure SignalAction where
  action : ℤ
  arg : Option ℕ
  next : Option ℕ
deriving DecidableEq

/-- `struct signal_entry`: how a signal is handled. -/
structure SignalEntry where
  handler : ℕ
  flag : BitVec 32
deriving DecidableEq

/-- `struct signal_struct` of a task, the actions that are allocated, and whether the task
has been killed by the default handling of a signal. -/
structure Signals where
  pending : Option ℕ
  plast : Option ℕ
  signalTable : ℤ → SignalEntry
  signalPending : BitVec 16
  inSignal : BitVec 16
  memory : ℕ → Option SignalAction
  killed : Bool

/-- `init_signal_struct`. -/
def initSignalStruct : Signals :=
  { pending := none, plast := none
    signalTable := fun _ => { handler := 0, flag := 0 ||| sigHandlerDfl }
    signalPending := 0, inSignal := 0, memory := fun _ => none, killed := false }

/-- `signal_handler`: the returned value, what is passed to `os_do_signal`, and the state. -/
def signalHandler (s : Signals) : Option (ℤ × Option (ℕ × Option ℕ) × Signals) :=
  if s.inSignal ≠ 0 then some (0, none, s)
  else if s.signalPending ≠ 0 then
    match s.pending with
    | none => some (0, none, { s with signalPending := 0, plast := none })
    | some address =>
      (s.memory address).map fun action =>
        let entry := s.signalTable action.action
        if entry.handler = 0 then (0, none, s)
        else (1, some (entry.handler, action.arg), { s with inSignal := 1 })
  else some (0, none, s)

/-- `sys_signal`: the former handler and the state. Only a number that is too large is
refused. -/
def sysSignal (s : Signals) (signum : ℤ) (handler : ℕ) : Option (ℕ × Signals) :=
  if maxSignal ≤ signum then some (0, s)
  else if signum < 0 then none
  else
    let entry := s.signalTable signum
    let new : SignalEntry :=
      if handler = sigDfl then
        { entry with flag := (entry.flag ||| sigHandlerDfl) &&& ~~~sigHandlerIgn }
      else if handler = sigIgn then
        { entry with flag := (entry.flag ||| sigHandlerIgn) &&& ~~~sigHandlerDfl }
      else
        { handler := handler, flag := (entry.flag &&& ~~~sigHandlerDfl) &&& ~~~sigHandlerIgn }
    some (entry.handler, { s with signalTable := update s.signalTable signum new })

/-- `sys_sigreturn`. -/
def sysSigreturn (s : Signals) : Option Signals :=
  s.pending.bind fun now =>
    (s.memory now).map fun action =>
      { s with
        inSignal := 0
        pending := action.next
        signalPending := s.signalPending - 1
        memory := update s.memory now none }

/-- `do_default_signal_handler`: `SIGABRT`, `SIGKILL`, `SIGQUIT` and `SIGSTOP` kill the
task. -/
def doDefaultSignalHandler (s : Signals) (sig : ℤ) : Signals :=
  if sig = 6 ∨ sig = 9 ∨ sig = 3 ∨ sig = 19 then { s with killed := true } else s

/-- `signal->plast->next = action`, when there is a last action. -/
def linkLast (memory : ℕ → Option SignalAction) (plast : Option ℕ) (address : ℕ) :
    Option (ℕ → Option SignalAction) :=
  match plast with
  | none => some memory
  | some last =>
    (memory last).map fun action =>
      update memory last (some { action with next := some address })

/-- The part of `sys_kill` that appends the new action, at this address, to the queue. -/
def appendAction (s : Signals) (sig : ℤ) (address : ℕ) : Option Signals :=
  let memory := update s.memory address
    (some { action := sig, arg := none, next := none })
  (linkLast memory s.plast address).map fun memory =>
    { s with
      memory := memory
      pending := if s.pending = none then some address else s.pending
      plast := some address
      signalPending := s.signalPending + 1 }

/-- `sys_kill`: the returned value and the state. `found` says whether `pid_get_task` finds
the task, and `address` is the result of `kmalloc`. -/
def sysKill (s : Signals) (pid sig : ℤ) (found : Bool) (address : Option ℕ) :
    Option (ℤ × Signals) :=
  if pid < 0 ∨ maxSignal ≤ sig then some (-einval, s)
  else if found = false then some (-esrch, s)
  else if sig < 0 then none
  else
    let entry := s.signalTable sig
    if entry.flag &&& sigHandlerIgn ≠ 0 then some (0, s)
    else if entry.flag &&& sigHandlerDfl ≠ 0 then some (0, doDefaultSignalHandler s sig)
    else
      match address with
      | none => some (-enomem, s)
      | some address => (appendAction s sig address).map fun s => (0, s)

/-- The calls of a run. -/
inductive SignalCall where
  | kill (pid sig : ℤ) (found : Bool) (address : Option ℕ)
  | signal (signum : ℤ) (handler : ℕ)
  | handler
  | sigreturn

/-- One call. -/
def Signals.step : SignalCall → Signals → Option Signals
  | .kill pid sig found address, s => (sysKill s pid sig found address).map Prod.snd
  | .signal signum handler, s => (sysSignal s signum handler).map Prod.snd
  | .handler, s => (signalHandler s).map fun res => res.2.2
  | .sigreturn, s => sysSigreturn s

/-- A user handler is installed for the signal: it is neither ignored nor handled in the
default way. -/
def Signals.Installed (s : Signals) (sig : ℤ) : Prop :=
  0 ≤ sig ∧ sig < maxSignal ∧ (s.signalTable sig).flag &&& sigHandlerIgn = 0 ∧
    (s.signalTable sig).flag &&& sigHandlerDfl = 0

instance (s : Signals) (sig : ℤ) : Decidable (s.Installed sig) :=
  inferInstanceAs (Decidable (_ ∧ _ ∧ _ ∧ _))

/-- The address of the action that a call appends to the queue. -/
def SignalCall.appends : SignalCall → Signals → Option ℕ
  | .kill pid sig found address, s =>
    if 0 ≤ pid ∧ found = true ∧ s.Installed sig then address else none
  | _, _ => none

/-- What holds for every call: an address from `kmalloc` is not in use. -/
def SignalCall.Fresh (call : SignalCall) (s : Signals) : Prop :=
  ∀ address ∈ call.appends s, s.memory address = none

instance (call : SignalCall) (s : Signals) : Decidable (call.Fresh s) :=
  inferInstanceAs (Decidable (∀ address ∈ _, _))

/-- The numbers of signals are not negative. -/
def SignalCall.Numbered : SignalCall → Prop
  | .kill _ sig _ _ => 0 ≤ sig
  | .signal signum _ => 0 ≤ signum
  | _ => True

instance (call : SignalCall) : Decidable call.Numbered :=
  match call with
  | .kill .. | .signal .. => inferInstanceAs (Decidable (0 ≤ _))
  | .handler | .sigreturn => .isTrue trivial

/-- The links of the actions. -/
def Signals.links (s : Signals) : ℕ → Option (Option ℕ) := Option.map SignalAction.next ∘ s.memory

/-- The queue consists of the actions at these addresses: the links lead through them from
`pending` on, and `signal_pending` is their number. -/
structure Queued (s : Signals) (queue : List ℕ) : Prop where
  chain : Chain s.links s.pending queue
  count : s.signalPending.toNat = queue.length

/-- Also, `plast` is the last action of the queue, or null. -/
structure QueueOk (s : Signals) (queue : List ℕ) : Prop extends Queued s queue where
  last : s.plast = queue.getLast?

variable {s s' : Signals} {queue : List ℕ}

/-- `sys_kill` either appends an action or leaves the queue, for a number that is not
negative. -/
theorem sysKill_cases (pid : ℤ) {sig : ℤ} (hsig : 0 ≤ sig) (found : Bool) (address : Option ℕ) :
    (∃ a, (SignalCall.kill pid sig found address).appends s = some a ∧
      sysKill s pid sig found address = (appendAction s sig a).map fun s => (0, s)) ∨
    (SignalCall.kill pid sig found address).appends s = none ∧
      ∃ ret killed, sysKill s pid sig found address = some (ret, { s with killed := killed }) := by
  unfold sysKill
  by_cases hpid : pid < 0 ∨ maxSignal ≤ sig
  · right
    rw [if_pos hpid]
    refine ⟨if_neg ?_, -einval, s.killed, rfl⟩
    rintro ⟨hpos, -, -, hlt, -⟩
    omega
  rw [if_neg hpid]
  push Not at hpid
  by_cases hfound : found = false
  · right
    rw [if_pos hfound]
    exact ⟨if_neg (by simp [hfound]), -esrch, s.killed, rfl⟩
  rw [if_neg hfound, if_neg (by omega)]
  simp only
  by_cases hign : (s.signalTable sig).flag &&& sigHandlerIgn = 0
  · rw [if_neg (not_not.mpr hign)]
    by_cases hdfl : (s.signalTable sig).flag &&& sigHandlerDfl = 0
    · rw [if_neg (not_not.mpr hdfl)]
      have happends : (SignalCall.kill pid sig found address).appends s = address :=
        if_pos ⟨hpid.1, by simpa using hfound, hsig, hpid.2, hign, hdfl⟩
      cases address with
      | none => exact Or.inr ⟨happends, -enomem, s.killed, rfl⟩
      | some a => exact Or.inl ⟨a, happends, rfl⟩
    · right
      rw [if_pos hdfl]
      refine ⟨if_neg fun h => hdfl h.2.2.2.2.2, 0, (doDefaultSignalHandler s sig).killed, ?_⟩
      unfold doDefaultSignalHandler
      split_ifs
      · rfl
      · rfl
  · right
    rw [if_pos hign]
    exact ⟨if_neg fun h => hign h.2.2.2.2.1, 0, s.killed, rfl⟩

/-- A signal without a handler is ignored or handled in the default way. -/
def Handled (table : ℤ → SignalEntry) : Prop :=
  ∀ sig, (table sig).handler = 0 →
    (table sig).flag &&& sigHandlerIgn ≠ 0 ∨ (table sig).flag &&& sigHandlerDfl ≠ 0

theorem flag_dfl (flag : BitVec 32) :
    ((flag ||| sigHandlerDfl) &&& ~~~sigHandlerIgn) &&& sigHandlerDfl ≠ 0 := by
  intro h
  have hbit := congrArg (fun word : BitVec 32 => word.getLsbD 1) h
  simp [sigHandlerDfl, sigHandlerIgn] at hbit

theorem flag_ign (flag : BitVec 32) :
    ((flag ||| sigHandlerIgn) &&& ~~~sigHandlerDfl) &&& sigHandlerIgn ≠ 0 := by
  intro h
  have hbit := congrArg (fun word : BitVec 32 => word.getLsbD 0) h
  simp [sigHandlerDfl, sigHandlerIgn] at hbit

/-- `sys_signal` only changes the table, for a number that is not negative. It takes away no
handler. -/
theorem sysSignal_eq {signum : ℤ} (hsignum : 0 ≤ signum) (handler : ℕ) :
    ∃ old table, sysSignal s signum handler = some (old, { s with signalTable := table }) ∧
      (∀ sig, (s.signalTable sig).handler ≠ 0 → (table sig).handler ≠ 0) ∧
      (Handled s.signalTable → Handled table) := by
  unfold sysSignal
  by_cases hlarge : maxSignal ≤ signum
  · exact ⟨0, s.signalTable, if_pos hlarge, fun _ h => h, id⟩
  rw [if_neg hlarge, if_neg (by omega)]
  refine ⟨_, _, rfl, fun sig hsig => ?_, fun hhandled sig => ?_⟩
  · by_cases heq : sig = signum
    · subst heq
      rw [update_self]
      split_ifs with hdfl
      · exact hsig
      · exact hsig
      · exact hdfl
    · rwa [update_of_ne heq]
  · by_cases heq : sig = signum
    · subst heq
      rw [update_self]
      split_ifs with hdfl
      · exact fun _ => Or.inr (flag_dfl _)
      · exact fun _ => Or.inl (flag_ign _)
      · exact fun hzero => absurd hzero hdfl
    · rw [update_of_ne heq]
      exact hhandled sig

theorem links_update (memory : ℕ → Option SignalAction) (a : ℕ) (action : SignalAction) :
    Option.map SignalAction.next ∘ update memory a (some action) =
      update (Option.map SignalAction.next ∘ memory) a (some action.next) := by
  rw [comp_update]
  rfl

variable {a : ℕ}

/-- A new action is appended to a queue. -/
theorem QueueOk.linkLast (h : QueueOk s queue) (ha : s.memory a = none) (sig : ℤ) :
    ∃ memory, linkLast (update s.memory a
        (some { action := sig, arg := none, next := none })) s.plast a = some memory ∧
      Chain (Option.map SignalAction.next ∘ memory)
        (if s.pending = none then some a else s.pending) (queue ++ [a]) := by
  have hnew : s.links a = none := by simp [Signals.links, ha]
  rcases eq_nil_or_concat queue with rfl | ⟨before, last, rfl⟩
  · have hpending : s.pending = none := h.chain
    have hplast : s.plast = none := h.last
    rw [hplast, if_pos hpending]
    refine ⟨_, rfl, ?_⟩
    rw [links_update]
    exact ⟨rfl, none, by simp, rfl⟩
  · rw [concat_eq_append] at h ⊢
    have hplast : s.plast = some last := by simpa using h.last
    obtain ⟨link, hlink⟩ := h.chain.exists_of_mem (a := last) (by simp)
    obtain ⟨action, haction, -⟩ := map_eq_some_iff.mp hlink
    have hne : last ≠ a := by
      rintro rfl
      simp [ha] at haction
    have hstart : s.pending ≠ none := by
      cases before with
      | nil => simp [h.chain.1]
      | cons b before => simp [h.chain.1]
    simp only [Signal.linkLast, hplast, update_of_ne hne, haction, map_some,
      some.injEq, exists_eq_left']
    rw [if_neg hstart, links_update, links_update]
    exact h.chain.concat hnew

theorem count_succ {n : ℕ} (hcount : s.signalPending.toNat = n) :
    (s.signalPending + 1).toNat = n + 1 ↔ n < 65535 := by
  have hlt := s.signalPending.isLt
  have hone : (1 : BitVec 16).toNat = 1 := rfl
  rw [BitVec.toNat_add, hcount, hone]
  omega

/-- What `sys_sigreturn` does with a queue. -/
theorem Queued.sysSigreturn {rest : List ℕ} (h : Queued s (a :: rest)) :
    ∃ link, sysSigreturn s = some { s with
        inSignal := 0
        pending := link
        signalPending := s.signalPending - 1
        memory := update s.memory a none } ∧
      Chain (Option.map SignalAction.next ∘ update s.memory a none) link rest ∧
      (s.signalPending - 1).toNat = rest.length := by
  obtain ⟨link, hlink, hrest⟩ := h.chain.remove
  obtain ⟨action, haction, rfl⟩ := map_eq_some_iff.mp hlink
  refine ⟨action.next, ?_, ?_, ?_⟩
  · simp only [Signal.sysSigreturn, h.chain.1, bind_some, haction, map_some]
  · rw [comp_update]
    exact hrest
  · have hcount := h.count
    have hlt := s.signalPending.isLt
    have hone : (1 : BitVec 16).toNat = 1 := rfl
    rw [length_cons] at hcount
    rw [BitVec.toNat_sub, hcount, hone]
    omega

/-- `signal_handler` when no handler is running and the first action is at `a`. -/
theorem signalHandler_first (hin : s.inSignal = 0) (hcount : s.signalPending ≠ 0)
    {action : SignalAction} (hpending : s.pending = some a) (haction : s.memory a = some action) :
    signalHandler s = some (
      if (s.signalTable action.action).handler = 0 then (0, none, s)
      else (1, some ((s.signalTable action.action).handler, action.arg),
        { s with inSignal := 1 })) := by
  rw [signalHandler, if_neg (not_not.mpr hin), if_pos hcount]
  simp only [hpending, haction, map_some]

/-- `signal_handler` completes and leaves the queue. -/
theorem Queued.signalHandler (h : Queued s queue) :
    ∃ ret passed s', signalHandler s = some (ret, passed, s') ∧
      ∃ n, s' = { s with inSignal := n } := by
  by_cases hin : s.inSignal = 0
  · by_cases hcount : s.signalPending = 0
    · refine ⟨0, none, s, ?_, s.inSignal, rfl⟩
      rw [Signal.signalHandler, if_neg (not_not.mpr hin), if_neg (not_not.mpr hcount)]
    · cases queue with
      | nil =>
        have hzero : s.signalPending = 0 := BitVec.eq_of_toNat_eq (by simpa using h.count)
        exact absurd hzero hcount
      | cons a rest =>
        obtain ⟨hpending, link, hlink, -⟩ := h.chain
        obtain ⟨action, haction, -⟩ := map_eq_some_iff.mp hlink
        rw [signalHandler_first hin hcount hpending haction]
        split_ifs
        · exact ⟨0, none, s, rfl, s.inSignal, rfl⟩
        · exact ⟨_, _, _, rfl, 1, rfl⟩
  · refine ⟨0, none, s, ?_, s.inSignal, rfl⟩
    rw [Signal.signalHandler, if_pos hin]

/-- The condition under which a call keeps the queue: `sys_sigreturn` does not empty it, and
the count does not overflow. -/
def SignalCall.KeepsQueue : SignalCall → Signals → Prop
  | .sigreturn, s => 2 ≤ s.signalPending.toNat
  | call, s => call.appends s ≠ none → s.signalPending.toNat < 65535

instance (call : SignalCall) (s : Signals) : Decidable (call.KeepsQueue s) :=
  match call with
  | .sigreturn => inferInstanceAs (Decidable (2 ≤ s.signalPending.toNat))
  | .kill _ _ _ _ | .signal _ _ | .handler => inferInstanceAs (Decidable (_ → _))

/-- A call keeps the queue iff it meets the condition. -/
theorem QueueOk.step_iff (h : QueueOk s queue) {call : SignalCall} (hnumber : call.Numbered)
    (hfresh : call.Fresh s) :
    (∃ s', Signals.step call s = some s' ∧ ∃ queue', QueueOk s' queue') ↔ call.KeepsQueue s := by
  cases call with
  | kill pid sig found address =>
    rcases sysKill_cases (s := s) pid hnumber found address with
      ⟨a, happends, hkill⟩ | ⟨happends, ret, killed, hkill⟩
    · obtain ⟨memory, hlink, hchain⟩ := h.linkLast (hfresh a happends) sig
      have hlength : (queue ++ [a]).length = queue.length + 1 := by simp
      simp only [Signals.step, hkill, appendAction, hlink, map_some, some.injEq,
        SignalCall.KeepsQueue, happends, ne_eq, reduceCtorEq, not_false_eq_true, true_implies,
        exists_eq_left', h.count]
      rw [← count_succ h.count]
      constructor
      · rintro ⟨queue', hqueue'⟩
        rw [hqueue'.count, ← hlength, hqueue'.chain.unique hchain]
      · intro hcount
        exact ⟨queue ++ [a], ⟨hchain, hcount.trans hlength.symm⟩, by simp⟩
    · simp only [Signals.step, hkill, map_some, some.injEq, SignalCall.KeepsQueue,
        happends, ne_eq, not_true_eq_false, false_implies, exists_eq_left', iff_true]
      exact ⟨queue, ⟨h.chain, h.count⟩, h.last⟩
  | signal signum handler =>
    obtain ⟨old, table, hsignal, -⟩ := sysSignal_eq (s := s) hnumber handler
    simp only [Signals.step, hsignal, map_some, some.injEq, SignalCall.KeepsQueue,
      SignalCall.appends, ne_eq, not_true_eq_false, false_implies, exists_eq_left', iff_true]
    exact ⟨queue, ⟨h.chain, h.count⟩, h.last⟩
  | handler =>
    obtain ⟨ret, passed, s', hhandler, n, rfl⟩ := h.toQueued.signalHandler
    simp only [Signals.step, hhandler, map_some, some.injEq, SignalCall.KeepsQueue,
      SignalCall.appends, ne_eq, not_true_eq_false, false_implies, exists_eq_left', iff_true]
    exact ⟨queue, ⟨h.chain, h.count⟩, h.last⟩
  | sigreturn =>
    simp only [Signals.step, SignalCall.KeepsQueue, h.count]
    cases queue with
    | nil =>
      have hpending : s.pending = none := h.chain
      simp [Signal.sysSigreturn, hpending]
    | cons a rest =>
      obtain ⟨link, hreturn, hchain, hcount⟩ := h.toQueued.sysSigreturn
      simp only [hreturn, some.injEq, exists_eq_left', length_cons]
      constructor
      · rintro ⟨queue', hqueue'⟩
        have hlast : s.plast = queue'.getLast? := hqueue'.last
        -- The last pointer stays, so the queue is not empty.
        rw [← hchain.unique hqueue'.chain, h.last] at hlast
        cases rest with
        | nil => simp at hlast
        | cons b rest => simp
      · intro hlength
        refine ⟨rest, ⟨hchain, hcount⟩, ?_⟩
        cases rest with
        | nil => simp at hlength
        | cons b rest =>
          have hlast := h.last
          rwa [getLast?_cons_cons] at hlast

theorem initSignalStruct_ok : QueueOk initSignalStruct [] := ⟨⟨rfl, rfl⟩, rfl⟩

/-- In every run whose calls meet the condition, each call completes, and after it the queue
is as its three fields say. The next call completes and keeps that iff it meets the
condition. -/
theorem signal_queue_runs (calls : List SignalCall)
    (hmeets : Meets Signals.step (fun call s => call.Numbered ∧ call.Fresh s ∧ call.KeepsQueue s)
      calls initSignalStruct) :
    ∃ s queue, run Signals.step calls initSignalStruct = some s ∧ QueueOk s queue ∧
      ∀ call : SignalCall, call.Numbered → call.Fresh s →
        ((∃ s', Signals.step call s = some s' ∧ ∃ queue', QueueOk s' queue') ↔
          call.KeepsQueue s) := by
  obtain ⟨s, hrun, queue, hqueue⟩ := exists_run_of_meets (I := fun s => ∃ queue, QueueOk s queue)
    (fun call s hs hcall => by
      obtain ⟨queue, hqueue⟩ := hs
      exact (hqueue.step_iff hcall.1 hcall.2.1).mpr hcall.2.2)
    ⟨[], initSignalStruct_ok⟩ hmeets
  exact ⟨s, queue, hrun, hqueue, fun call hnumber hfresh => hqueue.step_iff hnumber hfresh⟩

/-- A handler is installed, three signals are queued, and the first one is handled. -/
def threeSignals : List SignalCall :=
  [.signal 10 100, .kill 1 10 true (some 4), .kill 1 10 true (some 8), .handler,
    .kill 1 10 true (some 12), .sigreturn]

/-- The calls meet the condition, and the queue is right after them. -/
theorem signal_queue_runs_threeSignals :
    Meets Signals.step (fun call s => call.Numbered ∧ call.Fresh s ∧ call.KeepsQueue s)
      threeSignals initSignalStruct ∧
    ∃ s queue, run Signals.step threeSignals initSignalStruct = some s ∧ QueueOk s queue := by
  have hmeets : Meets Signals.step
      (fun call s => call.Numbered ∧ call.Fresh s ∧ call.KeepsQueue s)
      threeSignals initSignalStruct := by
    decide +kernel
  obtain ⟨s, queue, hrun, hqueue, -⟩ := signal_queue_runs threeSignals hmeets
  exact ⟨hmeets, s, queue, hrun, hqueue⟩

/-- After the only signal of a queue has been removed, `plast` points to the freed action,
and the next `sys_kill` writes to it. -/
theorem sysSigreturn_dangling :
    ∃ s, run Signals.step
        [.signal 10 100, .kill 1 10 true (some 4), .handler, .sigreturn] initSignalStruct = some s ∧
      s.pending = none ∧ s.plast = some 4 ∧ s.memory 4 = none ∧
      (¬ ∃ queue, QueueOk s queue) ∧
      Signals.step (.kill 1 10 true (some 8)) s = none := by
  refine exists_some_imp (P := fun s => s.pending = none ∧ s.plast = some 4 ∧ s.memory 4 = none ∧
    (Signals.step (.kill 1 10 true (some 8)) s).isNone) (by decide +kernel)
    fun s _ ⟨hpending, hplast, hmemory, hkill⟩ =>
      ⟨hpending, hplast, hmemory, ?_, isNone_iff_eq_none.mp hkill⟩
  rintro ⟨queue, hqueue⟩
  have hchain := hqueue.chain
  have hlast := hqueue.last
  rw [hpending] at hchain
  obtain rfl : queue = [] := hchain.unique rfl
  rw [hplast] at hlast
  simp at hlast

end Chunos.Signal
